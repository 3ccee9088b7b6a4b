import Mathlib.Data.List.Basic

/-!
# Readers that ask for so many bytes

A reader of a stream says how many bytes it wants next and is handed them once that many have
arrived. The stream arrives in segments, which do not keep to what the reader wants: what is not
taken waits.

* `Machine`: such a reader; it never wants nothing at all;
* `drain`: it takes what it can of the bytes that wait;
* `feed_append`, `foldl_feed`: the segments do not matter, only the bytes in them;
* `drain_of_want`, `drain_of_stuck`: one chunk of the stream after the other.
-/

namespace Framing

/-- A reader: how many bytes it wants, if it reads on, and what it does with them. -/
structure Machine (σ α : Type*) where
  want : σ → Option ℕ
  take : σ → List α → σ
  want_pos : ∀ s n, want s = some n → 0 < n

namespace Machine

variable {σ α : Type*} (M : Machine σ α)

/-- The reader takes what it can, for `fuel` times at most. -/
def drainFor : ℕ → σ → List α → σ × List α
  | 0, s, buf => (s, buf)
  | fuel + 1, s, buf =>
      match M.want s with
      | none => (s, buf)
      | some n =>
          if n ≤ buf.length then drainFor fuel (M.take s (buf.take n)) (buf.drop n) else (s, buf)

/-- The reader takes what it can of the bytes that wait. Each time it takes one byte at least. -/
def drain (s : σ) (buf : List α) : σ × List α := M.drainFor buf.length s buf

/-- A segment arrives at a reader with the bytes that wait. -/
def feed (x : σ × List α) (segment : List α) : σ × List α := M.drain x.1 (x.2 ++ segment)

variable {M} {s : σ} {buf : List α}

/-- Either not enough has arrived, or something can be taken. -/
theorem stuck_or_want (M : Machine σ α) (s : σ) (buf : List α) :
    (∀ n, M.want s = some n → buf.length < n) ∨ ∃ n, M.want s = some n ∧ n ≤ buf.length := by
  cases hn : M.want s with
  | none => exact Or.inl fun n h => by cases h
  | some n =>
    refine (Nat.lt_or_ge buf.length n).imp (fun hlt k hk => ?_) fun hle => ⟨n, rfl, hle⟩
    cases hk
    exact hlt

/-- Where nothing is wanted, or not enough has arrived, nothing is taken. -/
theorem drainFor_of_stuck (h : ∀ n, M.want s = some n → buf.length < n) (fuel : ℕ) :
    M.drainFor fuel s buf = (s, buf) := by
  cases fuel with
  | zero => rfl
  | succ fuel =>
    rw [drainFor]
    split
    · rfl
    · rename_i n hn
      rw [if_neg (Nat.not_le.2 (h n hn))]

theorem drainFor_of_want {n : ℕ} (hn : M.want s = some n) (hle : n ≤ buf.length) (fuel : ℕ) :
    M.drainFor (fuel + 1) s buf = M.drainFor fuel (M.take s (buf.take n)) (buf.drop n) := by
  rw [drainFor, hn]
  exact if_pos hle

/-- More fuel than bytes changes nothing. -/
theorem drainFor_eq_drain {fuel : ℕ} (h : buf.length ≤ fuel) :
    M.drainFor fuel s buf = M.drain s buf := by
  unfold drain
  induction fuel using Nat.strongRecOn generalizing s buf with
  | ind fuel ih =>
    obtain hstuck | ⟨n, hn, hle⟩ := M.stuck_or_want s buf
    · rw [drainFor_of_stuck hstuck, drainFor_of_stuck hstuck]
    · have hpos := M.want_pos s n hn
      obtain ⟨fuel, rfl⟩ : ∃ k, fuel = k + 1 := ⟨fuel - 1, by omega⟩
      obtain ⟨len, hlen⟩ : ∃ k, buf.length = k + 1 := ⟨buf.length - 1, by omega⟩
      rw [hlen, drainFor_of_want hn hle, drainFor_of_want hn hle]
      have hrest : (buf.drop n).length ≤ len := by rw [List.length_drop]; omega
      rw [ih fuel (Nat.lt_succ_self _) (by omega), ih len (by omega) hrest]

/-- The reader takes what it wants from the front of the bytes that wait. -/
theorem drain_of_want {n : ℕ} (hn : M.want s = some n) {chunk rest : List α}
    (hchunk : chunk.length = n) :
    M.drain s (chunk ++ rest) = M.drain (M.take s chunk) rest := by
  have hpos := M.want_pos s n hn
  obtain ⟨len, hlen⟩ : ∃ k, (chunk ++ rest).length = k + 1 :=
    ⟨(chunk ++ rest).length - 1, by rw [List.length_append]; omega⟩
  rw [drain, hlen, drainFor_of_want hn (by rw [List.length_append]; omega)]
  rw [← hchunk, List.take_left, List.drop_left]
  rw [List.length_append] at hlen
  exact drainFor_eq_drain (by omega)

theorem drain_of_stuck (h : ∀ n, M.want s = some n → buf.length < n) :
    M.drain s buf = (s, buf) := drainFor_of_stuck h _

/-- Bytes that arrive later are taken after those that arrived before. -/
theorem drain_append (s : σ) (buf more : List α) :
    M.drain s (buf ++ more) = M.drain (M.drain s buf).1 ((M.drain s buf).2 ++ more) := by
  induction hlen : buf.length using Nat.strongRecOn generalizing s buf with
  | ind len ih =>
    obtain hstuck | ⟨n, hn, hle⟩ := M.stuck_or_want s buf
    · rw [drain_of_stuck hstuck]
    · have hpos := M.want_pos s n hn
      have hchunk : (buf.take n).length = n := List.length_take_of_le hle
      have hcut := (List.take_append_drop n buf).symm
      have hrest : (buf.drop n).length < len := by rw [List.length_drop]; omega
      have hfirst : M.drain s buf = M.drain (M.take s (buf.take n)) (buf.drop n) := by
        nth_rewrite 1 [hcut]
        exact drain_of_want hn hchunk
      rw [hfirst, ← ih _ hrest _ _ rfl, ← drain_of_want hn hchunk, ← List.append_assoc, ← hcut]

/-- Two segments in a row are as good as one. -/
theorem feed_append (x : σ × List α) (a b : List α) :
    M.feed x (a ++ b) = M.feed (M.feed x a) b := by
  rw [feed, ← List.append_assoc, drain_append]
  rfl

/-- **Segments do not matter.** A stream that arrives in segments is read as if it had arrived at
once. -/
theorem foldl_feed (x : σ × List α) (segments : List (List α)) (h : M.drain x.1 x.2 = x) :
    segments.foldl M.feed x = M.feed x segments.flatten := by
  induction segments generalizing x with
  | nil => rw [List.foldl_nil, List.flatten_nil, feed, List.append_nil, h]
  | cons a segments ih =>
    have hdrained : M.drain (M.feed x a).1 (M.feed x a).2 = M.feed x a := by
      have happend := drain_append (M := M) x.1 (x.2 ++ a) []
      rw [List.append_nil, List.append_nil] at happend
      exact happend.symm
    rw [List.foldl_cons, ih _ hdrained, List.flatten_cons, feed_append]

end Machine

end Framing
