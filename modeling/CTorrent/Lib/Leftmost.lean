import Mathlib.Algebra.Order.Ring.Int
import Mathlib.Order.Lattice
import Mathlib.Order.Nat

/-!
# The leftmost least element

Among the positions below `n` that satisfy `P`, the first whose rank is least.

* `Leftmost`: the position, which is `unique`; `Leftmost.exists_of_mem`: it exists;
* `Leftmost.keep`, `Leftmost.new`: one position more;
* `Level.update`: ranks that differ by at most one still do when the least of them is raised.
-/

/-- `i` is the first of the positions below `n` with `P` whose rank is least. -/
structure Leftmost {α : Type*} [LinearOrder α] (P : ℕ → Prop) (rank : ℕ → α) (n i : ℕ) : Prop where
  lt : i < n
  mem : P i
  le : ∀ j < n, P j → rank i ≤ rank j
  first : ∀ j < i, P j → rank i < rank j

namespace Leftmost

variable {α : Type*} [LinearOrder α] {P : ℕ → Prop} {rank : ℕ → α} {n i j : ℕ}

theorem unique (hi : Leftmost P rank n i) (hj : Leftmost P rank n j) : i = j := by
  rcases lt_trichotomy i j with hlt | heq | hlt
  · exact absurd (hj.first i hlt hi.mem) (not_lt_of_ge (hi.le j hj.lt hj.mem))
  · exact heq
  · exact absurd (hi.first j hlt hj.mem) (not_lt_of_ge (hj.le i hi.lt hi.mem))

/-- The next position is none, or its rank is no less. -/
theorem keep (h : Leftmost P rank n i) (hn : P n → rank i ≤ rank n) :
    Leftmost P rank (n + 1) i where
  lt := Nat.lt_succ_of_lt h.lt
  mem := h.mem
  le := by
    intro j hj hP
    rcases Nat.lt_succ_iff_lt_or_eq.1 hj with hlt | rfl
    · exact h.le j hlt hP
    · exact hn hP
  first := h.first

/-- The next position has a rank less than all before. -/
theorem new (hn : P n) (hlt : ∀ j < n, P j → rank n < rank j) : Leftmost P rank (n + 1) n where
  lt := Nat.lt_succ_self n
  mem := hn
  le := by
    intro j hj hP
    rcases Nat.lt_succ_iff_lt_or_eq.1 hj with hj | rfl
    · exact (hlt j hj hP).le
    · exact le_rfl
  first := hlt

/-- There is a leftmost least element unless there is no element. -/
theorem exists_of_mem (rank : ℕ → α) (hi : i < n) (hP : P i) : ∃ k, Leftmost P rank n k := by
  induction n generalizing i with
  | zero => exact absurd hi (Nat.not_lt_zero i)
  | succ n ih =>
    by_cases hbelow : ∃ j < n, P j
    · obtain ⟨j, hj, hPj⟩ := hbelow
      obtain ⟨k, hk⟩ := ih hj hPj
      by_cases hn : P n ∧ rank n < rank k
      · exact ⟨n, new hn.1 fun j hj hPj => hn.2.trans_le (hk.le j hj hPj)⟩
      · exact ⟨k, hk.keep fun hPn => not_lt.1 fun hlt => hn ⟨hPn, hlt⟩⟩
    · have hin : i = n := by
        by_contra hne
        exact hbelow ⟨i, lt_of_le_of_ne (Nat.le_of_lt_succ hi) hne, hP⟩
      subst hin
      exact ⟨i, new hP fun j hj hPj => absurd ⟨j, hj, hPj⟩ hbelow⟩

/-- Another rank that orders the positions in the same way. -/
theorem of_rank {β : Type*} [LinearOrder β] {rank' : ℕ → β} (h : Leftmost P rank n i)
    (hrank : ∀ j < n, ∀ k < n, rank j < rank k ↔ rank' j < rank' k) : Leftmost P rank' n i where
  lt := h.lt
  mem := h.mem
  le j hj hP := by
    have hle := h.le j hj hP
    rw [← not_lt] at hle ⊢
    rwa [← hrank j hj i h.lt]
  first j hj hP := (hrank i h.lt j (hj.trans h.lt)).1 (h.first j hj hP)

end Leftmost

/-- The ranks of the positions below `n` with `P` differ by at most one. -/
def Level (P : ℕ → Prop) (rank : ℕ → ℤ) (n : ℕ) : Prop :=
  ∀ i < n, P i → ∀ j < n, P j → rank i ≤ rank j + 1

/-- Raising the least rank by one keeps them level. -/
theorem Level.update {P : ℕ → Prop} {rank : ℕ → ℤ} {n i : ℕ} (h : Level P rank n)
    (hi : Leftmost P rank n i) : Level P (Function.update rank i (rank i + 1)) n := by
  intro j hj hPj k hk hPk
  have hjk := h j hj hPj k hk hPk
  have hji := h j hj hPj i hi.lt hi.mem
  have hik := hi.le k hk hPk
  simp only [Function.update_apply]
  split_ifs <;> omega
