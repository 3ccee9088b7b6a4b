import CTorrent.Bencode.Bounds
import CTorrent.Bencode.Sentence

/-!
# Which inputs the decoder is sound on

A dictionary that `decode` returns is what the input says if all pieces of its reading are plain,
and where one is not, the piece itself was taken for something it does not say.

* `Sound`, `WellRead`, `decode_sound_iff`: the inputs on which `decode` is sound.
-/

namespace CTorrent

namespace Bencode

variable (junk : ℕ → UInt64) (fresh : ℕ → UInt8) {cap : ℕ}

/-- The outer dictionary is read up to its `e`, and all pieces have the property `P`. -/
def Completes (P : Piece → Prop) (x : Bytes) : Prop :=
  ∃ rest pairs r, x = ch 'd' :: rest ∧ Takes junk rest.length P .dictionary rest (some pairs) r

/-- **Soundness of `decode` on one input.** A dictionary that is not empty is the value of the
bytes consumed, and every piece taken on the way is a sentence of the value taken for it; for an
input that does not begin with the sentence of a dictionary, the empty dictionary is returned. -/
def Sound (x : Bytes) : Prop :=
  (∀ d object pos, decode junk (new fresh) x = .ok (d, object) pos → d ≠ [] →
    Sentence (.dictionary d) (x.take (pos + 1)) ∧ Completes junk IsSentence x) ∧
  (¬ BeginsWithDict x → ∃ object pos, decode junk (new fresh) x = .ok ([], object) pos)

/-- The inputs on which `decode` is sound: if the outer dictionary is read up to its `e`, all pieces
were plain; and an input that does not begin with the sentence of a dictionary is not empty, and is
read inside the buffer. -/
def WellRead (x : Bytes) : Prop :=
  (Completes junk Anything x → Completes junk Plain x) ∧
  (¬ BeginsWithDict x → x ≠ [] ∧
    ∀ rest, x = ch 'd' :: rest → ∃ r, Reads junk rest.length .dictionary rest r)

section Decode

variable {rest r : Bytes}

theorem Takes.pairs_ne_nil {P : Piece → Prop} {pairs : List (Bytes × Any)}
    (h : Takes junk cap P .dictionary rest (some pairs) r) : pairs ≠ [] := by
  generalize hv : some pairs = v at h
  cases h with
  | last => rw [Option.some.inj hv]; exact List.cons_ne_nil _ _
  | more =>
    obtain ⟨l, -, rfl⟩ := Option.map_eq_some_iff.1 hv.symm
    exact List.cons_ne_nil _ _
  | _ => cases hv

/-- A plain reading of the outer dictionary gives the value of what was consumed. -/
theorem sentence_of_plain (hlen : rest.length < 2 ^ 64) {pairs : List (Bytes × Any)}
    (h : Takes junk rest.length Plain .dictionary rest (some pairs) r) :
    ∃ u, ch 'd' :: rest = u ++ r ∧ Sentence (.dictionary (toMap pairs)) u := by
  obtain ⟨-, entries, rfl, hrest, hkeys, hvalues⟩ := h.faithful hlen
  refine ⟨_, ?_, .dict hkeys hvalues⟩
  rw [hrest]
  simp

/-- A dictionary that is not empty comes from a reading of the input. -/
theorem completes_of_decode {d : Dictionary} {object : Bencode} {pos : ℕ}
    (hlen : rest.length < 2 ^ 64)
    (hd : decode junk (new fresh) (ch 'd' :: rest) = .ok (d, object) pos) (hne : d ≠ []) :
    Completes junk Anything (ch 'd' :: rest) := by
  rcases decode_takes junk fresh hlen with ⟨e, he⟩ | ⟨v, pos', r, hv, htakes, -⟩
  · rw [he] at hd
    cases hd
  · rw [hv] at hd
    cases v with
    | none =>
      cases hd
      exact absurd rfl hne
    | some pairs => exact ⟨rest, pairs, r, rfl, htakes⟩

/-- Where there is a plain reading, the dictionary is the value of the bytes consumed. -/
theorem sound_of_completes {x : Bytes} {d : Dictionary} {object : Bencode} {pos : ℕ}
    (hlen : x.length < 2 ^ 64) (hplain : Completes junk Plain x)
    (hd : decode junk (new fresh) x = .ok (d, object) pos) :
    Sentence (.dictionary d) (x.take (pos + 1)) ∧ Completes junk IsSentence x := by
  obtain ⟨rest, pairs, r, rfl, htakes⟩ := hplain
  rw [List.length_cons] at hlen
  obtain ⟨object', pos', hd', hpos⟩ := decode_of_takes junk fresh (by omega) htakes
  rw [hd] at hd'
  cases hd'
  obtain ⟨u, hu, hsent⟩ := sentence_of_plain junk (by omega) htakes
  refine ⟨?_, rest, pairs, r, rfl, (htakes.faithful (by omega)).1⟩
  have hlenu := congrArg List.length hu
  rw [List.length_cons, List.length_append] at hlenu
  rw [hu, show pos + 1 = u.length by omega, List.take_left]
  exact hsent

/-- **The inputs on which `decode` is sound.** -/
theorem decode_sound_iff (x : Bytes) (hlen : x.length < 2 ^ 64) :
    Sound junk fresh x ↔ WellRead junk x := by
  constructor
  · rintro ⟨hvalue, hempty⟩
    refine ⟨?_, fun hnot => ?_⟩
    · rintro ⟨rest, pairs, r, rfl, htakes⟩
      rw [List.length_cons] at hlen
      obtain ⟨object, pos, hd, -⟩ := decode_of_takes junk fresh (by omega) htakes
      have hne : toMap pairs ≠ [] := by
        cases pairs with
        | nil => exact absurd rfl (htakes.pairs_ne_nil junk)
        | cons p pairs => exact toMap_ne_nil
      obtain ⟨rest', pairs', r', hx, hsent⟩ := (hvalue _ object pos hd hne).2
      exact ⟨rest', pairs', r', hx, hsent.plain⟩
    · obtain ⟨object, pos, hd⟩ := hempty hnot
      refine ⟨?_, ?_⟩
      · rintro rfl
        cases hd
      · rintro rest rfl
        rw [List.length_cons] at hlen
        obtain ⟨hiff, hfault⟩ := decode_inBounds_iff junk fresh rest (by omega)
        by_contra hno
        obtain ⟨e, he⟩ := hfault (hiff.not.2 hno)
        rw [he] at hd
        cases hd
  · rintro ⟨hplain, hread⟩
    have hvalue : ∀ d object pos, decode junk (new fresh) x = .ok (d, object) pos → d ≠ [] →
        Sentence (.dictionary d) (x.take (pos + 1)) ∧ Completes junk IsSentence x := by
      intro d object pos hd hne
      cases x with
      | nil => cases hd
      | cons c rest =>
        rw [List.length_cons] at hlen
        by_cases hc : c = ch 'd'
        · subst hc
          -- the run of `decode` is a reading, so that there is a plain one, and that is the run
          have hany := completes_of_decode junk fresh (by omega) hd hne
          exact sound_of_completes junk fresh (by rwa [List.length_cons]) (hplain hany) hd
        · rw [decode, if_pos hc] at hd
          cases hd
          exact absurd rfl hne
    refine ⟨hvalue, fun hnot => ?_⟩
    obtain ⟨hne, hreads⟩ := hread hnot
    cases x with
    | nil => exact absurd rfl hne
    | cons c rest =>
      by_cases hc : c = ch 'd'
      · subst hc
        rw [List.length_cons] at hlen
        obtain ⟨⟨d, object⟩, pos, hd, -⟩ :=
          (decode_inBounds_iff junk fresh rest (by omega)).1.2 (hreads rest rfl)
        by_cases hd0 : d = []
        · subst hd0
          exact ⟨object, pos, hd⟩
        · have hsent := (hvalue d object pos hd hd0).1
          exact absurd ⟨d, _, _, (List.take_append_drop (pos + 1) _).symm, hsent⟩ hnot
      · exact ⟨new fresh, (new fresh).pos, by rw [decode, if_pos hc]⟩

end Decode

/-- The second byte of the sentence of a dictionary closes it or begins the length of a key. -/
theorem Sentence.second {v : Any} {c : UInt8} {u : Bytes} (h : Sentence v (ch 'd' :: c :: u)) :
    c = ch 'e' ∨ Decimal.isDigit c = true := by
  generalize hs : ch 'd' :: c :: u = w at h
  cases h with
  | int => exact absurd (List.cons.inj hs).1 (by decide)
  | string digits length =>
    rename_i t s
    cases t with
    | nil => exact absurd rfl digits.1
    | cons d t =>
      have hd := digits.2 d List.mem_cons_self
      exact absurd (List.cons.inj hs).1.symm (ne_of_isDigit hd (by decide))
  | list => exact absurd (List.cons.inj hs).1 (by decide)
  | dict keys values =>
    rename_i entries
    have htail := (List.cons.inj hs).2
    cases entries with
    | nil => exact Or.inl (List.cons.inj htail).1
    | cons e entries =>
      obtain ⟨t, ht, hd, -⟩ := (keys e List.mem_cons_self).exists_of_string
      rw [List.flatMap_cons, Entry.text, ht] at htail
      cases t with
      | nil => exact absurd rfl hd.1
      | cons d t => exact Or.inr ((List.cons.inj htail).1 ▸ hd.2 d List.mem_cons_self)

/-- The bytes of an ASCII text. -/
def ascii (s : String) : Bytes := s.toList.map ch

theorem decode_sound_iff_oneInteger :
    Sound (fun _ => 0) (fun _ => 0) (ascii "d1:ai0ee") ↔ WellRead (fun _ => 0) (ascii "d1:ai0ee") :=
  decode_sound_iff _ _ _ (by decide)

/-- A dictionary that is not empty is returned, with the cursor at `n`. -/
def returnsAt (n : ℕ) : Outcome (Dictionary × Bencode) → Bool
  | .ok r pos => !r.1.isEmpty && pos == n
  | _ => false

theorem exists_of_returnsAt {n : ℕ} {o : Outcome (Dictionary × Bencode)}
    (h : returnsAt n o = true) : ∃ d object, o = .ok (d, object) n ∧ d ≠ [] := by
  cases o with
  | ok r pos =>
    simp only [returnsAt, Bool.and_eq_true, Bool.not_eq_true', List.isEmpty_eq_false_iff,
      beq_iff_eq] at h
    obtain ⟨hne, rfl⟩ := h
    exact ⟨r.1, r.2, rfl, hne⟩
  | _ => cases h

/-- **A blank in a length.** The input `d 1:ai0ee` is read to its end as a dictionary with one
integer, and is not a sentence of anything. -/
theorem not_sound_blank :
    (∃ d object, decode (fun _ => 0) (new fun _ => 0) (ascii "d 1:ai0ee") = .ok (d, object) 8 ∧
      d ≠ [] ∧ ∀ v, ¬ Sentence v ((ascii "d 1:ai0ee").take (8 + 1))) ∧
    ¬ Sound (fun _ => 0) (fun _ => 0) (ascii "d 1:ai0ee") := by
  obtain ⟨d, object, hd, hne⟩ := exists_of_returnsAt (n := 8)
    (show returnsAt 8 (decode (fun _ => 0) (new fun _ => 0) (ascii "d 1:ai0ee")) = true by
      decide +kernel)
  have hnot : ∀ v, ¬ Sentence v ((ascii "d 1:ai0ee").take (8 + 1)) := by
    intro v hv
    rcases Sentence.second (c := ch ' ') (u := ascii "1:ai0ee") hv with h | h
    · exact absurd h (by decide)
    · exact absurd h (by decide)
  exact ⟨⟨d, object, hd, hne, hnot⟩, fun h => hnot _ (h.1 d object 8 hd hne).1⟩

end Bencode

end CTorrent
