import CTorrent.Bencode.Decoder

/-!
# Numbers and strings at the cursor

The texts of the two elementary readers, and what is at the cursor of a decoded input.

* `Number`, `StringText`: the texts;
* `At`: what remains of the buffer at the cursor;
* `readString_total`, `readString_of_text`: `readString` ends in a fault or has read such a text,
  and reads every such text.
-/

namespace CTorrent

namespace Bencode

/-- The text `s` begins with `t` and the first `byte`, and `r` is what follows. -/
def Number (byte : UInt8) (s t r : Bytes) : Prop := s = t ++ byte :: r ∧ byte ∉ t

variable (junk : ℕ → UInt64) (cap : ℕ)

/-- The length that `readString` makes of the text `t`, when `s` remains of the buffer. -/
def lengthOf (s t : Bytes) : ℕ := (extractUint t (junk (cap - s.length))).toNat

/-- The texts that `readString` gets through, with the string it returns and what it leaves: the
bytes are there, and one of them at least behind the colon, or there are too few of them for a
length whose sum with the cursor does not wrap. -/
inductive StringText : Bytes → Bytes → Bytes → Prop
  | body {s t r : Bytes} (number : Number (ch ':') s t r) (nonempty : r ≠ [])
      (le : lengthOf junk cap s t ≤ r.length) :
      StringText s (r.take (lengthOf junk cap s t)) (r.drop (lengthOf junk cap s t))
  | tooLong {s t r : Bytes} (number : Number (ch ':') s t r)
      (lt : r.length < lengthOf junk cap s t)
      (noWrap : lengthOf junk cap s t + (cap - r.length) < 2 ^ 64) :
      StringText s [] r

/-- The buffer holds a decoded input, and `s` is what remains at the cursor. -/
structure At (b : DataBuffer UInt8) (pos : ℕ) (s : Bytes) : Prop where
  size_eq : b.size = 0
  pos_le : pos ≤ b.cap
  drop_eq : b.cells.drop pos = s

section Reader

variable {b : DataBuffer UInt8} {pos : ℕ} {s t r : Bytes} {byte : UInt8}

theorem At.cap_eq (h : At b pos s) : b.cap = pos + s.length := by
  have hpos := h.pos_le
  have hlen := congrArg List.length h.drop_eq
  rw [List.length_drop] at hlen
  simp only [DataBuffer.cap] at *
  omega

theorem At.holds (h : At b pos (s ++ r)) : Holds b pos s r := ⟨h.size_eq, h.pos_le, h.drop_eq⟩

theorem At.advance (h : At b pos (s ++ r)) : At b (pos + s.length) r where
  size_eq := h.size_eq
  pos_le := by
    have := h.cap_eq
    rw [List.length_append] at this
    omega
  drop_eq := by rw [← List.drop_drop, h.drop_eq, List.drop_left]

theorem At.tail {c : UInt8} (h : At b pos (c :: s)) : At b (pos + 1) s := advance (s := [c]) h

theorem At.unpackByte_nil (h : At b pos []) : unpackByte b pos = none := by
  have := h.cap_eq
  rw [List.length_nil] at this
  rw [unpackByte, if_pos (by omega)]

theorem At.unpackByte_cons {c : UInt8} (h : At b pos (c :: s)) : unpackByte b pos = some c := by
  have hall : Holds b pos (c :: s) [] := ⟨h.size_eq, h.pos_le, by rw [h.drop_eq]; simp⟩
  exact hall.unpackByte_eq

/-- A terminator is found, and the cursor moves behind it. -/
theorem At.readIntUntil (h : At b pos s) (hn : Number byte s t r) :
    readIntUntil junk b byte pos = .ok (some (extractUint t (junk pos))) (pos + t.length + 1) ∧
      At b (pos + t.length + 1) r := by
  obtain ⟨rfl, hmem⟩ := hn
  have happ : At b pos ((t ++ [byte]) ++ r) := by simpa using h
  refine ⟨readIntUntil_spec junk happ.holds hmem, ?_⟩
  simpa [Nat.add_assoc] using happ.advance

/-- Without a terminator the search runs into the end of the buffer. -/
theorem At.readIntUntil_fault (h : At b pos s) (hmem : byte ∉ s) :
    Bencode.readIntUntil junk b byte pos = .fault .assertion := by
  have hfind : (b.cells.drop pos).findIdx (· == byte) = s.length := by
    rw [h.drop_eq, List.findIdx_eq_length_of_false]
    intro x hx
    simpa using fun he : x = byte => hmem (he ▸ hx)
  have hcap := h.cap_eq
  have hget : b.get? (pos + s.length) = none := by
    rw [DataBuffer.get?, List.getElem?_eq_none]
    simp only [DataBuffer.cap] at hcap
    omega
  rw [Bencode.readIntUntil, hfind]
  simp only [hget]

theorem exists_number (hmem : byte ∈ s) : ∃ t r, Number byte s t r := by
  obtain ⟨t, r, rfl, ht⟩ := List.eq_append_cons_of_mem hmem
  exact ⟨t, r, rfl, ht⟩

/-- What `readString` does behind the length: the text is one of the good ones, or there is a
fault. -/
theorem readString_cases (h : At b pos s) (hcap : b.cap < 2 ^ 64)
    (hn : Number (ch ':') s t r) :
    readString junk b pos =
      if r.length < lengthOf junk b.cap s t then
        if lengthOf junk b.cap s t + (b.cap - r.length) < 2 ^ 64 then
          .ok [] (pos + t.length + 1)
        else .fault (if r = [] then .assertion else .overrun)
      else if r = [] then .fault .assertion
      else .ok (r.take (lengthOf junk b.cap s t)) (pos + t.length + 1 + lengthOf junk b.cap s t) := by
  obtain ⟨hread, hat⟩ := h.readIntUntil junk hn
  have hpos : b.cap - s.length = pos := by
    have := h.cap_eq
    omega
  have hlen : (extractUint t (junk pos)).toNat = lengthOf junk b.cap s t := by
    rw [lengthOf, hpos]
  have hlt : lengthOf junk b.cap s t < 2 ^ 64 := (extractUint t _).toNat_lt
  have hrcap := hat.cap_eq
  rw [readString, hread]
  simp only [Outcome.bind_ok, hlen]
  generalize lengthOf junk b.cap s t = len at hlt
  have hsub : b.cap - r.length = pos + t.length + 1 := by omega
  have hnil : b.cap ≤ pos + t.length + 1 ↔ r = [] := by
    rw [← List.length_eq_zero_iff]
    omega
  rw [hsub]
  by_cases hlong : r.length < len
  · rw [if_pos hlong]
    by_cases hwrap : len + (pos + t.length + 1) < 2 ^ 64
    · rw [if_pos hwrap, Nat.mod_eq_of_lt hwrap, if_pos (by omega)]
    · have hmod : (len + (pos + t.length + 1)) % 2 ^ 64 ≤ b.cap := by omega
      rw [if_neg hwrap, if_neg (by omega)]
      by_cases hr : r = []
      · rw [if_pos (hnil.2 hr), if_pos hr]
      · rw [if_neg (hnil.not.2 hr), if_pos (by omega), if_neg hr]
  · have hmod : (len + (pos + t.length + 1)) % 2 ^ 64 ≤ b.cap := by omega
    rw [if_neg hlong, if_neg (by omega)]
    by_cases hr : r = []
    · rw [if_pos (hnil.2 hr), if_pos hr]
    · rw [if_neg (hnil.not.2 hr), if_neg (by omega), if_neg hr, Splice.region, hat.drop_eq]

variable {junk}

theorem StringText.length_lt {cap : ℕ} {v : Bytes} (h : StringText junk cap s v r) :
    r.length < s.length := by
  cases h with
  | body number =>
    rw [number.1, List.length_append, List.length_cons, List.length_drop]
    omega
  | tooLong number =>
    rw [number.1, List.length_append, List.length_cons]
    omega

variable (junk)

/-- `readString` fails, or it has read one of the texts. -/
theorem readString_total (h : At b pos s) (hcap : b.cap < 2 ^ 64) :
    (∃ f, readString junk b pos = .fault f) ∨
      ∃ v r pos', readString junk b pos = .ok v pos' ∧ StringText junk b.cap s v r ∧
        At b pos' r := by
  by_cases hmem : ch ':' ∈ s
  · obtain ⟨t, r, hn⟩ := exists_number hmem
    obtain ⟨-, hat⟩ := h.readIntUntil junk hn
    rw [readString_cases junk h hcap hn]
    split_ifs with hlong hwrap hr hr
    · exact Or.inr ⟨[], r, _, rfl, .tooLong hn hlong hwrap, hat⟩
    · exact Or.inl ⟨_, rfl⟩
    · exact Or.inl ⟨_, rfl⟩
    · exact Or.inl ⟨_, rfl⟩
    · refine Or.inr ⟨_, _, _, rfl, .body hn hr (Nat.le_of_not_lt hlong), ?_⟩
      rw [← List.take_append_drop (lengthOf junk b.cap s t) r] at hat
      have hadv := hat.advance
      rwa [List.length_take, Nat.min_eq_left (Nat.le_of_not_lt hlong)] at hadv
  · left
    rw [readString, h.readIntUntil_fault junk hmem]
    exact ⟨_, rfl⟩

/-- `readString` reads each of the texts. -/
theorem readString_of_text (h : At b pos s) (hcap : b.cap < 2 ^ 64) {v : Bytes}
    (ht : StringText junk b.cap s v r) :
    ∃ pos', readString junk b pos = .ok v pos' ∧ At b pos' r := by
  cases ht with
  | body number nonempty le =>
    rename_i t r
    obtain ⟨-, hat⟩ := h.readIntUntil junk number
    rw [readString_cases junk h hcap number, if_neg (Nat.not_lt.2 le), if_neg nonempty]
    refine ⟨_, rfl, ?_⟩
    rw [← List.take_append_drop (lengthOf junk b.cap s t) r] at hat
    have hadv := hat.advance
    rwa [List.length_take, Nat.min_eq_left le] at hadv
  | tooLong number lt noWrap =>
    obtain ⟨-, hat⟩ := h.readIntUntil junk number
    rw [readString_cases junk h hcap number, if_pos lt, if_pos noWrap]
    exact ⟨_, rfl, hat⟩

end Reader

end Bencode

end CTorrent
