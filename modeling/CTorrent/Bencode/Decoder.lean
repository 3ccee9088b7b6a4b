import CTorrent.Bencode.Encoder
import CTorrent.Lib.Splice
import Mathlib.Data.List.TakeWhile

/-!
# `bencode/decoder.cpp`: the decoder

The readers move the cursor `m_pos` over the cells of the buffer. An `Outcome` is the value read
with the new cursor, or a fault: the assertion of `DataBuffer::operator[]` failed, or bytes past
the end of the buffer were to be copied. The two unbounded loops carry fuel.

* `extractUint`: `istringstream >> uint64_t` on a whole text;
* `readIntUntil`, `readUint`, `readString`, `readVector`, `readDictionary`, `decode`;
* `Holds`: the buffer has a given text at the cursor; `readUint_spec`, `readString_spec`: what the
  two elementary readers return on the text of a number and of a string.
-/

namespace CTorrent

/-- How a reader can fail without returning. -/
inductive Fault where
  | assertion
  | overrun
  deriving DecidableEq

/-- What a reader does: a fault, no end within the fuel, or a value and the new cursor. -/
inductive Outcome (α : Type) where
  | fault (f : Fault)
  | outOfFuel
  | ok (value : α) (pos : ℕ)

namespace Outcome

variable {α β : Type}

/-- Continue with the value and the cursor. -/
def bind (o : Outcome α) (f : α → ℕ → Outcome β) : Outcome β :=
  match o with
  | fault e => fault e
  | outOfFuel => outOfFuel
  | ok a pos => f a pos

/-- Change the value. -/
def map (g : α → β) (o : Outcome α) : Outcome β := o.bind fun a pos => ok (g a) pos

@[simp] theorem bind_ok (a : α) (pos : ℕ) (f : α → ℕ → Outcome β) : (ok a pos).bind f = f a pos := rfl
@[simp] theorem map_ok (g : α → β) (a : α) (pos : ℕ) : (ok a pos).map g = ok (g a) pos := rfl

theorem bind_eq_ok {o : Outcome α} {f : α → ℕ → Outcome β} {b : β} {pos : ℕ}
    (h : o.bind f = ok b pos) : ∃ a p, o = ok a p ∧ f a p = ok b pos := by
  cases o with
  | fault e => cases h
  | outOfFuel => cases h
  | ok a p => exact ⟨a, p, rfl, h⟩

end Outcome

/-- `isspace` in the C locale. -/
def isSpace (b : UInt8) : Bool := (9 ≤ b.toNat && b.toNat ≤ 13) || b.toNat == 32

/-- The number and its sign that a text begins with, after white space: `num_get` accepts `-` and
`+` also for an unsigned type and stops at the first byte that is not a digit. -/
def extractSigned (t : Bytes) : Bool × Bytes :=
  match t with
  | [] => (false, [])
  | c :: rest =>
      if c = ch '-' then (true, rest.takeWhile Decimal.isDigit)
      else if c = ch '+' then (false, rest.takeWhile Decimal.isDigit)
      else (false, t.takeWhile Decimal.isDigit)

/-- `std::istringstream(text) >> value` for `uint64_t value`: a text of white space leaves `value`
as it was (`old`), a missing number gives 0, a number out of range the maximum, and a negative
number wraps. -/
def extractUint (text : Bytes) (old : UInt64) : UInt64 :=
  let t := text.dropWhile isSpace
  if t = [] then old
  else
    let (negative, digits) := extractSigned t
    if digits = [] then 0
    else if Decimal.value digits ≥ 2 ^ 64 then UInt64.ofNat (2 ^ 64 - 1)
    else if negative then UInt64.ofNat (2 ^ 64 - Decimal.value digits)
    else UInt64.ofNat (Decimal.value digits)

namespace Bencode

variable (junk : ℕ → UInt64) (b : DataBuffer UInt8)

/-- `readIntUntil<uint64_t>(byte, value)`: `none` where it returns false. The variable behind
`value` is uninitialised in both callers; `junk` is what it holds. -/
def readIntUntil (byte : UInt8) (pos : ℕ) : Outcome (Option UInt64) :=
  -- the first occurrence of `byte` at or after the cursor, or `cap()`
  let found := pos + (b.cells.drop pos).findIdx (· == byte)
  match b.get? found with
  | none => .fault .assertion
  | some c =>
      if c ≠ byte then .ok none pos
      else if found - pos > b.rem then .ok none pos
      else
        .ok (some (extractUint (Splice.region b.cells pos (found - pos)) (junk pos))) (found + 1)

/-- `readUint`. -/
def readUint (pos : ℕ) : Outcome UInt64 :=
  (readIntUntil junk b (ch 'e') pos).map fun u => u.getD (UInt64.ofNat (2 ^ 64 - 1))

/-- `readString`. -/
def readString (pos : ℕ) : Outcome Bytes :=
  (readIntUntil junk b (ch ':') pos).bind fun r pos =>
    match r with
    | none => .ok [] pos
    | some len =>
        if (len.toNat + pos) % 2 ^ 64 > b.cap then .ok [] pos
        -- `&m_buffer[m_pos]`, then the copy of `len` bytes
        else if b.cap ≤ pos then .fault .assertion
        else if b.cap < pos + len.toNat then .fault .overrun
        else .ok (Splice.region b.cells pos len.toNat) (pos + len.toNat)

/-- `unpackByte`: `none` where it returns false; the cursor moves by one otherwise. -/
def unpackByte (pos : ℕ) : Option UInt8 := if pos + 1 > b.cap then none else b.get? pos

mutual

/-- The switch that `readVector` and `readDictionary` share: `byte` has just been unpacked and the
cursor stands behind it. -/
def readAny : ℕ → UInt8 → ℕ → Outcome Any
  | 0, _, _ => .outOfFuel
  | fuel + 1, byte, pos =>
      if byte = ch 'i' then (readUint junk b pos).map .uint64
      else if byte = ch 'l' then (readVector fuel pos []).map .vector
      else if byte = ch 'd' then (readDictionary fuel pos []).map .dictionary
      -- `--m_pos`
      else (readString junk b (pos - 1)).map .string

/-- The loop of `readVector`; `ret` is what it has collected. -/
def readVector : ℕ → ℕ → VectorType → Outcome VectorType
  | 0, _, _ => .outOfFuel
  | fuel + 1, pos, ret =>
      match unpackByte b pos with
      | none => .ok ret pos
      | some byte =>
          if byte = ch 'e' then .ok ret (pos + 1)
          else (readAny fuel byte (pos + 1)).bind fun value pos =>
            readVector fuel pos (ret ++ [value])

/-- The loop of `readDictionary`; `ret` is what it has collected. -/
def readDictionary : ℕ → ℕ → Dictionary → Outcome Dictionary
  | 0, _, _ => .outOfFuel
  | fuel + 1, pos, ret =>
      (readString junk b pos).bind fun key pos =>
        if key = [] then .ok [] pos
        else
          match unpackByte b pos with
          | none => .ok [] pos
          | some byte =>
              (readAny fuel byte (pos + 1)).bind fun value pos =>
                match unpackByte b pos with
                | none => .ok [] pos
                | some byte =>
                    if byte = ch 'e' then .ok (Dictionary.insert ret key value) (pos + 1)
                    else readDictionary fuel pos (Dictionary.insert ret key value)

end

/-- `decode(data, size)`: the dictionary and the object afterwards. The fuel suffices for every
input, since each pass moves the cursor forward. -/
def decode (object : Bencode) (data : Bytes) : Outcome (Dictionary × Bencode) :=
  match data with
  | [] => .fault .overrun
  | c :: rest =>
      if c ≠ ch 'd' then .ok ([], object) object.pos
      else
        (readDictionary junk (DataBuffer.setData rest) (2 * data.length) object.pos []).bind
          fun d pos => .ok (d, ⟨DataBuffer.setData rest, pos⟩) pos

end Bencode

/-! ### Texts in the buffer -/

/-- The buffer holds a decoded input and has `text` at the cursor, followed by `rest`. -/
structure Holds (b : DataBuffer UInt8) (pos : ℕ) (text rest : Bytes) : Prop where
  size_eq : b.size = 0
  pos_le : pos ≤ b.cap
  drop_eq : b.cells.drop pos = text ++ rest

namespace Holds

variable {b : DataBuffer UInt8} {pos : ℕ} {s t rest : Bytes}

theorem cap_eq (h : Holds b pos t rest) : b.cap = pos + t.length + rest.length := by
  have := congrArg List.length h.drop_eq
  have := h.pos_le
  simp only [List.length_drop, List.length_append, DataBuffer.cap] at *
  omega

/-- The cursor may be moved past a prefix of the text. -/
theorem advance (h : Holds b pos (s ++ t) rest) : Holds b (pos + s.length) t rest where
  size_eq := h.size_eq
  pos_le := by
    have := h.cap_eq
    rw [List.length_append] at this
    omega
  drop_eq := by
    rw [← List.drop_drop, h.drop_eq, List.append_assoc, List.drop_left]

theorem append_assoc (h : Holds b pos (s ++ t) rest) : Holds b pos s (t ++ rest) :=
  ⟨h.size_eq, h.pos_le, by rw [h.drop_eq, List.append_assoc]⟩

theorem tail {c : UInt8} (h : Holds b pos (c :: t) rest) : Holds b (pos + 1) t rest :=
  advance (s := [c]) h

theorem get?_eq {c : UInt8} (h : Holds b pos (c :: t) rest) : b.get? pos = some c := by
  have hget := congrArg (·[0]?) h.drop_eq
  simpa [DataBuffer.get?] using hget

theorem unpackByte_eq {c : UInt8} (h : Holds b pos (c :: t) rest) :
    Bencode.unpackByte b pos = some c := by
  have := h.cap_eq
  rw [List.length_cons] at this
  rw [Bencode.unpackByte, if_neg (by omega), h.get?_eq]

end Holds

namespace Bencode

variable (junk : ℕ → UInt64) {b : DataBuffer UInt8}

/-- On a text without `byte`, `readIntUntil` reads the text and stops behind the byte. -/
theorem readIntUntil_spec {byte : UInt8} {pos : ℕ} {t rest : Bytes}
    (h : Holds b pos (t ++ [byte]) rest) (ht : byte ∉ t) :
    readIntUntil junk b byte pos =
      .ok (some (extractUint t (junk pos))) (pos + t.length + 1) := by
  have hfind : (b.cells.drop pos).findIdx (· == byte) = t.length := by
    rw [h.drop_eq, List.append_assoc, List.findIdx_append, List.findIdx_eq_length_of_false]
    · simp [List.findIdx_cons]
    · intro x hx
      simpa using fun he : x = byte => ht (he ▸ hx)
  have hget : b.get? (pos + t.length) = some byte := h.advance.get?_eq
  have hrem : ¬ t.length > b.rem := by
    have := h.cap_eq
    rw [List.length_append] at this
    rw [DataBuffer.rem, h.size_eq]
    omega
  rw [readIntUntil, hfind]
  simp only [hget, Nat.add_sub_cancel_left, ne_eq, not_true_eq_false, if_false, if_neg hrem]
  rw [Splice.region, h.append_assoc.drop_eq, List.take_left]

theorem takeWhile_isDigit_text (n : ℕ) :
    (Decimal.text n).takeWhile Decimal.isDigit = Decimal.text n := by
  rw [List.takeWhile_eq_self_iff]
  exact fun _ hb => Decimal.isDigit_of_mem_text hb

theorem ne_of_isDigit {d : UInt8} (h : Decimal.isDigit d = true) {c : UInt8}
    (hc : Decimal.isDigit c = false) : d ≠ c := by
  rintro rfl
  rw [h] at hc
  cases hc

theorem not_mem_text {n : ℕ} {c : UInt8} (hc : Decimal.isDigit c = false) :
    c ∉ Decimal.text n :=
  fun h => ne_of_isDigit (Decimal.isDigit_of_mem_text h) hc rfl

theorem isSpace_of_isDigit {d : UInt8} (h : Decimal.isDigit d = true) : isSpace d = false := by
  simp only [Decimal.isDigit, Bool.and_eq_true, decide_eq_true_eq] at h
  simp only [isSpace, Bool.or_eq_false_iff, Bool.and_eq_false_iff, decide_eq_false_iff_not,
    beq_eq_false_iff_ne]
  omega

/-- The text of a number in range is read back. -/
theorem extractUint_text {n : ℕ} (hn : n < 2 ^ 64) (old : UInt64) :
    extractUint (Decimal.text n) old = UInt64.ofNat n := by
  obtain ⟨d, l, hdl, hd⟩ := Decimal.exists_cons_text n
  have hdrop : (Decimal.text n).dropWhile isSpace = Decimal.text n := by
    rw [hdl, List.dropWhile_cons, isSpace_of_isDigit hd]
    rfl
  have hsigned : extractSigned (Decimal.text n) = (false, Decimal.text n) := by
    rw [hdl]
    simp only [extractSigned]
    rw [if_neg (ne_of_isDigit hd (by decide)), if_neg (ne_of_isDigit hd (by decide)), ← hdl,
      takeWhile_isDigit_text]
  rw [extractUint, hdrop, if_neg (Decimal.text_ne_nil n), hsigned]
  simp only [Decimal.text_ne_nil, if_false, Decimal.value_text, ge_iff_le, Bool.false_eq_true]
  rw [if_neg (by omega)]

/-- The text of a negative number wraps. -/
theorem extractUint_neg_text {n : ℕ} (hn : n < 2 ^ 64) (old : UInt64) :
    extractUint (ch '-' :: Decimal.text n) old = UInt64.ofNat (2 ^ 64 - n) := by
  have hdrop : (ch '-' :: Decimal.text n).dropWhile isSpace = ch '-' :: Decimal.text n := by
    rw [List.dropWhile_cons]
    rfl
  have hsigned : extractSigned (ch '-' :: Decimal.text n) = (true, Decimal.text n) := by
    simp only [extractSigned, if_true, takeWhile_isDigit_text]
  rw [extractUint, hdrop, if_neg (List.cons_ne_nil _ _), hsigned]
  simp only [Decimal.text_ne_nil, if_false, Decimal.value_text, ge_iff_le, if_true]
  rw [if_neg (by omega)]

/-- **Reading a string.** On the bytes of a string, `readString` returns it and stops behind it;
a byte must follow unless the string is non-empty. -/
theorem readString_spec {pos : ℕ} {s rest : Bytes} (h : Holds b pos (stringEncoding s) rest)
    (hlen : b.cap < 2 ^ 64) (hne : s ++ rest ≠ []) :
    readString junk b pos = .ok s (pos + (stringEncoding s).length) := by
  have h' : Holds b pos ((Decimal.text s.length ++ [ch ':']) ++ s) rest := by
    simpa [stringEncoding] using h
  have hs := h'.advance
  have hcap := hs.cap_eq
  simp only [List.length_append, List.length_singleton, ← Nat.add_assoc] at hs hcap
  have hpos : 0 < s.length + rest.length := by
    rw [← List.length_append]
    exact List.length_pos_of_ne_nil hne
  have hnat : (UInt64.ofNat s.length).toNat = s.length := by
    rw [UInt64.toNat_ofNat', Nat.mod_eq_of_lt (by omega)]
  rw [readString, readIntUntil_spec junk h'.append_assoc (not_mem_text (by decide)),
    extractUint_text (by omega)]
  simp only [Outcome.bind_ok, hnat]
  rw [if_neg (by rw [Nat.mod_eq_of_lt (by omega)]; omega), if_neg (by omega), if_neg (by omega),
    Splice.region, hs.drop_eq, List.take_left]
  congr 1
  simp only [stringEncoding, List.length_append, List.length_cons]
  omega

end Bencode

end CTorrent
