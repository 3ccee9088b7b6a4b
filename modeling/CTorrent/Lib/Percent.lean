import Mathlib.Data.List.Basic

/-!
# Percent-encoding

A byte is encoded as itself if it is unreserved, and otherwise as `%` with its two hexadecimal
digits. Decoding accepts digits of either case and passes all other bytes.

* `encode`, `decode`, `decode_encode_text`: the round trip, and `encode_injective`;
* `Encoded`: texts of unreserved bytes and escapes; `encoded_encode`.
-/

namespace Percent

/-- `%`. -/
def percent : UInt8 := 37

/-- A letter, a digit, or one of `-`, `.`, `_` and `~`. -/
def isUnreserved (c : UInt8) : Bool :=
  (65 ≤ c.toNat && c.toNat ≤ 90) || (97 ≤ c.toNat && c.toNat ≤ 122) ||
    (48 ≤ c.toNat && c.toNat ≤ 57) || c == 45 || c == 46 || c == 95 || c == 126

/-- The digit of a value below 16, in upper case. -/
def hexDigit (d : ℕ) : UInt8 := UInt8.ofNat (if d < 10 then 48 + d else 55 + d)

/-- The value of a digit of either case. -/
def hexValue (c : UInt8) : Option ℕ :=
  if 48 ≤ c.toNat ∧ c.toNat ≤ 57 then some (c.toNat - 48)
  else if 65 ≤ c.toNat ∧ c.toNat ≤ 70 then some (c.toNat - 55)
  else if 97 ≤ c.toNat ∧ c.toNat ≤ 102 then some (c.toNat - 87)
  else none

/-- A byte, encoded. -/
def escape (c : UInt8) : List UInt8 :=
  if isUnreserved c then [c] else [percent, hexDigit (c.toNat / 16), hexDigit (c.toNat % 16)]

/-- A text, encoded. -/
def encode (v : List UInt8) : List UInt8 := v.flatMap escape

/-- Decoding; `none` where a `%` does not begin an escape. -/
def decode : List UInt8 → Option (List UInt8)
  | [] => some []
  | c :: s =>
      if c = percent then
        match s with
        | h :: l :: s =>
            match hexValue h, hexValue l with
            | some x, some y => (decode s).map fun v => UInt8.ofNat (16 * x + y) :: v
            | _, _ => none
        | _ => none
      else (decode s).map fun v => c :: v

/-- Texts of unreserved bytes and well-formed escapes. -/
inductive Encoded : List UInt8 → Prop
  | nil : Encoded []
  | unreserved {c : UInt8} {s : List UInt8} (hc : isUnreserved c = true) (hs : Encoded s) :
      Encoded (c :: s)
  | escape {h l : UInt8} {s : List UInt8} (hh : (hexValue h).isSome = true)
      (hl : (hexValue l).isSome = true) (hs : Encoded s) : Encoded (percent :: h :: l :: s)

@[simp] theorem encode_nil : encode [] = [] := rfl

@[simp] theorem encode_cons (c : UInt8) (v : List UInt8) :
    encode (c :: v) = escape c ++ encode v := List.flatMap_cons

theorem hexValue_hexDigit {d : ℕ} (h : d < 16) : hexValue (hexDigit d) = some d := by
  have hall : ∀ d < 16, hexValue (hexDigit d) = some d := by decide
  exact hall d h

theorem isSome_hexValue_hexDigit {d : ℕ} (h : d < 16) :
    (hexValue (hexDigit d)).isSome = true := by
  rw [hexValue_hexDigit h]
  rfl

theorem isUnreserved_percent : isUnreserved percent = false := rfl

/-- A byte is read back. -/
theorem decode_escape_append (c : UInt8) (s : List UInt8) :
    decode (escape c ++ s) = (decode s).map fun v => c :: v := by
  rw [escape]
  split_ifs with hc
  · have hne : c ≠ percent := by
      rintro rfl
      rw [isUnreserved_percent] at hc
      cases hc
    rw [List.singleton_append, decode.eq_def]
    exact if_neg hne
  · have hlt := c.toNat_lt
    have hvalue : 16 * (c.toNat / 16) + c.toNat % 16 = c.toNat := Nat.div_add_mod _ _
    simp only [List.cons_append, List.nil_append, decode, if_true,
      hexValue_hexDigit (show c.toNat / 16 < 16 by omega),
      hexValue_hexDigit (show c.toNat % 16 < 16 by omega), hvalue, UInt8.ofNat_toNat]

/-- **The round trip.** -/
theorem decode_encode_text (v : List UInt8) : decode (encode v) = some v := by
  induction v with
  | nil => rfl
  | cons c v ih =>
    rw [encode_cons, decode_escape_append, ih, Option.map_some]

theorem encode_injective : Function.Injective encode := by
  intro v w h
  have hdecode := congrArg decode h
  rw [decode_encode_text, decode_encode_text] at hdecode
  exact Option.some.inj hdecode

theorem encoded_encode (v : List UInt8) : Encoded (encode v) := by
  induction v with
  | nil => exact Encoded.nil
  | cons c v ih =>
    rw [encode_cons, escape]
    have hlt := c.toNat_lt
    split_ifs with hc
    · exact Encoded.unreserved hc ih
    · exact Encoded.escape (isSome_hexValue_hexDigit (by omega))
        (isSome_hexValue_hexDigit (by omega)) ih

/-- No other byte stands in an encoded text. -/
theorem Encoded.notMem {s : List UInt8} (h : Encoded s) {b : UInt8} (hb : b ≠ percent)
    (hunreserved : isUnreserved b = false) (hdigit : hexValue b = none) : b ∉ s := by
  induction h with
  | nil => exact List.not_mem_nil
  | unreserved hc hs ih =>
    rw [List.mem_cons, not_or]
    refine ⟨?_, ih⟩
    rintro rfl
    rw [hunreserved] at hc
    cases hc
  | escape hh hl hs ih =>
    simp only [List.mem_cons, not_or]
    refine ⟨hb, ?_, ?_, ih⟩
    · rintro rfl
      rw [hdigit] at hh
      cases hh
    · rintro rfl
      rw [hdigit] at hl
      cases hl

end Percent
