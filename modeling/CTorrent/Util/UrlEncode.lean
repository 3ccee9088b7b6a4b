import CTorrent.Bencode.Value
import CTorrent.Lib.Percent
import Mathlib.Data.Nat.Digits.Lemmas

/-!
# `util/auxiliar.cpp`: `urlencode`

`urlencode` writes into a stream whose flags are set before: a byte is put as it is, or as a number
for which the width is set to two. The width is that of the next output only.

* `OStringStream`, `put`, `putChar`, `putInt`: the stream;
* `urlencode`, `urlencode_eq`: it is percent-encoding.
-/

namespace CTorrent

/-- `std::ostringstream`: its text, and the state that output depends on. -/
structure OStringStream where
  text : Bytes := []
  fill : UInt8 := ch ' '
  width : ℕ := 0
  hex : Bool := false
  uppercase : Bool := false

namespace OStringStream

variable (os : OStringStream)

/-- Output is filled up on the left to the width, which is zero behind it. -/
def put (s : Bytes) : OStringStream :=
  { os with text := os.text ++ (List.replicate (os.width - s.length) os.fill ++ s), width := 0 }

/-- `os << c`. -/
def putChar (c : UInt8) : OStringStream := os.put [c]

/-- The character of a digit. -/
def digit (d : ℕ) : UInt8 :=
  UInt8.ofNat (if d < 10 then 48 + d else if os.uppercase then 55 + d else 87 + d)

/-- The digits of a number that is not negative. -/
def digits (n : ℕ) : Bytes :=
  if n = 0 then [ch '0']
  else ((Nat.digits (if os.hex then 16 else 10) n).map os.digit).reverse

/-- `os << n`. -/
def putInt (n : ℕ) : OStringStream := os.put (os.digits n)

/-- `os << std::setw(n)`. -/
def setw (n : ℕ) : OStringStream := { os with width := n }

end OStringStream

/-- `isalnum` in the C locale; a byte from 128 on is a negative `char`. -/
def isalnum (c : UInt8) : Bool :=
  (48 ≤ c.toNat && c.toNat ≤ 57) || (65 ≤ c.toNat && c.toNat ≤ 90) ||
    (97 ≤ c.toNat && c.toNat ≤ 122)

/-- A pass of the loop of `urlencode`. -/
def urlencodeByte (escaped : OStringStream) (c : UInt8) : OStringStream :=
  if isalnum c || c == ch '-' || c == ch '_' || c == ch '.' || c == ch '~' then escaped.putChar c
  else ((escaped.putChar (ch '%')).setw 2).putInt c.toNat

/-- `urlencode`. -/
def urlencode (value : Bytes) : Bytes :=
  (value.foldl urlencodeByte { fill := ch '0', hex := true, uppercase := true }).text

/-- The stream of `urlencode`, with a text. -/
def escapedStream (text : Bytes) : OStringStream :=
  { text := text, fill := ch '0', hex := true, uppercase := true }

/-- A byte below 16 has one digit, any other one two. -/
theorem digits_escapedStream {n : ℕ} (h : n < 256) (text : Bytes) :
    List.replicate (2 - ((escapedStream text).digits n).length) (ch '0') ++
      (escapedStream text).digits n = [Percent.hexDigit (n / 16), Percent.hexDigit (n % 16)] := by
  have hdigit : (escapedStream text).digit = Percent.hexDigit := rfl
  have hhex : (escapedStream text).hex = true := rfl
  rw [OStringStream.digits, hdigit, hhex, if_pos rfl]
  by_cases h0 : n = 0
  · subst h0
    rfl
  · rw [if_neg h0]
    by_cases h16 : n < 16
    · rw [Nat.digits_of_lt 16 n h0 h16, Nat.div_eq_of_lt h16, Nat.mod_eq_of_lt h16]
      rfl
    · rw [Nat.digits_def' (by decide) (Nat.pos_of_ne_zero h0),
        Nat.digits_of_lt 16 (n / 16) (by omega) (by omega)]
      rfl

/-- A pass appends the encoded byte, and leaves the flags and the width as they were. -/
theorem urlencodeByte_escapedStream (text : Bytes) (c : UInt8) :
    urlencodeByte (escapedStream text) c = escapedStream (text ++ Percent.escape c) := by
  have hunreserved : (isalnum c || c == ch '-' || c == ch '_' || c == ch '.' || c == ch '~') =
      Percent.isUnreserved c := by
    rw [isalnum, Percent.isUnreserved, Bool.eq_iff_iff]
    simp only [Bool.or_eq_true]
    tauto
  rw [urlencodeByte, hunreserved, Percent.escape]
  split_ifs with hc
  · simp [OStringStream.putChar, OStringStream.put, escapedStream]
  · have hput : ((escapedStream text).putChar (ch '%')).setw 2 =
        { escapedStream (text ++ [ch '%']) with width := 2 } := by
      simp [OStringStream.putChar, OStringStream.put, OStringStream.setw, escapedStream]
    have hdigits := digits_escapedStream c.toNat_lt (text ++ [ch '%'])
    have hnumber : ({ escapedStream (text ++ [ch '%']) with width := 2 } : OStringStream).putInt
        c.toNat = escapedStream (text ++ [ch '%'] ++
          (List.replicate (2 - ((escapedStream (text ++ [ch '%'])).digits c.toNat).length) (ch '0') ++
            (escapedStream (text ++ [ch '%'])).digits c.toNat)) := rfl
    rw [hput, hnumber, hdigits, List.append_assoc]
    rfl

/-- **`urlencode` is percent-encoding.** -/
theorem urlencode_eq (value : Bytes) : urlencode value = Percent.encode value := by
  suffices h : ∀ text : Bytes, value.foldl urlencodeByte (escapedStream text) =
      escapedStream (text ++ Percent.encode value) from
    congrArg OStringStream.text (h [])
  induction value with
  | nil =>
    intro text
    rw [Percent.encode_nil, List.append_nil]
    rfl
  | cons c value ih =>
    intro text
    rw [List.foldl_cons, urlencodeByte_escapedStream, ih, Percent.encode_cons, List.append_assoc]

theorem urlencode_injective : Function.Injective urlencode := by
  have heq : urlencode = Percent.encode := funext urlencode_eq
  rw [heq]
  exact Percent.encode_injective

-- the line feed has one digit, and is filled up
example : urlencode [97, 10, 255] = [97, 37, 48, 65, 37, 70, 70] := by decide +kernel

end CTorrent
