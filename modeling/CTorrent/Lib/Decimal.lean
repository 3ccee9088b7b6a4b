import Mathlib.Data.Nat.Digits.Lemmas
import Mathlib.Data.List.Basic

/-!
# Decimal text

`text n` is the shortest decimal text of `n` as ASCII bytes, `value` the number a text of digits
stands for.

* `value_text`: the text determines the number;
* `isDigit_of_mem_text`, `text_ne_nil`: a text is a non-empty list of digits.
-/

namespace Decimal

/-- An ASCII digit. -/
def isDigit (b : UInt8) : Bool := 48 ≤ b.toNat && b.toNat ≤ 57

/-- The ASCII byte of a digit. -/
def digit (d : ℕ) : UInt8 := UInt8.ofNat (48 + d)

/-- The shortest decimal text of `n`, most significant digit first. -/
def text (n : ℕ) : List UInt8 :=
  if n = 0 then [48] else ((Nat.digits 10 n).map digit).reverse

/-- The number a text of digits stands for. -/
def value (l : List UInt8) : ℕ := l.foldl (fun v b => 10 * v + (b.toNat - 48)) 0

theorem toNat_digit {d : ℕ} (h : d < 10) : (digit d).toNat = 48 + d := by
  simp [digit]; omega

theorem isDigit_digit {d : ℕ} (h : d < 10) : isDigit (digit d) = true := by
  simp [isDigit, toNat_digit h]; omega

theorem text_ne_nil (n : ℕ) : text n ≠ [] := by
  unfold text
  split_ifs with h
  · simp
  · simpa using Nat.digits_ne_nil_iff_ne_zero.2 h

theorem isDigit_of_mem_text {n : ℕ} {b : UInt8} (h : b ∈ text n) : isDigit b = true := by
  unfold text at h
  split_ifs at h with h0
  · rw [List.mem_singleton] at h
    subst h
    decide
  · obtain ⟨d, hd, rfl⟩ := List.mem_map.1 (List.mem_reverse.1 h)
    exact isDigit_digit (Nat.digits_lt_base (by omega) hd)

/-- The digits of a list, least significant first, have the value `Nat.ofDigits` gives them. -/
theorem value_reverse_map_digit (l : List ℕ) (h : ∀ d ∈ l, d < 10) :
    value (l.map digit).reverse = Nat.ofDigits 10 l := by
  rw [value, List.foldl_reverse]
  induction l with
  | nil => rfl
  | cons d l ih =>
    rw [List.map_cons, List.foldr_cons, ih fun x hx => h x (List.mem_cons_of_mem d hx),
      toNat_digit (h d List.mem_cons_self), Nat.ofDigits_cons]
    omega

@[simp] theorem value_text (n : ℕ) : value (text n) = n := by
  unfold text
  split_ifs with h
  · subst h
    rfl
  · rw [value_reverse_map_digit _ fun d hd => Nat.digits_lt_base (by omega) hd,
      Nat.ofDigits_digits]

/-- The first byte of a text is a digit. -/
theorem exists_cons_text (n : ℕ) :
    ∃ b l, text n = b :: l ∧ isDigit b = true := by
  cases h : text n with
  | nil => exact absurd h (text_ne_nil n)
  | cons b l => exact ⟨b, l, rfl, isDigit_of_mem_text (h ▸ List.mem_cons_self)⟩

end Decimal
