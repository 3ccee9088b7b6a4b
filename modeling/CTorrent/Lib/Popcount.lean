import Mathlib.Algebra.BigOperators.Group.List.Basic
import Mathlib.Data.Nat.Bitwise
import Mathlib.Tactic.Ring

/-!
# Counting the bits of a word

A word is a little-endian list of bytes. Each of the three steps with shifts and masks acts on every
byte by itself, and the multiplication by `0x0101010101010101` adds the bytes up in the highest one.

* `ofBytes`: the number with the given bytes;
* `pairs`, `nibbles`, `sums`: the steps;
* `bitCount`: the number of bits of a byte;
* `weight_eq`: what the steps and the multiplication compute.
-/

namespace Popcount

/-- The number with the given bytes, the lowest first. -/
def ofBytes (bs : List ℕ) : ℕ := bs.foldr (fun b w => b + 256 * w) 0

/-- Each field of two bits becomes the number of its bits. -/
def pairs (mask w : ℕ) : ℕ := w - (w >>> 1 &&& mask)

/-- Each field of four bits becomes the sum of its two fields. -/
def nibbles (mask w : ℕ) : ℕ := (w &&& mask) + (w >>> 2 &&& mask)

/-- Each byte becomes the sum of its two fields. -/
def sums (mask w : ℕ) : ℕ := w + w >>> 4 &&& mask

/-- The number of bits of a byte. -/
def bitCount (b : ℕ) : ℕ := (List.range 8).countP fun i => b.testBit i

/-- A mask with the same byte throughout. -/
def mask (m : ℕ) (bs : List ℕ) : ℕ := ofBytes (bs.map fun _ => m)

@[simp] theorem ofBytes_nil : ofBytes [] = 0 := rfl

@[simp] theorem ofBytes_cons (b : ℕ) (bs : List ℕ) : ofBytes (b :: bs) = b + 256 * ofBytes bs := rfl

@[simp] theorem mask_cons (m b : ℕ) (bs : List ℕ) : mask m (b :: bs) = m + 256 * mask m bs := rfl

/-! ### One byte and the rest -/

theorem testBit_cons {a : ℕ} (n i : ℕ) (ha : a < 256) :
    (a + 256 * n).testBit i = if i < 8 then a.testBit i else n.testBit (i - 8) := by
  rw [Nat.add_comm]
  exact Nat.testBit_two_pow_mul_add n (i := 8) ha i

/-- A mask that clears what a shift moves in from the next byte. -/
theorem shift_and {a m s : ℕ} (n M : ℕ) (ha : a < 256) (hm : m < 2 ^ (8 - s)) (hs : s ≤ 8) :
    (a + 256 * n) >>> s &&& (m + 256 * M) = (a >>> s &&& m) + 256 * (n >>> s &&& M) := by
  have hm256 : m < 256 := lt_of_lt_of_le hm (Nat.pow_le_pow_right (by decide) (Nat.sub_le 8 s))
  have hand : a >>> s &&& m < 256 := lt_of_le_of_lt Nat.and_le_right hm256
  apply Nat.eq_of_testBit_eq
  intro i
  rw [Nat.testBit_and, Nat.testBit_shiftRight, testBit_cons n (s + i) ha, testBit_cons M i hm256,
    testBit_cons _ i hand, Nat.testBit_and, Nat.testBit_and, Nat.testBit_shiftRight,
    Nat.testBit_shiftRight]
  by_cases hi : i < 8
  · rw [if_pos hi, if_pos hi]
    by_cases hsi : s + i < 8
    · rw [if_pos hsi]
    · have hclear : m.testBit i = false :=
        Nat.testBit_lt_two_pow (lt_of_lt_of_le hm (Nat.pow_le_pow_right (by decide) (by omega)))
      rw [hclear, Bool.and_false, Bool.and_false]
  · rw [if_neg hi, if_neg hi, if_neg (by omega), show s + i - 8 = s + (i - 8) by omega]

/-! ### The steps, byte by byte -/

theorem pairs_ofBytes {bs : List ℕ} (h : ∀ b ∈ bs, b < 256) :
    pairs (mask 0x55 bs) (ofBytes bs) = ofBytes (bs.map (pairs 0x55)) := by
  induction bs with
  | nil => rfl
  | cons b bs ih =>
    have hrest := ih fun b' hb' => h b' (List.mem_cons_of_mem b hb')
    have hle : ofBytes bs >>> 1 &&& mask 0x55 bs ≤ ofBytes bs := by
      refine le_trans Nat.and_le_left ?_
      rw [Nat.shiftRight_eq_div_pow]
      exact Nat.div_le_self _ _
    have hle' : b >>> 1 &&& 0x55 ≤ b := by
      refine le_trans Nat.and_le_left ?_
      rw [Nat.shiftRight_eq_div_pow]
      exact Nat.div_le_self _ _
    rw [List.map_cons, ofBytes_cons, ofBytes_cons, mask_cons, pairs,
      shift_and _ _ (h b List.mem_cons_self) (by decide) (by decide), ← hrest, pairs, pairs]
    omega

theorem nibbles_ofBytes {bs : List ℕ} (h : ∀ b ∈ bs, b < 256) :
    nibbles (mask 0x33 bs) (ofBytes bs) = ofBytes (bs.map (nibbles 0x33)) := by
  induction bs with
  | nil => rfl
  | cons b bs ih =>
    have hrest := ih fun b' hb' => h b' (List.mem_cons_of_mem b hb')
    have hb := h b List.mem_cons_self
    have hand := shift_and (ofBytes bs) (mask 0x33 bs) hb (m := 0x33) (s := 0) (by decide) (by decide)
    rw [Nat.shiftRight_zero, Nat.shiftRight_zero, Nat.shiftRight_zero] at hand
    rw [List.map_cons, ofBytes_cons, ofBytes_cons, mask_cons, nibbles, hand,
      shift_and _ _ hb (by decide) (by decide), ← hrest, nibbles, nibbles]
    omega

/-- Both fields of the byte are small enough to be added. -/
def Small (b : ℕ) : Prop := b % 16 ≤ 4 ∧ b / 16 ≤ 4

theorem sums_ofBytes {bs : List ℕ} (h : ∀ b ∈ bs, Small b) :
    sums (mask 0x0F bs) (ofBytes bs) = ofBytes (bs.map (sums 0x0F)) := by
  induction bs with
  | nil => rfl
  | cons b bs ih =>
    have hrest := ih fun b' hb' => h b' (List.mem_cons_of_mem b hb')
    obtain ⟨hlow, hhigh⟩ := h b List.mem_cons_self
    have hnext : ofBytes bs % 16 ≤ 4 := by
      cases bs with
      | nil => decide
      | cons b' bs =>
        have hlow' := (h b' (by simp)).1
        rw [ofBytes_cons]
        omega
    rw [List.map_cons, ofBytes_cons, ofBytes_cons, mask_cons, ← hrest]
    simp only [sums, Nat.shiftRight_eq_div_pow]
    -- the low field of the next byte comes in above the sum, and is masked
    have hsum : b + 256 * ofBytes bs + (b + 256 * ofBytes bs) / 2 ^ 4 =
        (b + b / 2 ^ 4 + 16 * (ofBytes bs % 16)) + 256 * (ofBytes bs + ofBytes bs / 2 ^ 4) := by
      omega
    have hlt : b + b / 2 ^ 4 + 16 * (ofBytes bs % 16) < 256 := by omega
    have hand := shift_and (ofBytes bs + ofBytes bs / 2 ^ 4) (mask 0x0F bs) hlt (m := 0x0F) (s := 0)
      (by decide) (by decide)
    rw [Nat.shiftRight_zero, Nat.shiftRight_zero, Nat.shiftRight_zero] at hand
    rw [hsum, hand]
    have hmask : ∀ x : ℕ, x &&& 0x0F = x % 16 := fun x => Nat.and_two_pow_sub_one_eq_mod x 4
    rw [hmask, hmask]
    omega

/-- What the steps make of a byte. -/
theorem bitCount_eq {b : ℕ} (hb : b < 256) :
    pairs 0x55 b < 256 ∧ Small (nibbles 0x33 (pairs 0x55 b)) ∧
      sums 0x0F (nibbles 0x33 (pairs 0x55 b)) = bitCount b ∧ bitCount b ≤ 8 := by
  have h : ∀ b : Fin 256, pairs 0x55 b < 256 ∧ (nibbles 0x33 (pairs 0x55 b) % 16 ≤ 4 ∧
      nibbles 0x33 (pairs 0x55 b) / 16 ≤ 4) ∧
      sums 0x0F (nibbles 0x33 (pairs 0x55 b)) = bitCount b ∧ bitCount b ≤ 8 := by decide +kernel
  exact h ⟨b, hb⟩

theorem mask_map (m : ℕ) (f : ℕ → ℕ) (bs : List ℕ) : mask m (bs.map f) = mask m bs := by
  rw [mask, mask, List.map_map]
  rfl

/-- The multiplication adds up eight bytes. -/
theorem mul_ones {cs : List ℕ} (hlen : cs.length = 8) (h : ∀ c ∈ cs, c ≤ 8) :
    ofBytes cs * 0x0101010101010101 % 2 ^ 64 / 2 ^ 56 = cs.sum := by
  match cs, hlen with
  | [c₀, c₁, c₂, c₃, c₄, c₅, c₆, c₇], _ =>
    simp only [List.mem_cons, List.not_mem_nil, or_false, forall_eq_or_imp, forall_eq] at h
    -- the product, cut below and above its eighth byte
    have hprod : ofBytes [c₀, c₁, c₂, c₃, c₄, c₅, c₆, c₇] * 0x0101010101010101 =
        (c₀ + 256 * (c₀ + c₁) + 256 ^ 2 * (c₀ + c₁ + c₂) + 256 ^ 3 * (c₀ + c₁ + c₂ + c₃) +
          256 ^ 4 * (c₀ + c₁ + c₂ + c₃ + c₄) + 256 ^ 5 * (c₀ + c₁ + c₂ + c₃ + c₄ + c₅) +
          256 ^ 6 * (c₀ + c₁ + c₂ + c₃ + c₄ + c₅ + c₆)) +
        2 ^ 56 * [c₀, c₁, c₂, c₃, c₄, c₅, c₆, c₇].sum +
        2 ^ 64 * (c₁ + c₂ + c₃ + c₄ + c₅ + c₆ + c₇ + 256 * (c₂ + c₃ + c₄ + c₅ + c₆ + c₇) +
          256 ^ 2 * (c₃ + c₄ + c₅ + c₆ + c₇) + 256 ^ 3 * (c₄ + c₅ + c₆ + c₇) +
          256 ^ 4 * (c₅ + c₆ + c₇) + 256 ^ 5 * (c₆ + c₇) + 256 ^ 6 * c₇) := by
      simp only [ofBytes_cons, ofBytes_nil, List.sum_cons, List.sum_nil]
      ring
    have hsum : [c₀, c₁, c₂, c₃, c₄, c₅, c₆, c₇].sum < 256 := by
      simp only [List.sum_cons, List.sum_nil]
      omega
    have hlow : c₀ + 256 * (c₀ + c₁) + 256 ^ 2 * (c₀ + c₁ + c₂) + 256 ^ 3 * (c₀ + c₁ + c₂ + c₃) +
        256 ^ 4 * (c₀ + c₁ + c₂ + c₃ + c₄) + 256 ^ 5 * (c₀ + c₁ + c₂ + c₃ + c₄ + c₅) +
        256 ^ 6 * (c₀ + c₁ + c₂ + c₃ + c₄ + c₅ + c₆) < 2 ^ 56 := by omega
    rw [hprod, Nat.add_mul_mod_self_left, Nat.mod_eq_of_lt (by omega),
      Nat.add_mul_div_left _ _ (by decide), Nat.div_eq_of_lt hlow, Nat.zero_add]

/-- **The number of bits of eight bytes.** -/
theorem weight_eq {bs : List ℕ} (hlen : bs.length = 8) (h : ∀ b ∈ bs, b < 256) :
    sums (mask 0x0F bs) (nibbles (mask 0x33 bs) (pairs (mask 0x55 bs) (ofBytes bs))) *
        0x0101010101010101 % 2 ^ 64 / 2 ^ 56 = (bs.map bitCount).sum := by
  set bs₁ := bs.map (pairs 0x55) with hbs₁
  set bs₂ := bs₁.map (nibbles 0x33) with hbs₂
  have h₁ : ∀ b ∈ bs₁, b < 256 := by
    intro b hb
    obtain ⟨a, ha, rfl⟩ := List.mem_map.1 hb
    exact (bitCount_eq (h a ha)).1
  have h₂ : ∀ b ∈ bs₂, Small b := by
    intro b hb
    obtain ⟨a₁, ha₁, rfl⟩ := List.mem_map.1 hb
    obtain ⟨a, ha, rfl⟩ := List.mem_map.1 ha₁
    exact (bitCount_eq (h a ha)).2.1
  have hcounts : bs₂.map (sums 0x0F) = bs.map bitCount := by
    rw [hbs₂, hbs₁, List.map_map, List.map_map]
    exact List.map_congr_left fun b hb => (bitCount_eq (h b hb)).2.2.1
  have hle : ∀ c ∈ bs.map bitCount, c ≤ 8 := by
    intro c hc
    obtain ⟨b, hb, rfl⟩ := List.mem_map.1 hc
    exact (bitCount_eq (h b hb)).2.2.2
  rw [pairs_ofBytes h, ← hbs₁, ← mask_map 0x33 (pairs 0x55) bs, ← hbs₁, nibbles_ofBytes h₁, ← hbs₂,
    ← mask_map 0x0F (pairs 0x55) bs, ← hbs₁, ← mask_map 0x0F (nibbles 0x33) bs₁, ← hbs₂,
    sums_ofBytes h₂, hcounts]
  exact mul_ones (by rw [List.length_map, hlen]) hle

end Popcount
