import Mathlib.Logic.Function.Basic
import Mathlib.Data.Nat.Bitwise

/-!
# `util/bitset.h`: bit sets

A `bitset` of size `n` owns `n` bytes, eight times as many as it needs. The byte of a bit is found
with an `int`, so an index from `2 ^ 31` on reaches memory outside the allocation: `bits` is the
whole memory relative to `m_bits`, of which the bitset owns the cells `[0, size)`.

* `construct`, `test`, `set`, `clear`, `count`;
* `test_set`, `test_clear`: two indices share a bit exactly if they agree modulo `2 ^ 32`.
-/

namespace CTorrent

/-- A bit set: the memory around `m_bits` and the number of bytes that were allocated. -/
structure Bitset where
  bits : ℤ → UInt8
  size : ℕ

namespace Bitset

/-- `1 << (i & 7)`. -/
def mask (i : ℕ) : UInt8 := 1 <<< UInt8.ofNat (i % 8)

/-- The conversion of a `size_t` to `int`. -/
def toInt32 (i : ℕ) : ℤ :=
  if i % 2 ^ 32 < 2 ^ 31 then (i % 2 ^ 32 : ℕ) else (i % 2 ^ 32 : ℕ) - 2 ^ 32

/-- The position of `bitsAt(i)`: `i` is converted to `int` and shifted. -/
def cell (i : ℕ) : ℤ := toInt32 i / 8

/-- `construct`: zero bytes in the allocation; `heap` is what the memory around it holds. -/
def construct (heap : ℤ → UInt8) (size : ℕ) : Bitset :=
  ⟨fun k => if 0 ≤ k ∧ k < size then 0 else heap k, size⟩

variable (b : Bitset) (i : ℕ)

/-- `bitsAt`. -/
def bitsAt : UInt8 := b.bits (cell i)

/-- The assignment `bitsAt(i) = v`. -/
def store (v : UInt8) : Bitset := { b with bits := Function.update b.bits (cell i) v }

/-- `test`. -/
def test : Bool := (b.bitsAt i &&& mask i) != 0

/-- `set(i)`. -/
def set : Bitset := b.store i (b.bitsAt i ||| mask i)

/-- `clear`. -/
def clear : Bitset := b.store i (b.bitsAt i &&& ~~~mask i)

/-- `popcnt`. -/
def popcnt (v : UInt64) : ℕ :=
  let ones : UInt64 := 0x5555555555555555
  let pairs : UInt64 := 0x3333333333333333
  let nibbles : UInt64 := 0x0F0F0F0F0F0F0F0F
  let bytes : UInt64 := 0x0101010101010101
  let v := v - ((v >>> 1) &&& ones)
  let v := (v &&& pairs) + ((v >>> 2) &&& pairs)
  ((((v + (v >>> 4)) &&& nibbles) * bytes) >>> 56).toNat

/-- The little-endian word of `n` bytes at `src`. -/
def word (src n : ℕ) : UInt64 :=
  UInt64.ofNat ((List.range n).foldr (fun k w => (b.bits (src + k : ℕ)).toNat + 256 * w) 0)

/-- The loop of `count` over the words of eight bytes, from `src` on: the position and the number of
bits at its end. Each pass moves on by eight, so that the fuel `size / 8 + 1` suffices. -/
def countLoop : ℕ → ℕ → ℕ → ℕ × ℕ
  | 0, src, set => (src, set)
  | fuel + 1, src, set =>
      if src + 7 ≤ b.size then countLoop fuel (src + 8) (set + popcnt (b.word src 8))
      else (src, set)

/-- `count`. -/
def count : ℕ :=
  let (src, set) := b.countLoop (b.size / 8 + 1) 0 0
  let (src, set) := if src + 3 ≤ b.size then (src + 4, set + popcnt (b.word src 4)) else (src, set)
  let (src, set) := if src + 1 ≤ b.size then (src + 2, set + popcnt (b.word src 2)) else (src, set)
  if src < b.size then set + popcnt (b.word src 1) else set

@[simp] theorem size_set : (b.set i).size = b.size := rfl
@[simp] theorem size_construct (heap : ℤ → UInt8) (n : ℕ) : (construct heap n).size = n := rfl

/-! ### The bits of a byte -/

theorem and_mask_ne_zero (x : UInt8) (i : ℕ) :
    ((x &&& mask i) != 0) = x.toNat.testBit (i % 8) := by
  have h : ∀ (x : Fin 256) (k : Fin 8), ((UInt8.ofBitVec ⟨x⟩ &&&
      (1 <<< UInt8.ofNat k.val)) != 0) = x.val.testBit k.val := by decide +kernel
  obtain ⟨⟨x⟩⟩ := x
  exact h x ⟨i % 8, Nat.mod_lt _ (by decide)⟩

theorem toNat_mask (i : ℕ) : (mask i).toNat = 2 ^ (i % 8) := by
  have h : ∀ k : Fin 8, ((1 : UInt8) <<< UInt8.ofNat k.val).toNat = 2 ^ k.val := by decide
  exact h ⟨i % 8, Nat.mod_lt _ (by decide)⟩

theorem testBit_not_mask (i j : ℕ) :
    (~~~mask i).toNat.testBit (j % 8) = decide (i % 8 ≠ j % 8) := by
  have h : ∀ k l : Fin 8, (~~~((1 : UInt8) <<< UInt8.ofNat k.val)).toNat.testBit l.val =
      decide (k.val ≠ l.val) := by decide
  exact h ⟨i % 8, Nat.mod_lt _ (by decide)⟩ ⟨j % 8, Nat.mod_lt _ (by decide)⟩

theorem test_eq : b.test i = (b.bitsAt i).toNat.testBit (i % 8) := and_mask_ne_zero _ _

/-- Two indices have the same byte and the same mask exactly if they agree modulo `2 ^ 32`. -/
theorem cell_eq_iff {i j : ℕ} :
    cell j = cell i ∧ i % 8 = j % 8 ↔ i % 2 ^ 32 = j % 2 ^ 32 := by
  rw [cell, cell, toInt32, toInt32]
  split_ifs <;> omega

theorem cell_of_lt {i : ℕ} (h : i < 2 ^ 31) : cell i = i / 8 := by
  rw [cell, toInt32, if_pos (by omega)]
  omega

/-! ### Reading after writing -/

theorem bitsAt_store (v : UInt8) (j : ℕ) :
    (b.store i v).bitsAt j = if cell j = cell i then v else b.bitsAt j := by
  simp only [bitsAt, store, Function.update_apply]

theorem test_set (j : ℕ) :
    (b.set i).test j = (decide (i % 2 ^ 32 = j % 2 ^ 32) || b.test j) := by
  simp only [test_eq, set, bitsAt_store, ← cell_eq_iff]
  by_cases h : cell j = cell i
  · have hb : b.bitsAt i = b.bitsAt j := by rw [bitsAt, bitsAt, h]
    simp [h, hb, toNat_mask, Nat.testBit_two_pow, Bool.or_comm]
  · simp [h]

theorem test_clear (j : ℕ) :
    (b.clear i).test j = (!decide (i % 2 ^ 32 = j % 2 ^ 32) && b.test j) := by
  simp only [test_eq, clear, bitsAt_store, ← cell_eq_iff]
  by_cases h : cell j = cell i
  · have hb : b.bitsAt i = b.bitsAt j := by rw [bitsAt, bitsAt, h]
    simp only [h, hb, if_true, true_and, UInt8.toNat_and, Nat.testBit_and, testBit_not_mask]
    rw [Bool.and_comm, ← decide_not]
  · simp [h]

/-- A new bit set has no bit in the bytes that it allocates. -/
theorem test_construct_of_div (heap : ℤ → UInt8) {n i : ℕ} (hi : i / 8 < n) (h31 : i < 2 ^ 31) :
    (construct heap n).test i = false := by
  have hcell : 0 ≤ cell i ∧ cell i < n := by
    rw [cell_of_lt h31]
    omega
  simp only [test_eq, bitsAt, construct, if_pos hcell]
  simp

theorem test_construct (heap : ℤ → UInt8) {n i : ℕ} (hi : i < n) (h31 : i < 2 ^ 31) :
    (construct heap n).test i = false :=
  test_construct_of_div heap (by omega) h31

/-- With zeros all around, a new bit set has no bit at all. -/
theorem test_construct_zero (n i : ℕ) : (construct (fun _ => 0) n).test i = false := by
  simp [test_eq, bitsAt, construct]

/-- Two indices of the same group of eight have the same byte. -/
theorem cell_of_div_eq {i j : ℕ} (h : i / 8 = j / 8) : cell i = cell j := by
  rw [cell, cell, toInt32, toInt32]
  split_ifs <;> omega

/-- A bit of the byte of `i` is the bit of another index of its group. -/
theorem testBit_bitsAt {k : ℕ} (hk : k < 8) :
    (b.bitsAt i).toNat.testBit k = b.test (i / 8 * 8 + k) := by
  have hcell : cell (i / 8 * 8 + k) = cell i := cell_of_div_eq (by omega)
  rw [test_eq, bitsAt, bitsAt, hcell, show (i / 8 * 8 + k) % 8 = k by omega]

/-- A loop each pass of which sets bits, as described by `Q`. -/
theorem test_foldl {α : Type} {g : Bitset → α → Bitset} {Q : α → Prop} {j : ℕ}
    (hg : ∀ b a, (g b a).test j = true ↔ Q a ∨ b.test j = true) (l : List α) (b : Bitset) :
    (l.foldl g b).test j = true ↔ (∃ a ∈ l, Q a) ∨ b.test j = true := by
  induction l generalizing b with
  | nil => simp
  | cons a l ih =>
    rw [List.foldl_cons, ih, hg, ← or_assoc, or_comm (b := Q a)]
    simp only [List.mem_cons, exists_eq_or_imp]

theorem test_foldl_set (l : List ℕ) (j : ℕ) :
    (l.foldl set b).test j = true ↔ (∃ i ∈ l, i % 2 ^ 32 = j % 2 ^ 32) ∨ b.test j = true :=
  test_foldl (fun b i => by rw [test_set, Bool.or_eq_true, decide_eq_true_iff]) l b

theorem size_foldl_set (l : List ℕ) : (l.foldl set b).size = b.size := by
  induction l generalizing b with
  | nil => rfl
  | cons i l ih => rw [List.foldl_cons, ih, size_set]

end Bitset

end CTorrent
