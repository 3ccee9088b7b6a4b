import CTorrent.Lib.Popcount
import CTorrent.Util.Bitset

/-!
# What `count` counts

`popcnt` is the number of bits of a word. The words of `count` cover the bytes that were allocated,
and one byte more where their number is odd.

* `popcnt_ofBytes`: the bits of up to eight bytes;
* `weight`, `count_eq`: the bits of the first bytes, and how far `count` goes;
* `test_eq_false_of_count`: where the count is zero, no bit is set.
-/

namespace CTorrent

namespace Bitset

open Popcount

/-! ### The bits of a word -/

theorem ofBytes_append_zeros (bs : List ℕ) (k : ℕ) :
    ofBytes (bs ++ List.replicate k 0) = ofBytes bs := by
  induction bs with
  | nil =>
    induction k with
    | zero => rfl
    | succ k ih =>
      rw [List.nil_append] at ih ⊢
      rw [List.replicate_succ, ofBytes_cons, ih]
      rfl
  | cons b bs ih => rw [List.cons_append, ofBytes_cons, ih, ofBytes_cons]

theorem ofBytes_lt {bs : List ℕ} (h : ∀ b ∈ bs, b < 256) : ofBytes bs < 256 ^ bs.length := by
  induction bs with
  | nil => decide
  | cons b bs ih =>
    have hrest := ih fun b' hb' => h b' (List.mem_cons_of_mem b hb')
    have hb := h b List.mem_cons_self
    rw [ofBytes_cons, List.length_cons, Nat.pow_succ]
    omega

/-- The steps of `popcnt` do not overflow. -/
theorem popcnt_eq (v : UInt64) : popcnt v =
    sums 0x0F0F0F0F0F0F0F0F (nibbles 0x3333333333333333 (pairs 0x5555555555555555 v.toNat)) *
      0x0101010101010101 % 2 ^ 64 / 2 ^ 56 := by
  unfold popcnt
  simp only
  set v₁ : UInt64 := v - ((v >>> 1) &&& 0x5555555555555555) with hv₁
  set v₂ : UInt64 := (v₁ &&& (0x3333333333333333 : UInt64)) +
    ((v₁ >>> 2) &&& (0x3333333333333333 : UInt64)) with hv₂
  have h₁ : v₁.toNat = pairs 0x5555555555555555 v.toNat := by
    have hle : (v >>> 1) &&& 0x5555555555555555 ≤ v := by
      rw [UInt64.le_iff_toNat_le, UInt64.toNat_and, UInt64.toNat_shiftRight,
        Nat.shiftRight_eq_div_pow]
      exact le_trans Nat.and_le_left (Nat.div_le_self _ _)
    rw [hv₁, UInt64.toNat_sub_of_le _ _ hle, UInt64.toNat_and, UInt64.toNat_shiftRight]
    rfl
  have h₂ : v₂.toNat = nibbles 0x3333333333333333 v₁.toNat := by
    have hlow : v₁.toNat &&& 0x3333333333333333 ≤ 0x3333333333333333 := Nat.and_le_right
    have hhigh : v₁.toNat >>> 2 &&& 0x3333333333333333 ≤ 0x3333333333333333 := Nat.and_le_right
    rw [hv₂, UInt64.toNat_add, UInt64.toNat_and, UInt64.toNat_and, UInt64.toNat_shiftRight]
    exact Nat.mod_eq_of_lt (lt_of_le_of_lt (Nat.add_le_add hlow hhigh) (by decide))
  have hle₂ : v₂.toNat ≤ 2 * 0x3333333333333333 := by
    have hlow : v₁.toNat &&& 0x3333333333333333 ≤ 0x3333333333333333 := Nat.and_le_right
    have hhigh : v₁.toNat >>> 2 &&& 0x3333333333333333 ≤ 0x3333333333333333 := Nat.and_le_right
    rw [h₂, nibbles]
    omega
  have h₃ : ((v₂ + (v₂ >>> 4)) &&& 0x0F0F0F0F0F0F0F0F).toNat = sums 0x0F0F0F0F0F0F0F0F v₂.toNat := by
    rw [UInt64.toNat_and, UInt64.toNat_add, UInt64.toNat_shiftRight, sums]
    have hlt : v₂.toNat + v₂.toNat >>> 4 < 2 ^ 64 := by
      rw [Nat.shiftRight_eq_div_pow]
      omega
    exact congrArg (· &&& 0x0F0F0F0F0F0F0F0F) (Nat.mod_eq_of_lt hlt)
  rw [UInt64.toNat_shiftRight, UInt64.toNat_mul, h₃, h₂, h₁, Nat.shiftRight_eq_div_pow]
  rfl

/-- **The bits of up to eight bytes.** -/
theorem popcnt_ofBytes {bs : List ℕ} (hlen : bs.length ≤ 8) (h : ∀ b ∈ bs, b < 256) :
    popcnt (UInt64.ofNat (ofBytes bs)) = (bs.map bitCount).sum := by
  set cs := bs ++ List.replicate (8 - bs.length) 0 with hcs
  have hlength : cs.length = 8 := by
    rw [hcs, List.length_append, List.length_replicate]
    omega
  have hlt : ∀ c ∈ cs, c < 256 := by
    intro c hc
    rcases List.mem_append.1 hc with hc | hc
    · exact h c hc
    · rw [List.eq_of_mem_replicate hc]
      decide
  have hmask : ∀ m, Popcount.mask m cs = Popcount.mask m (List.replicate 8 0) := by
    intro m
    rw [Popcount.mask, Popcount.mask, List.map_const', List.map_const', hlength, List.length_replicate]
  have hbound := ofBytes_lt hlt
  rw [hlength] at hbound
  have hweight := weight_eq hlength hlt
  rw [hmask, hmask, hmask] at hweight
  have hsum : (cs.map bitCount).sum = (bs.map bitCount).sum := by
    rw [hcs, List.map_append, List.sum_append, List.map_replicate, show bitCount 0 = 0 by decide]
    simp
  rw [← ofBytes_append_zeros bs (8 - bs.length), ← hcs, popcnt_eq, UInt64.toNat_ofNat_of_lt' hbound,
    ← hsum, ← hweight]
  rfl

/-! ### The words of `count` -/

variable (b : Bitset)

/-- The number of bits of the first `n` bytes. -/
def weight (n : ℕ) : ℕ := ((List.range n).map fun k : ℕ => bitCount (b.bits k).toNat).sum

theorem weight_add (m n : ℕ) : b.weight (m + n) =
    b.weight m + ((List.range n).map fun k : ℕ => bitCount (b.bits (m + k : ℕ)).toNat).sum := by
  rw [weight, List.range_add, List.map_append, List.sum_append, List.map_map]
  rfl

/-- A word adds the bits of its bytes. -/
theorem popcnt_word (src : ℕ) {n : ℕ} (hn : n ≤ 8) :
    b.weight src + popcnt (b.word src n) = b.weight (src + n) := by
  have hbytes : b.word src n =
      UInt64.ofNat (ofBytes ((List.range n).map fun k => (b.bits (src + k : ℕ)).toNat)) := by
    rw [word, ofBytes, List.foldr_map]
  have hlt : ∀ c ∈ (List.range n).map (fun k => (b.bits (src + k : ℕ)).toNat), c < 256 := by
    intro c hc
    obtain ⟨k, -, rfl⟩ := List.mem_map.1 hc
    exact (b.bits (src + k : ℕ)).toNat_lt
  rw [hbytes, popcnt_ofBytes (by simpa using hn) hlt, weight_add, List.map_map]
  rfl

/-- The loop goes on while seven bytes are left. -/
theorem countLoop_eq {fuel src : ℕ} (hfuel : b.size < src + 8 * fuel) (hsrc : src ≤ b.size + 1)
    (hmod : src % 8 = 0) : ∃ e, b.countLoop fuel src (b.weight src) = (e, b.weight e) ∧
      b.size < e + 7 ∧ e ≤ b.size + 1 ∧ e % 8 = 0 := by
  induction fuel generalizing src with
  | zero => exact ⟨src, rfl, by omega, hsrc, hmod⟩
  | succ fuel ih =>
    rw [countLoop]
    by_cases hmore : src + 7 ≤ b.size
    · rw [if_pos hmore, b.popcnt_word src (by decide)]
      exact ih (by omega) (by omega) (by omega)
    · rw [if_neg hmore]
      exact ⟨src, rfl, by omega, hsrc, hmod⟩

/-- **What `count` counts.** The bits of the bytes that were allocated, and of the byte behind them
if there is an odd number of them. -/
theorem count_eq : b.count = b.weight (b.size + b.size % 2) := by
  have hfuel : b.size < 0 + 8 * (b.size / 8 + 1) := by omega
  obtain ⟨e, hloop, hlt, hle, hmod⟩ := b.countLoop_eq hfuel (Nat.zero_le _) rfl
  have hstart : b.weight 0 = 0 := rfl
  rw [hstart] at hloop
  have hword : ∀ src n, n ≤ 8 → b.weight src + popcnt (b.word src n) = b.weight (src + n) :=
    fun src n hn => b.popcnt_word src hn
  unfold count
  rw [hloop]
  dsimp only
  by_cases h4 : e + 3 ≤ b.size
  · rw [if_pos h4, hword e 4 (by decide)]
    dsimp only
    by_cases h2 : e + 4 + 1 ≤ b.size
    · rw [if_pos h2, hword (e + 4) 2 (by decide)]
      dsimp only
      rw [if_neg (by omega)]
      congr 1
      omega
    · rw [if_neg h2]
      dsimp only
      rw [if_neg (by omega)]
      congr 1
      omega
  · rw [if_neg h4]
    dsimp only
    by_cases h2 : e + 1 ≤ b.size
    · rw [if_pos h2, hword e 2 (by decide)]
      dsimp only
      rw [if_neg (by omega)]
      congr 1
      omega
    · rw [if_neg h2]
      dsimp only
      rw [if_neg (by omega)]
      congr 1
      omega

/-- Where the count is zero, no bit of the allocation is set. -/
theorem test_eq_false_of_count {i : ℕ} (h : b.count = 0) (hi : i < 2 ^ 31) (hsize : i / 8 < b.size) :
    b.test i = false := by
  rw [count_eq, weight, List.sum_eq_zero_iff_forall_eq_nat] at h
  have hzero : bitCount (b.bits (i / 8 : ℕ)).toNat = 0 := by
    refine h _ (List.mem_map.2 ⟨i / 8, List.mem_range.2 (by omega), rfl⟩)
  rw [test_eq, bitsAt, cell_of_lt hi]
  rw [bitCount, List.countP_eq_zero] at hzero
  have hbit := hzero (i % 8) (List.mem_range.2 (Nat.mod_lt _ (by decide)))
  simpa using hbit

end Bitset

end CTorrent
