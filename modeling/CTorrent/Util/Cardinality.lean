import CTorrent.Lib.Splice
import CTorrent.Util.Count
import Mathlib.Data.Nat.Count

/-!
# The count and the number of bits

`count` reads words of eight, four, two and one bytes. The comparison before each of them is off by
one, so that the word of two bytes is read where one byte is left: an odd number of bytes is read
together with the byte behind them. And a bit from `2 ^ 31` on lies outside the allocation, where
`count` does not look for it.

* `setTo`, `toggle`, `Op`: the operations on single bits;
* `reads`, `count_eq_reads`, `tiles_reads`: the words that `count` reads;
* `Clean`: in the allocation only bits of indices below the size are ever set;
* `count_eq_nat_count`: what `count` returns behind any operations;
* `countsBits_iff`: when that is the number of bits that are set.
-/

namespace CTorrent

namespace Bitset

open Popcount Splice

variable (b : Bitset)

/-! ### Operations -/

/-- `set(i, v)`. -/
def setTo (i : ℕ) (v : Bool) : Bitset :=
  b.store i (b.bitsAt i ^^^ (((if v then 0xFF else 0) ^^^ b.bitsAt i) &&& mask i))

/-- `toggle`. -/
def toggle (i : ℕ) : Bitset := b.store i (b.bitsAt i ^^^ mask i)

/-- A call of an operation on a bit. -/
inductive Op where
  | set (i : ℕ)
  | setTo (i : ℕ) (v : Bool)
  | clear (i : ℕ)
  | toggle (i : ℕ)

/-- The index of a call. -/
def Op.index : Op → ℕ
  | .set i => i
  | .setTo i _ => i
  | .clear i => i
  | .toggle i => i

/-- The effect of a call. -/
def apply : Op → Bitset
  | .set i => b.set i
  | .setTo i v => b.setTo i v
  | .clear i => b.clear i
  | .toggle i => b.toggle i

/-- The bit set behind `bitset(n)` and some calls. -/
def after (heap : ℤ → UInt8) (n : ℕ) (ops : List Op) : Bitset := ops.foldl apply (construct heap n)

/-- A bit of the memory. -/
def bitAt (c : ℤ) (k : ℕ) : Bool := (b.bits c).toNat.testBit k

theorem testBit_mask (i k : ℕ) : (mask i).toNat.testBit k = decide (i % 8 = k) := by
  rw [toNat_mask, Nat.testBit_two_pow]

theorem bitAt_store (i : ℕ) (v : UInt8) (c : ℤ) (k : ℕ) :
    (b.store i v).bitAt c k = if c = cell i then v.toNat.testBit k else b.bitAt c k := by
  simp only [bitAt, store, Function.update_apply]
  split_ifs <;> rfl

/-- A call leaves all bits of the memory but its own as they are. -/
theorem bitAt_apply (op : Op) {c : ℤ} {k : ℕ} (hk : k < 8)
    (h : ¬ (c = cell op.index ∧ k = op.index % 8)) : (b.apply op).bitAt c k = b.bitAt c k := by
  have hmask : ∀ i, op.index = i → c = cell i → (mask i).toNat.testBit k = false := by
    rintro i rfl hc
    rw [testBit_mask, decide_eq_false_iff_not]
    exact fun he => h ⟨hc, he.symm⟩
  have hstore : ∀ i v, op.index = i →
      (c = cell i → v.toNat.testBit k = (b.bitsAt i).toNat.testBit k) →
      (b.store i v).bitAt c k = b.bitAt c k := by
    intro i v hi hv
    rw [bitAt_store]
    by_cases hc : c = cell i
    · rw [if_pos hc, hv hc, bitAt, bitsAt, hc]
    · rw [if_neg hc]
  cases op with
  | set i =>
    refine hstore i _ rfl fun hc => ?_
    rw [UInt8.toNat_or, Nat.testBit_or, hmask i rfl hc, Bool.or_false]
  | setTo i v =>
    refine hstore i _ rfl fun hc => ?_
    rw [UInt8.toNat_xor, Nat.testBit_xor, UInt8.toNat_and, Nat.testBit_and, hmask i rfl hc,
      Bool.and_false, Bool.xor_false]
  | clear i =>
    refine hstore i _ rfl fun hc => ?_
    have hne : i % 8 ≠ k := fun he => h ⟨hc, he.symm⟩
    have hkk : k % 8 = k := Nat.mod_eq_of_lt hk
    have hnot := testBit_not_mask i k
    rw [hkk] at hnot
    rw [UInt8.toNat_and, Nat.testBit_and, hnot, decide_eq_true hne, Bool.and_true]
  | toggle i =>
    refine hstore i _ rfl fun hc => ?_
    rw [UInt8.toNat_xor, Nat.testBit_xor, hmask i rfl hc, Bool.xor_false]

@[simp] theorem size_apply (op : Op) : (b.apply op).size = b.size := by
  cases op <;> rfl

theorem bits_apply_of_ne (op : Op) {c : ℤ} (h : c ≠ cell op.index) :
    (b.apply op).bits c = b.bits c := by
  have hstore : ∀ i v, op.index = i → (b.store i v).bits c = b.bits c := by
    rintro i v rfl
    exact Function.update_of_ne h _ _
  cases op with
  | set i => exact hstore i _ rfl
  | setTo i v => exact hstore i _ rfl
  | clear i => exact hstore i _ rfl
  | toggle i => exact hstore i _ rfl

/-! ### The bits of the allocation -/

/-- What holds behind calls on indices below `n`: a bit of the allocation is set only at an index
below `n`, and the byte behind the allocation is as it was. -/
structure Clean (heap : ℤ → UInt8) (n : ℕ) (b : Bitset) : Prop where
  size : b.size = n
  bits : ∀ k l : ℕ, k < n → l < 8 → b.bitAt k l = true → 8 * k + l < n ∧ 8 * k + l < 2 ^ 31
  behind : b.bits n = heap n

variable {b} {heap : ℤ → UInt8} {n : ℕ}

theorem clean_construct (heap : ℤ → UInt8) (n : ℕ) : Clean heap n (construct heap n) where
  size := rfl
  bits k l hk _ hbit := by
    have hin : (0 : ℤ) ≤ (k : ℤ) ∧ (k : ℤ) < n := by omega
    simp only [bitAt, construct, if_pos hin] at hbit
    simp at hbit
  behind := by simp [construct]

/-- The index of a bit of the memory at a position that is not negative. -/
theorem index_of_cell {i k l : ℕ} (hc : (k : ℤ) = cell i) (hl : l = i % 8) :
    8 * k + l ≤ i ∧ 8 * k + l < 2 ^ 31 := by
  rw [cell, toInt32] at hc
  split_ifs at hc <;> omega

theorem Clean.apply (h : Clean heap n b) {op : Op} (hop : op.index < n) :
    Clean heap n (b.apply op) where
  size := by rw [size_apply, h.size]
  bits k l hk hl hbit := by
    by_cases hown : (k : ℤ) = cell op.index ∧ l = op.index % 8
    · have := index_of_cell hown.1 hown.2
      omega
    · rw [bitAt_apply b op hl hown] at hbit
      exact h.bits k l hk hl hbit
  behind := by
    have hne : (n : ℤ) ≠ cell op.index := by
      intro hc
      have := index_of_cell hc rfl
      omega
    rw [bits_apply_of_ne b op hne, h.behind]

/-- Behind any calls on indices below the size. -/
theorem clean_after (heap : ℤ → UInt8) {n : ℕ} {ops : List Op} (hops : ∀ op ∈ ops, op.index < n) :
    Clean heap n (after heap n ops) := by
  have hfold : ∀ (ops : List Op) (b : Bitset), (∀ op ∈ ops, op.index < n) → Clean heap n b →
      Clean heap n (ops.foldl Bitset.apply b) := by
    intro ops
    induction ops with
    | nil => exact fun _ _ h => h
    | cons op ops ih =>
      intro b hops h
      exact ih _ (fun op' h' => hops op' (List.mem_cons_of_mem _ h'))
        (h.apply (hops op List.mem_cons_self))
  exact hfold ops _ hops (clean_construct heap n)

/-- The weight of the first bytes as a number of bits. -/
theorem weight_eq_nat_count (b : Bitset) (n : ℕ) :
    b.weight n = Nat.count (fun j => b.bitAt (j / 8 : ℕ) (j % 8) = true) (8 * n) := by
  induction n with
  | zero => rfl
  | succ n ih =>
    have hbyte : bitCount (b.bits n).toNat =
        Nat.count (fun k => b.bitAt ((8 * n + k) / 8 : ℕ) ((8 * n + k) % 8) = true) 8 := by
      rw [bitCount, Nat.count]
      refine List.countP_congr fun k hk => ?_
      have hk8 := List.mem_range.1 hk
      rw [decide_eq_true_iff, show (8 * n + k) / 8 = n by omega, show (8 * n + k) % 8 = k by omega,
        bitAt]
    rw [Nat.mul_succ, Nat.count_add, ← ih, ← hbyte, weight_add]
    simp

/-- The bits of the allocation are the bits that `test` finds below `2 ^ 31`. -/
theorem Clean.weight_eq (h : Clean heap n b) :
    b.weight n = Nat.count (fun i => i < 2 ^ 31 ∧ b.test i = true) n := by
  have hiff : ∀ j < 8 * n, b.bitAt (j / 8 : ℕ) (j % 8) = true ↔
      j < n ∧ j < 2 ^ 31 ∧ b.test j = true := by
    intro j hj
    constructor
    · intro hbit
      have hlt := h.bits (j / 8) (j % 8) (by omega) (by omega) hbit
      have hj' : j < n ∧ j < 2 ^ 31 := by omega
      refine ⟨hj'.1, hj'.2, ?_⟩
      rw [test_eq, bitsAt, cell_of_lt hj'.2]
      exact hbit
    · rintro ⟨-, h31, ht⟩
      rw [test_eq, bitsAt, cell_of_lt h31] at ht
      exact ht
  rw [weight_eq_nat_count, show 8 * n = n + 7 * n by omega, Nat.count_add]
  have hrest : Nat.count (fun k => b.bitAt ((n + k) / 8 : ℕ) ((n + k) % 8) = true) (7 * n) = 0 :=
    Nat.count_of_forall_not fun k hk hbit => by
      have := ((hiff (n + k) (by omega)).1 hbit).1
      omega
  rw [hrest, Nat.add_zero]
  refine List.countP_congr fun j hj => ?_
  have hjn := List.mem_range.1 hj
  rw [decide_eq_true_iff, decide_eq_true_iff]
  exact (hiff j (by omega)).trans (and_iff_right hjn)

/-- **What `count` returns.** The number of bits below `2 ^ 31` that are set, and for an odd size
the bits of the byte behind the allocation besides. -/
theorem Clean.count_eq (h : Clean heap n b) :
    b.count = Nat.count (fun i => i < 2 ^ 31 ∧ b.test i = true) n +
      n % 2 * bitCount (heap n).toNat := by
  rw [Bitset.count_eq, h.size, weight_add, h.weight_eq, ← h.behind]
  rcases Nat.mod_two_eq_zero_or_one n with hmod | hmod
  · rw [hmod]
    simp
  · rw [hmod]
    simp

/-! ### The words that are read -/

variable (b)

/-- The words that the loop of `count` reads from `src` on, each with its width, and the position at
its end. -/
def loopReads : ℕ → ℕ → List (ℕ × ℕ) × ℕ
  | 0, src => ([], src)
  | fuel + 1, src =>
      if src + 7 ≤ b.size then ((src, 8) :: (loopReads fuel (src + 8)).1, (loopReads fuel (src + 8)).2)
      else ([], src)

/-- One of the reads behind the loop: of `width` bytes if the comparison with `ahead` holds. -/
def readWord (ahead width : ℕ) (s : List (ℕ × ℕ) × ℕ) : List (ℕ × ℕ) × ℕ :=
  if s.2 + ahead ≤ b.size then (s.1 ++ [(s.2, width)], s.2 + width) else s

/-- The words that `count` reads. -/
def reads : List (ℕ × ℕ) :=
  (b.readWord 1 1 (b.readWord 1 2 (b.readWord 3 4 (b.loopReads (b.size / 8 + 1) 0)))).1

/-- The bits of some words. -/
def weightOf (words : List (ℕ × ℕ)) : ℕ := (words.map fun r => popcnt (b.word r.1 r.2)).sum

theorem countLoop_eq_reads (fuel src set : ℕ) : b.countLoop fuel src set =
    ((b.loopReads fuel src).2, set + b.weightOf (b.loopReads fuel src).1) := by
  induction fuel generalizing src set with
  | zero => rfl
  | succ fuel ih =>
    rw [countLoop, loopReads]
    split_ifs
    · rw [ih, weightOf, weightOf, List.map_cons, List.sum_cons, Nat.add_assoc]
    · rfl

/-- A read behind the loop adds the bits of its word. -/
theorem weightOf_readWord (ahead width : ℕ) (s : List (ℕ × ℕ) × ℕ) :
    b.weightOf (b.readWord ahead width s).1 =
      if s.2 + ahead ≤ b.size then b.weightOf s.1 + popcnt (b.word s.2 width)
      else b.weightOf s.1 := by
  rw [readWord]
  split_ifs
  · rw [weightOf, weightOf, List.map_append, List.sum_append, List.map_singleton,
      List.sum_singleton]
  · rfl

theorem snd_readWord (ahead width : ℕ) (s : List (ℕ × ℕ) × ℕ) :
    (b.readWord ahead width s).2 = if s.2 + ahead ≤ b.size then s.2 + width else s.2 := by
  rw [readWord]
  split_ifs <;> rfl

/-- `count` adds up the bits of the words that it reads. -/
theorem count_eq_reads : b.count = b.weightOf b.reads := by
  unfold count reads
  rw [countLoop_eq_reads, Nat.zero_add]
  generalize b.loopReads (b.size / 8 + 1) 0 = s
  simp only [weightOf_readWord, snd_readWord]
  by_cases h4 : s.2 + 3 ≤ b.size
  · by_cases h2 : s.2 + 4 + 1 ≤ b.size
    · simp only [h4, h2, if_true, Nat.lt_iff_add_one_le]
    · simp only [h4, h2, if_true, if_false, Nat.lt_iff_add_one_le]
  · by_cases h2 : s.2 + 1 ≤ b.size
    · simp only [h4, h2, if_true, if_false, Nat.lt_iff_add_one_le]
    · simp only [h4, h2, if_false, Nat.lt_iff_add_one_le]

/-- The loop goes on while seven bytes are left. -/
theorem tiles_loopReads {fuel src : ℕ} (hfuel : b.size < src + 8 * fuel) (hmod : src % 8 = 0)
    (hsrc : src ≤ b.size + 1) :
    Tiles src (b.loopReads fuel src).1 (b.loopReads fuel src).2 ∧
      b.size < (b.loopReads fuel src).2 + 7 ∧ (b.loopReads fuel src).2 ≤ b.size + 1 ∧
      (b.loopReads fuel src).2 % 8 = 0 := by
  induction fuel generalizing src with
  | zero => exact ⟨rfl, by rw [loopReads]; omega, hsrc, hmod⟩
  | succ fuel ih =>
    rw [loopReads]
    by_cases hmore : src + 7 ≤ b.size
    · rw [if_pos hmore]
      have hnext : b.size < src + 8 + 8 * fuel := by omega
      obtain ⟨htiles, hlt, hle, hmod'⟩ := ih hnext (by omega) (by omega)
      exact ⟨⟨rfl, htiles⟩, hlt, hle, hmod'⟩
    · rw [if_neg hmore]
      exact ⟨rfl, by dsimp only; omega, hsrc, hmod⟩

/-- A read behind the loop goes on where the reads before it end. -/
theorem tiles_readWord (ahead width : ℕ) {a : ℕ} {s : List (ℕ × ℕ) × ℕ} (h : Tiles a s.1 s.2) :
    Tiles a (b.readWord ahead width s).1 (b.readWord ahead width s).2 := by
  rw [readWord]
  split_ifs
  · exact h.concat width
  · exact h

/-- **What `count` reads.** The words cover the allocation, and the byte behind it if its size is
odd. -/
theorem tiles_reads : Tiles 0 b.reads (b.size + b.size % 2) := by
  have hfuel : b.size < 0 + 8 * (b.size / 8 + 1) := by omega
  obtain ⟨htiles, hlt, hle, hmod⟩ := b.tiles_loopReads hfuel rfl (Nat.zero_le _)
  have h := b.tiles_readWord 1 1 (b.tiles_readWord 1 2 (b.tiles_readWord 3 4 htiles))
  have hend : (b.readWord 1 1 (b.readWord 1 2 (b.readWord 3 4
      (b.loopReads (b.size / 8 + 1) 0)))).2 = b.size + b.size % 2 := by
    simp only [snd_readWord]
    generalize (b.loopReads (b.size / 8 + 1) 0).2 = e at hlt hle hmod
    split_ifs <;> omega
  rw [hend] at h
  exact h

/-- All reads stay inside the allocation exactly if its size is even. -/
theorem reads_inside_iff : (∀ r ∈ b.reads, r.1 + r.2 ≤ b.size) ↔ b.size % 2 = 0 := by
  have h := b.tiles_reads
  constructor
  · intro hall
    by_contra hodd
    obtain ⟨r, hr, hend⟩ := h.exists_end (by omega)
    have := hall r hr
    omega
  · intro heven r hr
    have := (h.bounds hr).2
    omega

/-! ### When the count is right -/

/-- `count` returns the number of bits below `n` that are set and reads inside the allocation. -/
def CountsBits (n : ℕ) : Prop :=
  b.count = Nat.count (fun i => b.test i = true) n ∧ ∀ r ∈ b.reads, r.1 + r.2 ≤ n

variable {b}

/-- The bits below `2 ^ 31` are all exactly if there is none above. -/
theorem nat_count_eq_iff (b : Bitset) (n : ℕ) :
    Nat.count (fun i => i < 2 ^ 31 ∧ b.test i = true) n = Nat.count (fun i => b.test i = true) n ↔
      ∀ i, 2 ^ 31 ≤ i → i < n → b.test i = false := by
  induction n with
  | zero => simp
  | succ n ih =>
    have hle : Nat.count (fun i => i < 2 ^ 31 ∧ b.test i = true) n ≤
        Nat.count (fun i => b.test i = true) n := Nat.count_mono_left fun _ _ h => h.2
    have hsplit : (∀ i, 2 ^ 31 ≤ i → i < n + 1 → b.test i = false) ↔
        (∀ i, 2 ^ 31 ≤ i → i < n → b.test i = false) ∧ (2 ^ 31 ≤ n → b.test n = false) := by
      constructor
      · exact fun h => ⟨fun i h1 h2 => h i h1 (by omega), fun h1 => h n h1 (by omega)⟩
      · rintro ⟨hbelow, hn⟩ i h1 h2
        by_cases hi : i = n
        · exact hi ▸ hn (hi ▸ h1)
        · exact hbelow i h1 (by omega)
    rw [Nat.count_succ, Nat.count_succ, hsplit, ← ih]
    by_cases ht : b.test n = true
    · simp only [ht, and_true, if_true, Bool.true_eq_false, imp_false, Nat.not_le]
      split_ifs <;> omega
    · simp [ht]

/-- **When the count is right.** Behind any calls on indices below `n`, `count` returns the number
of bits that are set and reads no byte from `n` on if and only if `n` is even and no bit from
`2 ^ 31` on is set. -/
theorem Clean.countsBits_iff (h : Clean heap n b) :
    b.CountsBits n ↔ n % 2 = 0 ∧ ∀ i, 2 ^ 31 ≤ i → i < n → b.test i = false := by
  have hreads := b.reads_inside_iff
  rw [h.size] at hreads
  rw [CountsBits, hreads, and_comm]
  refine and_congr_right fun heven => ?_
  rw [h.count_eq, heven, Nat.zero_mul, Nat.add_zero, nat_count_eq_iff]

end Bitset

end CTorrent
