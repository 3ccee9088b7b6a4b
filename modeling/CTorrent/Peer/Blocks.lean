import CTorrent.Lib.Splice
import CTorrent.Peer.Peer
import Mathlib.Algebra.Order.Floor.Semiring
import Mathlib.Data.Rat.Floor

/-!
# The blocks of a piece

`requestPiece` and `cancelPiece` go through a piece in blocks of `maxRequestSize` bytes with a
shorter one at the end, `sendPieceRequest` rounds the number of blocks up, and `handleMessage`
finds the slot of a block by dividing its offset. The three agree.

* `tiles_blocksOf`, `mem_blocksOf_le`: the blocks cut the piece up, each of a legal length;
* `getElem?_blocksOf`: the `k`-th block begins at `k * maxRequestSize`;
* `length_blocksOf`: there are as many as a new piece has slots, the rounded up quotient.
-/

namespace CTorrent

open Splice

namespace Peer

/-! ### The loop -/

theorem blockLoop_of_le {fuel begin length : ℕ} (h : length ≤ maxRequestSize) :
    blockLoop fuel begin length = [(begin, length)] := by
  cases fuel with
  | zero => rfl
  | succ fuel => rw [blockLoop, if_neg (by omega)]

theorem blockLoop_of_gt {fuel begin length : ℕ} (h : maxRequestSize < length) :
    blockLoop (fuel + 1) begin length = (begin, maxRequestSize) ::
      blockLoop fuel (begin + maxRequestSize) (length - maxRequestSize) := by
  rw [blockLoop, if_pos h]

/-- Induction along the loop, which has fuel for all blocks. -/
theorem blockLoop_induct {P : ℕ → ℕ → List (ℕ × ℕ) → Prop}
    (last : ∀ begin length, length ≤ maxRequestSize → P begin length [(begin, length)])
    (next : ∀ begin length l, maxRequestSize < length →
      P (begin + maxRequestSize) (length - maxRequestSize) l →
      P begin length ((begin, maxRequestSize) :: l))
    {fuel begin length : ℕ} (h : length / maxRequestSize ≤ fuel) :
    P begin length (blockLoop fuel begin length) := by
  induction fuel generalizing begin length with
  | zero =>
    have hle : length ≤ maxRequestSize := by
      by_contra hgt
      have hpos : 0 < length / maxRequestSize := Nat.div_pos (by omega) (by decide)
      omega
    rw [blockLoop_of_le hle]
    exact last begin length hle
  | succ fuel ih =>
    by_cases hle : length ≤ maxRequestSize
    · rw [blockLoop_of_le hle]
      exact last begin length hle
    · have hgt : maxRequestSize < length := by omega
      rw [blockLoop_of_gt hgt]
      apply next _ _ _ hgt
      apply ih
      simp only [maxRequestSize] at h hgt ⊢
      omega

/-- The same for the blocks of a piece. -/
theorem blocksOf_induct {P : ℕ → ℕ → List (ℕ × ℕ) → Prop}
    (last : ∀ begin length, length ≤ maxRequestSize → P begin length [(begin, length)])
    (next : ∀ begin length l, maxRequestSize < length →
      P (begin + maxRequestSize) (length - maxRequestSize) l →
      P begin length ((begin, maxRequestSize) :: l))
    (length : ℕ) : P 0 length (blocksOf length) :=
  blockLoop_induct last next (Nat.le_refl _)

/-! ### The blocks -/

theorem tiles_blocksOf (length : ℕ) : Tiles 0 (blocksOf length) length := by
  have h := blocksOf_induct (P := fun begin length l => Tiles begin l (begin + length))
    (fun begin length _ => ⟨rfl, rfl⟩)
    (fun begin length l hgt ih => by
      rw [show begin + maxRequestSize + (length - maxRequestSize) = begin + length by omega] at ih
      exact ⟨rfl, ih⟩) length
  rwa [Nat.zero_add] at h

theorem mem_blocksOf_le {length : ℕ} (hpos : 1 ≤ length) :
    ∀ b ∈ blocksOf length, 1 ≤ b.2 ∧ b.2 ≤ maxRequestSize := by
  apply blocksOf_induct (P := fun _ length l =>
    1 ≤ length → ∀ b ∈ l, 1 ≤ b.2 ∧ b.2 ≤ maxRequestSize) _ _ length hpos
  · intro begin length hle hpos b hb
    rw [List.mem_singleton.1 hb]
    exact ⟨hpos, hle⟩
  · intro begin length l hgt ih _ b hb
    rcases List.mem_cons.1 hb with rfl | hb
    · exact ⟨by simp [maxRequestSize], le_rfl⟩
    · exact ih (by omega) b hb

/-- The `k`-th block begins at `k * maxRequestSize`. -/
theorem getElem?_blocksOf {length k : ℕ} {b : ℕ × ℕ} (h : (blocksOf length)[k]? = some b) :
    b.1 = k * maxRequestSize := by
  have hall := blocksOf_induct (P := fun begin _ l =>
    ∀ k (b : ℕ × ℕ), l[k]? = some b → b.1 = begin + k * maxRequestSize) ?_ ?_ length
  · rw [hall k b h, Nat.zero_add]
  · intro begin length _ k b hb
    cases k with
    | zero =>
      cases hb
      simp
    | succ k => cases hb
  · intro begin length l _ ih k b hb
    cases k with
    | zero =>
      cases hb
      simp
    | succ k =>
      rw [List.getElem?_cons_succ] at hb
      rw [ih k b hb, Nat.succ_mul]
      omega

theorem length_blocksOf_eq_div {length : ℕ} (hpos : 1 ≤ length) :
    (blocksOf length).length = (length + maxRequestSize - 1) / maxRequestSize := by
  apply blocksOf_induct (P := fun _ length l => 1 ≤ length →
    l.length = (length + maxRequestSize - 1) / maxRequestSize) _ _ length hpos
  · intro begin length hle hpos
    simp only [List.length_singleton, maxRequestSize] at hle ⊢
    omega
  · intro begin length l hgt ih _
    rw [List.length_cons, ih (by omega)]
    simp only [maxRequestSize] at hgt ⊢
    omega

/-- A new piece has a slot for each block. -/
theorem numBlocks_new {length : ℕ} (hpos : 1 ≤ length) (h32 : length < 2 ^ 32) (index : ℕ) :
    (Piece.new index length).numBlocks = (blocksOf length).length := by
  have hmod : length % 2 ^ 32 = length := Nat.mod_eq_of_lt h32
  rw [length_blocksOf_eq_div hpos]
  show (length % 2 ^ 32 + maxRequestSize - 1) / maxRequestSize = _
  rw [hmod]

/-- The number of blocks is the quotient, rounded up. -/
theorem length_blocksOf_eq_ceil {length : ℕ} (hpos : 1 ≤ length) :
    (blocksOf length).length = ⌈(length : ℚ) / maxRequestSize⌉₊ := by
  have hM : (0 : ℚ) < maxRequestSize := by norm_num [maxRequestSize]
  rw [length_blocksOf_eq_div hpos, eq_comm, Nat.ceil_eq_iff (by
    simp only [maxRequestSize]
    omega), lt_div_iff₀ hM, div_le_iff₀ hM]
  norm_cast
  simp only [maxRequestSize]
  omega

/-- Where the blocks lie. -/
theorem mem_blocksOf_bounds {length : ℕ} {b : ℕ × ℕ} (hb : b ∈ blocksOf length) :
    b.1 + b.2 ≤ length :=
  ((tiles_blocksOf length).bounds hb).2

/-- The slot of a block. -/
theorem getElem?_blocksOf_slot {length : ℕ} {b : ℕ × ℕ} (hb : b ∈ blocksOf length) :
    (blocksOf length)[b.1 / maxRequestSize]? = some b := by
  obtain ⟨k, hk⟩ := List.mem_iff_getElem?.1 hb
  rw [getElem?_blocksOf hk, Nat.mul_div_cancel _ (by decide)]
  exact hk

end Peer

end CTorrent
