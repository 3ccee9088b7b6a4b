import CTorrent.FileManager.Download
import CTorrent.FileManager.Read
import CTorrent.Peer.Blocks

/-!
# Which requests are served

`is_read_eligible` compares the end of a request with the length of the piece by `<`, although a
block may end where its piece does: `Peer::requestPiece` ends every piece with such a block. So a
request is refused wrongly exactly if it ends with a completed piece.

* `Servable`: the requests to be served; `EndsPiece`: those that end with their piece;
* `accepts_iff_lt`: what `requestPieceBlock` accepts;
* `accepts_iff_servable`: it accepts what is servable, but for what ends with its piece; of the
  blocks of a piece it refuses the last one.
-/

namespace CTorrent

namespace Peer

/-- The last block of a piece ends with the piece, the others end earlier. -/
theorem exists_last_block {length : ℕ} (hpos : 1 ≤ length) :
    ∃ init last, blocksOf length = init ++ [last] ∧ last.1 + last.2 = length ∧
      ∀ b ∈ init, b.1 + b.2 < length := by
  have hall := blocksOf_induct (P := fun begin length l => 1 ≤ length →
    ∃ init last, l = init ++ [last] ∧ last.1 + last.2 = begin + length ∧
      ∀ b ∈ init, b.1 + b.2 < begin + length) ?_ ?_ length hpos
  · rwa [Nat.zero_add] at hall
  · intro begin length _ _
    exact ⟨[], (begin, length), rfl, rfl, by simp⟩
  · intro begin length l hgt ih _
    obtain ⟨init, last, hl, hlast, hinit⟩ := ih (by omega)
    refine ⟨(begin, maxRequestSize) :: init, last, by rw [hl, List.cons_append], by omega, ?_⟩
    intro b hb
    rcases List.mem_cons.1 hb with rfl | hb
    · exact Nat.add_lt_add_left hgt _
    · have := hinit b hb
      omega

end Peer

namespace FileManager

variable (fm : FileManager)

/-- `requestPieceBlock` queues the request. -/
def Accepts (index from_ begin size : ℕ) : Prop :=
  ∃ fm', fm.requestPieceBlock index from_ begin size = some (true, fm')

/-- The request asks for bytes of a completed piece. -/
def Servable (index begin size : ℕ) : Prop :=
  fm.pieceDone index = true ∧
    ∃ length : ℤ, fm.pieceLength index = some length ∧ (begin + size : ℕ) ≤ length

/-- The request ends where a completed piece ends. -/
def EndsPiece (index begin size : ℕ) : Prop :=
  fm.pieceDone index = true ∧
    ∃ length : ℤ, fm.pieceLength index = some length ∧ (begin + size : ℕ) = length

variable {fm} {index from_ begin size : ℕ}

/-- A request is accepted if its piece is intact and it is eligible. -/
theorem accepts_iff_eligible : fm.Accepts index from_ begin size ↔
    fm.intact index = true ∧ fm.isReadEligible index (toInt64 (begin + size)) = some true := by
  unfold Accepts requestPieceBlock
  by_cases hi : fm.intact index = true
  · simp only [hi, Bool.not_true, Bool.false_eq_true, if_false, true_and, Option.map_eq_some_iff]
    constructor
    · rintro ⟨fm', ok, hok, hif⟩
      cases ok with
      | true => exact hok
      | false => cases hif
    · intro hok
      exact ⟨_, true, hok, rfl⟩
  · simp [hi]

/-- `is_read_eligible` where nothing divides by zero. -/
theorem isReadEligible_eq_true_iff {end_ length : ℤ} (hlen : fm.pieceLength index = some length) :
    fm.isReadEligible index end_ = some true ↔
      fm.completedBits.test index = true ∧ end_ < length := by
  unfold isReadEligible
  by_cases ht : fm.completedBits.test index = true
  · simp [ht, hlen]
  · simp [ht]

section Consistent

variable (h : Consistent fm.metainfo) (hN : fm.pieces.length = fm.metainfo.sha1sums.length)
include h hN

/-- The length of a piece that is done. -/
theorem pieceLength_of_done (hd : fm.pieceDone index = true) :
    fm.pieceLength index = some (pieceLen fm.metainfo index : ℤ) := by
  rw [pieceDone, Bool.and_eq_true, intact, decide_eq_true_iff] at hd
  exact h.pieceLength_eq rfl hN (hN ▸ hd.1)

/-- What `requestPieceBlock` accepts. -/
theorem accepts_iff_lt (hlt : begin + size < 2 ^ 63) :
    fm.Accepts index from_ begin size ↔
      fm.pieceDone index = true ∧ begin + size < pieceLen fm.metainfo index := by
  rw [accepts_iff_eligible, pieceDone, Bool.and_eq_true, and_assoc]
  refine and_congr_right fun hi => ?_
  rw [intact, decide_eq_true_iff] at hi
  rw [isReadEligible_eq_true_iff (h.pieceLength_eq rfl hN (hN ▸ hi)), toInt64_of_lt hlt,
    Nat.cast_lt]

theorem servable_iff_le : fm.Servable index begin size ↔
    fm.pieceDone index = true ∧ begin + size ≤ pieceLen fm.metainfo index := by
  refine and_congr_right fun hd => ?_
  simp only [pieceLength_of_done h hN hd, Option.some.injEq, exists_eq_left', Nat.cast_le]

theorem endsPiece_iff_eq : fm.EndsPiece index begin size ↔
    fm.pieceDone index = true ∧ begin + size = pieceLen fm.metainfo index := by
  refine and_congr_right fun hd => ?_
  simp only [pieceLength_of_done h hN hd, Option.some.injEq, exists_eq_left', Nat.cast_inj]

/-- **Which requests are served.** A request is accepted exactly if it is servable, if and only if
it does not end with a completed piece. Of the blocks of a completed piece, in which
`Peer::requestPiece` asks for it, all are servable, and the last one alone is refused. -/
theorem accepts_iff_servable (hb : begin < 2 ^ 32) (hs : size < 2 ^ 32) :
    ((fm.Accepts index from_ begin size ↔ fm.Servable index begin size) ↔
      ¬ fm.EndsPiece index begin size) ∧
    ∀ length, fm.pieceDone index = true → fm.pieceSize index = some length →
      (∀ b ∈ Peer.blocksOf length, fm.Servable index b.1 b.2) ∧
      ∃ init last, Peer.blocksOf length = init ++ [last] ∧
        (∀ b ∈ init, fm.Accepts index from_ b.1 b.2) ∧ ¬ fm.Accepts index from_ last.1 last.2 := by
  refine ⟨?_, fun length hd hsize => ?_⟩
  · rw [accepts_iff_lt h hN (by omega), servable_iff_le h hN, endsPiece_iff_eq h hN]
    by_cases hd : fm.pieceDone index = true
    · simp only [hd, true_and]
      omega
    · simp [hd]
  · have hi : index < fm.metainfo.sha1sums.length := by
      rw [pieceDone, Bool.and_eq_true, intact, decide_eq_true_iff, hN] at hd
      exact hd.1
    rw [h.tiled.pieceSize_eq rfl hN hi, Option.some.injEq] at hsize
    subst hsize
    have hmax := h.pieceLen_lt index
    refine ⟨fun b hb => (servable_iff_le h hN).2 ⟨hd, Peer.mem_blocksOf_bounds hb⟩, ?_⟩
    obtain ⟨init, last, hblocks, hlast, hinit⟩ := Peer.exists_last_block (h.tiled.pieceLen_pos hi)
    refine ⟨init, last, hblocks, fun b hb => ?_, fun hacc => ?_⟩
    · have := hinit b hb
      exact (accepts_iff_lt h hN (by omega)).2 ⟨hd, this⟩
    · have := ((accepts_iff_lt h hN (by omega)).1 hacc).2
      omega

end Consistent

theorem consistent_twoBytes : Consistent twoBytes where
  pieceLength_pos := by decide
  total_pos := by decide
  total_lt := by decide
  count_eq := by decide
  count_lt := by decide
  laidOut := ⟨rfl, rfl⟩

theorem accepts_iff_servable_twoBytes :
    ((twoBytesState.Accepts 0 7 0 1 ↔ twoBytesState.Servable 0 0 1) ↔
      ¬ twoBytesState.EndsPiece 0 0 1) ∧
    ∀ length, twoBytesState.pieceDone 0 = true → twoBytesState.pieceSize 0 = some length →
      (∀ b ∈ Peer.blocksOf length, twoBytesState.Servable 0 b.1 b.2) ∧
      ∃ init last, Peer.blocksOf length = init ++ [last] ∧
        (∀ b ∈ init, twoBytesState.Accepts 0 7 b.1 b.2) ∧
        ¬ twoBytesState.Accepts 0 7 last.1 last.2 :=
  accepts_iff_servable consistent_twoBytes rfl (by decide) (by decide)

/-- A peer that has completed the piece of two bytes is asked for it in one block, which lies in the
piece, and refuses. -/
theorem accepts_iff_servable_refused :
    Consistent twoBytesState.metainfo ∧ Peer.blocksOf 2 = [(0, 2)] ∧
    twoBytesState.Servable 0 0 2 ∧ ¬ twoBytesState.Accepts 0 7 0 2 := by
  refine ⟨consistent_twoBytes, rfl, ⟨by decide +kernel, 2, by decide +kernel, by decide⟩, ?_⟩
  rw [accepts_iff_eligible]
  decide +kernel

end FileManager

end CTorrent
