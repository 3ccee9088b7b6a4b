import CTorrent.FileManager.Basic
import CTorrent.Lib.Leftmost
import Mathlib.Algebra.Order.Ring.Int
import Mathlib.Data.Int.ConditionallyCompleteOrder
import Mathlib.Order.WithBot

/-!
# Which piece is chosen

`get_next_piece` passes over the pieces that are completed or pending and those that the peer has
not got. It returns at the first of the others that was never chosen; behind the loop, it takes
the first of the least priority.

* `Wanted`, `rank`, `Next`: the piece, as the leftmost of least rank;
* `nextPieceLoop_best`: what the loop knows at each of its passes;
* `getNextPiece_eq`: the index that is returned, and the state behind.
-/

namespace CTorrent

namespace FileManager

variable (fm : FileManager) (fun_ : ℕ → Bool)

/-- The piece is neither completed nor pending, and the peer has it. -/
def Wanted (i : ℕ) : Prop :=
  fm.completedBits.test i = false ∧ fm.pendingBits.test i = false ∧ fun_ i = true

/-- The priority of a piece; a piece that was never chosen comes before all others. -/
def rank (i : ℕ) : WithBot ℤ :=
  let pri := (fm.pieces[i]?.map Piece.pri).getD 0
  if pri = 0 then ⊥ else pri

/-- The piece that is chosen next. -/
def Next (i : ℕ) : Prop :=
  Leftmost (fm.Wanted fun_) fm.rank fm.pieces.length i ∧ fm.rank i < ((2 ^ 31 - 1 : ℤ) : WithBot ℤ)

/-- The state behind one choice more of a piece. -/
def raise (i : ℕ) : FileManager :=
  { fm with pieces := fm.pieces.modify i fun p => { p with pri := p.pri + 1 } }

/-- What the loop knows about the pieces before `i`: all have been chosen before, and `index` is the
first of the least priority below the largest, unless there is none. -/
structure Best (i index : ℕ) (priority : ℤ) : Prop where
  chosen : ∀ j < i, fm.Wanted fun_ j → fm.rank j ≠ ⊥
  best : (priority = 2 ^ 31 - 1 ∧
      ∀ j < i, fm.Wanted fun_ j → ((2 ^ 31 - 1 : ℤ) : WithBot ℤ) ≤ fm.rank j) ∨
    (priority < 2 ^ 31 - 1 ∧ fm.rank index = priority ∧ Leftmost (fm.Wanted fun_) fm.rank i index)

variable {fm fun_}

theorem Next.unique {i j : ℕ} (hi : fm.Next fun_ i) (hj : fm.Next fun_ j) : i = j :=
  hi.1.unique hj.1

/-- A piece that was never chosen is raised to one. -/
theorem raise_of_rank {i : ℕ} (h : fm.rank i = ⊥) : fm.raise i =
    { fm with pieces := fm.pieces.modify i fun p => { p with pri := 1 } } := by
  unfold raise
  congr 1
  apply List.ext_getElem?
  intro j
  rw [List.getElem?_modify, List.getElem?_modify]
  by_cases hj : i = j
  · subst hj
    cases hp : fm.pieces[i]? with
    | none => rfl
    | some p =>
      have hzero : p.pri = 0 := by
        by_contra hne
        simp [rank, hp, hne] at h
      simp [hzero]
  · simp [hj]

/-- The loop steps over a piece that is not wanted, or has no less priority. -/
theorem Best.skip {i index : ℕ} {priority : ℤ} (h : fm.Best fun_ i index priority)
    (hi : fm.Wanted fun_ i → fm.rank i ≠ ⊥ ∧ (priority : WithBot ℤ) ≤ fm.rank i) :
    fm.Best fun_ (i + 1) index priority := by
  refine ⟨?_, ?_⟩
  · intro j hj hw
    rcases Nat.lt_succ_iff_lt_or_eq.1 hj with hlt | rfl
    · exact h.chosen j hlt hw
    · exact (hi hw).1
  · rcases h.best with ⟨rfl, hall⟩ | ⟨hlt, hrank, hleft⟩
    · refine Or.inl ⟨rfl, fun j hj hw => ?_⟩
      rcases Nat.lt_succ_iff_lt_or_eq.1 hj with hlt | rfl
      · exact hall j hlt hw
      · exact (hi hw).2
    · exact Or.inr ⟨hlt, hrank, hleft.keep fun hw => hrank ▸ (hi hw).2⟩

/-- The loop comes to a wanted piece of less priority. -/
theorem Best.take {i index : ℕ} {priority pri : ℤ} (h : fm.Best fun_ i index priority)
    (hw : fm.Wanted fun_ i) (hrank : fm.rank i = pri) (hlt : pri < priority) :
    fm.Best fun_ (i + 1) i pri := by
  have hnew : pri < 2 ^ 31 - 1 ∧ ∀ j < i, fm.Wanted fun_ j → fm.rank i < fm.rank j := by
    rcases h.best with ⟨rfl, hall⟩ | ⟨hmax, hindex, hleft⟩
    · refine ⟨hlt, fun j hj hwj => ?_⟩
      rw [hrank]
      exact lt_of_lt_of_le (WithBot.coe_lt_coe.2 hlt) (hall j hj hwj)
    · refine ⟨hlt.trans hmax, fun j hj hwj => ?_⟩
      rw [hrank]
      refine lt_of_lt_of_le (WithBot.coe_lt_coe.2 hlt) ?_
      rw [← hindex]
      exact hleft.le j hj hwj
  refine ⟨?_, Or.inr ⟨hnew.1, hrank, .new hw hnew.2⟩⟩
  intro j hj hwj
  rcases Nat.lt_succ_iff_lt_or_eq.1 hj with hj | rfl
  · exact h.chosen j hj hwj
  · rw [hrank]
    exact WithBot.coe_ne_bot

/-- **The loop of `get_next_piece`.** -/
theorem nextPieceLoop_best {ps : List Piece} {i index : ℕ} {priority : ℤ}
    (hi : i ≤ fm.pieces.length) (hps : fm.pieces.drop i = ps)
    (h : fm.Best fun_ i index priority) :
    (∃ k, fm.nextPieceLoop fun_ ps i index priority = .inl k ∧ fm.rank k = ⊥ ∧
      Leftmost (fm.Wanted fun_) fm.rank fm.pieces.length k) ∨
    ∃ index' priority', fm.nextPieceLoop fun_ ps i index priority = .inr (index', priority') ∧
      fm.Best fun_ fm.pieces.length index' priority' := by
  induction ps generalizing i index priority with
  | nil =>
    obtain rfl := le_antisymm hi (List.drop_eq_nil_iff.1 hps)
    exact Or.inr ⟨index, priority, rfl, h⟩
  | cons p ps ih =>
    have hlt : i < fm.pieces.length := by
      by_contra hge
      rw [List.drop_eq_nil_of_le (Nat.le_of_not_lt hge)] at hps
      cases hps
    have hp : fm.pieces[i]? = some p := by
      rw [← List.head?_drop, hps]
      rfl
    have hdrop : fm.pieces.drop (i + 1) = ps := by
      rw [← List.tail_drop, hps]
      rfl
    have hrank : fm.rank i = if p.pri = 0 then ⊥ else (p.pri : WithBot ℤ) := by
      rw [rank, hp]
      rfl
    rw [nextPieceLoop]
    split_ifs with hskip hzero hless
    · refine ih hlt hdrop (h.skip fun hw => ?_)
      simp [hw.1, hw.2.1, hw.2.2] at hskip
    · have hw : fm.Wanted fun_ i := by
        simpa [Wanted, and_assoc] using hskip
      rw [if_pos hzero] at hrank
      refine Or.inl ⟨i, rfl, hrank, hlt, hw, fun j _ _ => hrank ▸ bot_le, fun j hj hwj => ?_⟩
      rw [hrank]
      exact bot_lt_iff_ne_bot.2 (h.chosen j hj hwj)
    · have hw : fm.Wanted fun_ i := by
        simpa [Wanted, and_assoc] using hskip
      rw [if_neg hzero] at hrank
      exact ih hlt hdrop (h.take hw hrank hless)
    · refine ih hlt hdrop (h.skip fun _ => ?_)
      rw [hrank, if_neg hzero]
      exact ⟨WithBot.coe_ne_bot, WithBot.coe_le_coe.2 (not_lt.1 hless)⟩

/-- **What `get_next_piece` does.** It chooses the next piece, if there is one. -/
theorem getNextPiece_eq (fm : FileManager) (fun_ : ℕ → Bool) :
    (∃ i, fm.Next fun_ i ∧ fm.getNextPiece fun_ = (i, fm.raise i)) ∨
      (∀ i, ¬fm.Next fun_ i) ∧ fm.getNextPiece fun_ = (2 ^ 64 - 1, fm) := by
  have hstart : fm.Best fun_ 0 0 (2 ^ 31 - 1) :=
    ⟨fun j hj => absurd hj (Nat.not_lt_zero j), Or.inl ⟨rfl, fun j hj => absurd hj (Nat.not_lt_zero j)⟩⟩
  rw [getNextPiece]
  rcases nextPieceLoop_best (Nat.zero_le _) List.drop_zero hstart with ⟨k, heq, hrank, hleft⟩ |
    ⟨index, priority, heq, hbest⟩
  · rw [heq]
    refine Or.inl ⟨k, ⟨hleft, hrank ▸ WithBot.bot_lt_coe _⟩, ?_⟩
    rw [raise_of_rank hrank]
  · rw [heq]
    dsimp only
    rcases hbest.best with ⟨rfl, hall⟩ | ⟨hlt, hrank, hleft⟩
    · rw [if_neg (not_not.2 rfl)]
      refine Or.inr ⟨fun i hi => ?_, rfl⟩
      exact absurd hi.2 (not_lt_of_ge (hall i hi.1.lt hi.1.mem))
    · rw [if_pos hlt.ne]
      refine Or.inl ⟨index, ⟨hleft, ?_⟩, rfl⟩
      rw [hrank]
      exact WithBot.coe_lt_coe.2 hlt

/-- The index that `get_next_piece` returns. -/
theorem getNextPiece_fst (fm : FileManager) (fun_ : ℕ → Bool) :
    fm.Next fun_ (fm.getNextPiece fun_).1 ∨
      (∀ i, ¬fm.Next fun_ i) ∧ (fm.getNextPiece fun_).1 = 2 ^ 64 - 1 := by
  rcases fm.getNextPiece_eq fun_ with ⟨i, hi, heq⟩ | ⟨hnone, heq⟩
  · rw [heq]
    exact Or.inl hi
  · rw [heq]
    exact Or.inr ⟨hnone, rfl⟩

end FileManager

end CTorrent
