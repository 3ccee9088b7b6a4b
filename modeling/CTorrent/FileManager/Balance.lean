import CTorrent.FileManager.NextPiece
import CTorrent.Lib.Runs

/-!
# The pieces are chosen in turn

While no counter has come to the largest `int32_t`, `get_next_piece` chooses the first of the
eligible pieces whose counter is least, and raises that counter. Over any number of calls with the
same eligible pieces, their counters stay within one of each other.

* `pri`, `InRange`: the counters;
* `Selection`, `select`: one call of `get_next_piece`, with whatever bits it finds;
* `level_select`, `getNextPiece_balanced`: one call, and all calls.
-/

namespace CTorrent

namespace FileManager

variable (fm : FileManager)

/-- The counter of a piece. -/
def pri (i : ℕ) : ℤ := (fm.pieces[i]?.map Piece.pri).getD 0

/-- No counter has come to the largest `int32_t`. -/
def InRange : Prop := ∀ p ∈ fm.pieces, 0 ≤ p.pri ∧ p.pri ≤ 2 ^ 31 - 2

/-- What one call of `get_next_piece` depends on besides the counters. -/
structure Selection where
  fun_ : ℕ → Bool
  completedBits : Bitset
  pendingBits : Bitset

/-- The state in which the call is made. -/
def before (c : Selection) : FileManager :=
  { fm with completedBits := c.completedBits, pendingBits := c.pendingBits }

/-- One call. -/
def select (c : Selection) : Option FileManager := some ((fm.before c).getNextPiece c.fun_).2

/-- The call finds the pieces `E` eligible, and all counters in range. -/
def Finds (E : ℕ → Prop) (fm : FileManager) (c : Selection) : Prop :=
  fm.InRange ∧ ∀ i < fm.pieces.length, (fm.before c).Wanted c.fun_ i ↔ E i

variable {fm} {fun_ : ℕ → Bool}

/-! ### One call -/

theorem InRange.pri (h : fm.InRange) (i : ℕ) : 0 ≤ fm.pri i ∧ fm.pri i ≤ 2 ^ 31 - 2 := by
  unfold FileManager.pri
  cases hp : fm.pieces[i]? with
  | none => simp
  | some p => exact h p (List.mem_of_getElem? hp)

theorem rank_eq (i : ℕ) : fm.rank i = if fm.pri i = 0 then ⊥ else (fm.pri i : WithBot ℤ) := rfl

/-- In range the ranks are ordered as the counters are. -/
theorem InRange.rank_lt_iff (h : fm.InRange) (i j : ℕ) :
    fm.rank i < fm.rank j ↔ fm.pri i < fm.pri j := by
  have hi := h.pri i
  have hj := h.pri j
  rw [rank_eq, rank_eq]
  by_cases hi0 : fm.pri i = 0
  · by_cases hj0 : fm.pri j = 0
    · simp [hi0, hj0]
    · simp only [if_pos hi0, if_neg hj0, WithBot.bot_lt_coe, true_iff]
      omega
  · by_cases hj0 : fm.pri j = 0
    · simp only [if_neg hi0, if_pos hj0, not_lt_bot, false_iff]
      omega
    · rw [if_neg hi0, if_neg hj0, WithBot.coe_lt_coe]

theorem InRange.rank_lt (h : fm.InRange) (i : ℕ) :
    fm.rank i < ((2 ^ 31 - 1 : ℤ) : WithBot ℤ) := by
  have hi := h.pri i
  rw [rank_eq]
  split_ifs
  · exact WithBot.bot_lt_coe _
  · exact WithBot.coe_lt_coe.2 (by omega)

/-- In range the next piece is the first of the eligible ones whose counter is least. -/
theorem InRange.next_iff (h : fm.InRange) {i : ℕ} : fm.Next fun_ i ↔
    Leftmost (fm.Wanted fun_) fm.pri fm.pieces.length i := by
  constructor
  · rintro ⟨hleft, -⟩
    exact hleft.of_rank fun j _ k _ => h.rank_lt_iff j k
  · intro hleft
    exact ⟨hleft.of_rank fun j _ k _ => (h.rank_lt_iff j k).symm, h.rank_lt i⟩

theorem pri_raise {i : ℕ} (hi : i < fm.pieces.length) :
    (fm.raise i).pri = Function.update fm.pri i (fm.pri i + 1) := by
  funext j
  simp only [FileManager.pri, raise, List.getElem?_modify, Function.update_apply]
  by_cases hj : i = j
  · subst hj
    rw [List.getElem?_eq_getElem hi]
    simp
  · simp [hj, Ne.symm hj]

theorem length_raise (i : ℕ) : (fm.raise i).pieces.length = fm.pieces.length := by
  simp [raise]

/-- **One call.** With all counters in range, `get_next_piece` leaves the state as it is where no
piece is eligible, and else chooses the first eligible piece whose counter is least. -/
theorem InRange.getNextPiece (h : fm.InRange) (fun_ : ℕ → Bool) :
    ((∀ i < fm.pieces.length, ¬ fm.Wanted fun_ i) ∧ fm.getNextPiece fun_ = (2 ^ 64 - 1, fm)) ∨
    ∃ i, Leftmost (fm.Wanted fun_) fm.pri fm.pieces.length i ∧
      fm.getNextPiece fun_ = (i, fm.raise i) := by
  rcases fm.getNextPiece_eq fun_ with ⟨i, hi, heq⟩ | ⟨hnone, heq⟩
  · exact Or.inr ⟨i, h.next_iff.1 hi, heq⟩
  · refine Or.inl ⟨fun i hi hw => ?_, heq⟩
    obtain ⟨k, hk⟩ := Leftmost.exists_of_mem fm.pri hi hw
    exact hnone k (h.next_iff.2 hk)

/-! ### All calls -/

/-- What the calls keep: the number of pieces, and the counters of the eligible ones level. -/
def Balanced (E : ℕ → Prop) (n : ℕ) (fm : FileManager) : Prop :=
  fm.pieces.length = n ∧ Level E fm.pri n

theorem balanced_select {E : ℕ → Prop} {n : ℕ} (fm : FileManager) (c : Selection)
    (fm' : FileManager) (h : fm.Balanced E n) (hc : Finds E fm c) (hs : fm.select c = some fm') :
    fm'.Balanced E n := by
  obtain ⟨rfl, hlevel⟩ := h
  obtain ⟨hrange, hfinds⟩ := hc
  cases hs
  have hbefore : (fm.before c).InRange := hrange
  rcases hbefore.getNextPiece c.fun_ with ⟨-, heq⟩ | ⟨i, hi, heq⟩
  · rw [heq]
    exact ⟨rfl, hlevel⟩
  · rw [heq]
    have hleast : Leftmost E fm.pri fm.pieces.length i := by
      refine ⟨hi.lt, (hfinds i hi.lt).1 hi.mem, fun j hj hE => ?_, fun j hj hE => ?_⟩
      · exact hi.le j hj ((hfinds j hj).2 hE)
      · exact hi.first j hj ((hfinds j (hj.trans hi.lt)).2 hE)
    refine ⟨length_raise i, ?_⟩
    rw [pri_raise hi.lt]
    exact hlevel.update hleast

/-- **Pieces are chosen in turn.** With all counters in range, `get_next_piece` returns the largest
`size_t` and changes nothing if no piece is eligible, and otherwise returns the first eligible
piece whose counter is least and raises that counter by one. So over any calls from counters of
zero on that find the same pieces eligible and all counters in range, the counters of any two
eligible pieces differ by at most one. -/
theorem getNextPiece_balanced (fm : FileManager) :
    (fm.InRange → ∀ fun_,
      ((∀ i < fm.pieces.length, ¬ fm.Wanted fun_ i) →
        fm.getNextPiece fun_ = (2 ^ 64 - 1, fm)) ∧
      ((∃ i < fm.pieces.length, fm.Wanted fun_ i) →
        ∃ i, Leftmost (fm.Wanted fun_) fm.pri fm.pieces.length i ∧
          fm.getNextPiece fun_ = (i, fm.raise i))) ∧
    ((∀ p ∈ fm.pieces, p.pri = 0) → ∀ E calls fm',
      Runs.Meets select (Finds E) fm calls → Runs.run select fm calls = some fm' →
      ∀ i < fm.pieces.length, E i → ∀ j < fm.pieces.length, E j → |fm'.pri i - fm'.pri j| ≤ 1) := by
  refine ⟨fun hrange fun_ => ?_, fun hzero E calls fm' hmeets hrun i hi hEi j hj hEj => ?_⟩
  · rcases hrange.getNextPiece fun_ with ⟨hnone, heq⟩ | ⟨i, hi, heq⟩
    · refine ⟨fun _ => heq, ?_⟩
      rintro ⟨i, hi, hw⟩
      exact absurd hw (hnone i hi)
    · exact ⟨fun hnone => absurd hi.mem (hnone i hi.lt), fun _ => ⟨i, hi, heq⟩⟩
  · have hpri : ∀ i, fm.pri i = 0 := by
      intro i
      unfold FileManager.pri
      cases hp : fm.pieces[i]? with
      | none => rfl
      | some p => exact hzero p (List.mem_of_getElem? hp)
    have hstart : fm.Balanced E fm.pieces.length :=
      ⟨rfl, fun i _ _ j _ _ => by rw [hpri, hpri]; decide⟩
    obtain ⟨-, hlevel⟩ := Runs.inv_run balanced_select hstart hmeets hrun
    have h1 := hlevel i hi hEi j hj hEj
    have h2 := hlevel j hj hEj i hi hEi
    rw [abs_le]
    omega

/-- Two pieces that were never chosen. -/
def twoUntried : FileManager :=
  register (fun _ => 0) (fun _ => 0)
    { checkSum := fun _ => 0, pieceLength := 1, totalSize := 2, files := [],
      sha1sums := [fun _ => 7, fun _ => 7] } []

/-- A call for a peer that has both. -/
def anyPiece : Selection := ⟨fun _ => true, twoUntried.completedBits, twoUntried.pendingBits⟩

theorem finds_twoUntried (fm : FileManager) (h : fm.pieces.map Piece.pri ∈ [[0, 0], [1, 0], [1, 1]]) :
    Finds (fun _ => True) fm anyPiece := by
  have hlen : (fm.pieces.map Piece.pri).length = 2 ∧
      ∀ p ∈ fm.pieces.map Piece.pri, 0 ≤ p ∧ p ≤ 2 ^ 31 - 2 := by
    revert h
    generalize fm.pieces.map Piece.pri = l
    intro h
    simp only [List.mem_cons, List.not_mem_nil, or_false] at h
    rcases h with rfl | rfl | rfl <;> decide
  refine ⟨fun p hp => hlen.2 _ (List.mem_map_of_mem hp), fun i hi => iff_of_true ?_ trivial⟩
  rw [List.length_map] at hlen
  have hbit : anyPiece.completedBits.test i = false := Bitset.test_construct_zero _ _
  exact ⟨hbit, hbit, rfl⟩

/-- Three calls choose the first piece, the second one and the first one again. -/
theorem getNextPiece_balanced_two :
    (∃ i, Leftmost (twoUntried.Wanted anyPiece.fun_) twoUntried.pri 2 i ∧
      twoUntried.getNextPiece anyPiece.fun_ = (i, twoUntried.raise i)) ∧
    ∃ fm', Runs.run select twoUntried [anyPiece, anyPiece, anyPiece] = some fm' ∧
      fm'.pieces.map Piece.pri = [2, 1] ∧
      ∀ i < 2, True → ∀ j < 2, True → |fm'.pri i - fm'.pri j| ≤ 1 := by
  have hstart : Finds (fun _ => True) twoUntried anyPiece := finds_twoUntried _ (by decide)
  obtain ⟨hone, hall⟩ := getNextPiece_balanced twoUntried
  have hwanted : twoUntried.Wanted anyPiece.fun_ 0 := (hstart.2 0 (by decide)).2 trivial
  refine ⟨(hone hstart.1 anyPiece.fun_).2 ⟨0, by decide, hwanted⟩, _, rfl, by decide +kernel, ?_⟩
  refine hall (by decide) (fun _ => True) [anyPiece, anyPiece, anyPiece] _ ?_ rfl
  refine ⟨hstart, fun s hs => ?_⟩
  cases hs
  refine ⟨finds_twoUntried _ (by decide +kernel), fun s hs => ?_⟩
  cases hs
  exact ⟨finds_twoUntried _ (by decide +kernel), fun s hs => trivial⟩

end FileManager

end CTorrent
