import CTorrent.FileManager.Download
import CTorrent.Peer.Peer
import Mathlib.Algebra.BigOperators.Group.Finset.Basic
import Mathlib.Algebra.Order.BigOperators.Group.Finset

/-!
# What a tracker is told

`compute_downloaded` adds the length of each completed piece but the last in a loop, behind which
`i` is the index of the last piece. The test behind the loop is made on `i + 1`, the first index out
of range, whose bit is never set: the last piece is never counted.

* `computeDownloaded` gives the number of bytes and, for the proofs, the indices that it tests;
* `CompletedAre`: the bits of a set of completed pieces, those of every run;
* `makeTrackerQuery_spec`: the last piece is missing from the sum, and something always remains.
-/

namespace CTorrent

open Finset

namespace FileManager

variable (fm : FileManager)

/-- A pass of the loop of `compute_downloaded`. -/
def addPiece (s : ℕ × List ℕ) (i : ℕ) : ℕ × List ℕ :=
  (if fm.completedBits.test i then (s.1 + fm.metainfo.pieceLength) % 2 ^ 64 else s.1, s.2 ++ [i])

/-- The test behind the loop, of the bit `next`. -/
def addLast (s : ℕ × List ℕ) (next : ℕ) : Option (ℕ × List ℕ) :=
  if fm.completedBits.test next then
    fm.lastPieceLength.map fun length => ((s.1 + toSize length) % 2 ^ 64, s.2 ++ [next])
  else some (s.1, s.2 ++ [next])

/-- `compute_downloaded`: the bytes, and the indices that are tested. -/
def computeDownloaded : Option (ℕ × List ℕ) :=
  let i := sub64 fm.pieces.length 1
  fm.addLast ((List.range i).foldl fm.addPiece (0, [])) ((i + 1) % 2 ^ 64)

/-- The completed bits are those of the pieces `S`, set one after the other. -/
def CompletedAre (S : Finset ℕ) : Prop :=
  (∀ i ∈ S, i < fm.pieces.length) ∧ ∃ (heap : ℤ → UInt8) (l : List ℕ), l.toFinset = S ∧
    fm.completedBits = l.foldl Bitset.set (Bitset.construct heap fm.pieces.length)

/-! ### The bits of a run -/

/-- The completed bits were set one after the other for the recorded completions. -/
def BitsRecorded (heap : ℤ → UInt8) : Prop :=
  fm.completedBits = (fm.completions.map Prod.fst).foldl Bitset.set
    (Bitset.construct heap fm.pieces.length)

section Runs

variable {sha1 : Bytes → Sha1sum} {fm} {fm' : FileManager} {heap : ℤ → UInt8}

theorem BitsRecorded.complete (h : fm.BitsRecorded heap) (index : ℕ) (data : Bytes) :
    (fm.complete index data).BitsRecorded heap := by
  unfold BitsRecorded at h ⊢
  simp only [FileManager.complete, List.map_append, List.foldl_append, ← h]
  rfl

theorem BitsRecorded.check (h : fm.BitsRecorded heap) {index : ℕ} {data : Bytes} {ok : Bool}
    (hr : fm.check sha1 index data = some (ok, fm')) : fm'.BitsRecorded heap := by
  obtain ⟨ok', -, he⟩ := Option.map_eq_some_iff.1 hr
  obtain ⟨-, rfl⟩ := Prod.mk.inj he
  split_ifs
  · exact h
  · exact h

theorem BitsRecorded.completeIfEligible (h : fm.BitsRecorded heap) {index : ℕ} {data : Bytes}
    (hr : fm.completeIfEligible sha1 index data = some fm') : fm'.BitsRecorded heap := by
  obtain ⟨⟨ok, fm1⟩, hc, rfl⟩ := Option.map_eq_some_iff.1 hr
  have h1 := h.check hc
  cases ok with
  | true => exact h1.complete index data
  | false => exact h1

/-- Every step of the file manager keeps the record. -/
theorem bitsRecorded_step (fm : FileManager) (a : Action) (fm' : FileManager)
    (h : fm.BitsRecorded heap) (hr : step sha1 fm a = some fm') : fm'.BitsRecorded heap := by
  cases a with
  | scan stack =>
    exact scanPieces_induct (I := fun fm => fm.BitsRecorded heap) (fun _ _ _ _ h _ _ => h)
      (fun _ _ _ _ h hr => h.completeIfEligible hr) h hr
  | check index from_ data =>
    obtain ⟨⟨ok, fm1⟩, hc, rfl⟩ := Option.map_eq_some_iff.1 hr
    rw [writeCheck] at hc
    split_ifs at hc
    · cases hc
      exact h
    · obtain ⟨⟨ok', fm2⟩, hcheck, he⟩ := Option.map_eq_some_iff.1 hc
      obtain ⟨-, rfl⟩ := Prod.mk.inj he
      have h2 := h.check hcheck
      cases ok' with
      | true => exact h2
      | false => exact h2
  | push n =>
    obtain ⟨w, -, rfl⟩ := Option.map_eq_some_iff.1 hr
    exact h
  | work wrote =>
    rw [step, work] at hr
    cases hq : fm.writeRequests with
    | nil =>
      rw [hq] at hr
      cases hr
    | cons w ws =>
      rw [hq] at hr
      cases hr
      unfold BitsRecorded at h ⊢
      simp only [processWrite, FileManager.complete, List.map_append, List.foldl_append, ← h]
      rfl

/-- In every state that a run reaches, the completed bits are those of a set of pieces. -/
theorem completedAre_run (heap heap' : ℤ → UInt8) (m : TorrentMeta) (files : List TorrentFile)
    {as : List Action} (hr : Runs.run (step sha1) (register heap heap' m files) as = some fm) :
    fm.CompletedAre (fm.completions.map Prod.fst).toFinset := by
  have hinv := inv_run heap heap' files hr
  have hbits : fm.BitsRecorded heap :=
    Runs.inv_run_of_step (I := fun fm => fm.BitsRecorded heap) bitsRecorded_step
      (by simp [BitsRecorded, register]) hr
  refine ⟨fun i hi => ?_, heap, _, rfl, hbits⟩
  obtain ⟨c, hc, rfl⟩ := List.mem_map.1 (List.mem_toFinset.1 hi)
  obtain ⟨-, s, hs, -⟩ := hinv.completed c hc
  have hlt := (List.getElem?_eq_some_iff.1 hs).1
  rw [← hinv.hashes, List.length_map] at hlt
  exact hlt

end Runs

/-! ### The sum -/

section Sum

variable {fm} {S : Finset ℕ}

/-- A bit of the allocation is set exactly if its piece is completed. -/
theorem CompletedAre.test_iff (h : fm.CompletedAre S) (hN : fm.pieces.length < 2 ^ 31) {i : ℕ}
    (hi : i / 8 < fm.pieces.length) (h31 : i < 2 ^ 31) :
    fm.completedBits.test i = true ↔ i ∈ S := by
  obtain ⟨hlt, heap, l, rfl, hbits⟩ := h
  rw [hbits, Bitset.test_foldl_set, Bitset.test_construct_of_div heap hi h31, List.mem_toFinset]
  constructor
  · rintro (⟨j, hj, hmod⟩ | hf)
    · have := hlt j (List.mem_toFinset.2 hj)
      rwa [show i = j by omega]
    · cases hf
  · intro hmem
    exact Or.inl ⟨i, hmem, rfl⟩

/-- The lengths of the pieces of a set add up to no more than the bytes below its bound. -/
theorem sum_pieceLen_le (m : TorrentMeta) {k : ℕ} (hS : ∀ i ∈ S, i < k) :
    ∑ i ∈ S, pieceLen m i ≤ min (k * m.pieceLength) m.totalSize := by
  have hsub : S ⊆ Finset.range k := fun i hi => Finset.mem_range.2 (hS i hi)
  calc ∑ i ∈ S, pieceLen m i
      ≤ ∑ i ∈ Finset.range k, pieceLen m i := Finset.sum_le_sum_of_subset hsub
    _ = min (k * m.pieceLength) m.totalSize := by
        rw [← sum_pieceLen, ← List.toFinset_range, List.sum_toFinset _ List.nodup_range]

theorem filter_lt_succ_of_mem {k : ℕ} (hk : k ∈ S) :
    S.filter (· < k + 1) = insert k (S.filter (· < k)) := by
  ext i
  simp only [Finset.mem_filter, Finset.mem_insert]
  constructor
  · rintro ⟨hi, hlt⟩
    by_cases hik : i = k
    · exact Or.inl hik
    · exact Or.inr ⟨hi, by omega⟩
  · rintro (rfl | ⟨hi, hlt⟩)
    · exact ⟨hk, by omega⟩
    · exact ⟨hi, by omega⟩

theorem filter_lt_succ_of_notMem {k : ℕ} (hk : k ∉ S) :
    S.filter (· < k + 1) = S.filter (· < k) := by
  ext i
  simp only [Finset.mem_filter]
  refine and_congr_right fun hi => ?_
  have hne : i ≠ k := fun he => hk (he ▸ hi)
  omega

variable (hc : Consistent fm.metainfo) (hN : fm.pieces.length = fm.metainfo.sha1sums.length)
include hc hN

/-- The loop adds up the lengths of the completed pieces below `k`, the last one apart. -/
theorem foldl_addPiece (h : fm.CompletedAre S) {k : ℕ} (hk : k < fm.pieces.length) :
    (List.range k).foldl fm.addPiece (0, []) =
      (∑ i ∈ S.filter (· < k), pieceLen fm.metainfo i, List.range k) := by
  have hcount := hc.count_lt
  induction k with
  | zero => simp
  | succ k ih =>
    have hbound := sum_pieceLen_le fm.metainfo (S := S.filter (· < k + 1)) (k := k + 1)
      fun i hi => (Finset.mem_filter.1 hi).2
    have htotal := hc.total_lt
    have hnext : (k + 1) * fm.metainfo.pieceLength < fm.metainfo.totalSize :=
      hc.tiled.lt_count_iff.1 (hN ▸ hk)
    have hfull : pieceLen fm.metainfo k = fm.metainfo.pieceLength := by
      rw [Nat.add_mul, Nat.one_mul] at hnext
      exact Nat.min_eq_left (by omega)
    rw [List.range_succ, List.foldl_append, ih (by omega), List.foldl_cons, List.foldl_nil,
      addPiece]
    congr 1
    by_cases hmem : k ∈ S
    · rw [if_pos ((h.test_iff (by omega) (by omega) (by omega)).2 hmem)]
      rw [filter_lt_succ_of_mem hmem, Finset.sum_insert (by simp), hfull] at hbound ⊢
      rw [Nat.add_comm, Nat.mod_eq_of_lt (by omega)]
    · rw [if_neg (fun ht => hmem ((h.test_iff (by omega) (by omega) (by omega)).1 ht)),
        filter_lt_succ_of_notMem hmem]

/-- **What `compute_downloaded` computes.** It tests the bits of all indices but the last, and the
bit behind the last; the last piece is not counted. -/
theorem computeDownloaded_eq (h : fm.CompletedAre S) : fm.computeDownloaded =
    some (∑ i ∈ S.erase (fm.pieces.length - 1), pieceLen fm.metainfo i,
      List.range (fm.pieces.length - 1) ++ [fm.pieces.length]) := by
  have hcount := hc.count_lt
  have hpos : 0 < fm.pieces.length := hN ▸ hc.tiled.count_pos
  have herase : S.filter (· < fm.pieces.length - 1) = S.erase (fm.pieces.length - 1) := by
    ext i
    rw [Finset.mem_filter, Finset.mem_erase]
    constructor
    · rintro ⟨hi, hlt⟩
      exact ⟨by omega, hi⟩
    · rintro ⟨hne, hi⟩
      have := h.1 i hi
      exact ⟨hi, by omega⟩
  have hnot : fm.pieces.length ∉ S := fun hmem => Nat.lt_irrefl _ (h.1 _ hmem)
  have hnext : (fm.pieces.length - 1 + 1) % 2 ^ 64 = fm.pieces.length := by
    rw [Nat.sub_add_cancel hpos, Nat.mod_eq_of_lt (by omega)]
  have hsub : sub64 fm.pieces.length 1 = fm.pieces.length - 1 := sub64_of_le (by omega) (by omega)
  have hloop := foldl_addPiece hc hN h (k := fm.pieces.length - 1) (by omega)
  have hbit : ¬ fm.completedBits.test fm.pieces.length = true :=
    fun ht => hnot ((h.test_iff (by omega) (by omega) (by omega)).1 ht)
  rw [computeDownloaded, hsub, hloop, hnext, addLast, if_neg hbit, herase]

end Sum

end FileManager

/-- `enum class TrackerEvent`. -/
inductive TrackerEvent where
  | none
  | completed
  | started
  | stopped

/-- `struct TrackerQuery`. -/
structure TrackerQuery where
  event : TrackerEvent
  downloaded : ℕ
  uploaded : ℕ
  remaining : ℕ

namespace Torrent

variable (torrent : Torrent)

/-- `makeTrackerQuery`. -/
def makeTrackerQuery (event : TrackerEvent) : Option TrackerQuery :=
  torrent.fileManager.computeDownloaded.map fun r =>
    { event := event
      downloaded := r.1
      uploaded := torrent.uploadedBytes
      remaining := sub64 torrent.fileManager.metainfo.totalSize r.1 }

/-- The bytes of the completed pieces `S` are added up, on bits of pieces only. -/
def Accounts (S : Finset ℕ) : Prop :=
  ∃ downloaded tested, torrent.fileManager.computeDownloaded = some (downloaded, tested) ∧
    downloaded = ∑ i ∈ S, pieceLen torrent.fileManager.metainfo i ∧
    ∀ i ∈ tested, i < torrent.fileManager.pieces.length

/-- **Downloads are never accounted for.** A bit out of range is tested whatever is completed. What
is reported as downloaded is the sum over the completed pieces but for the last one, so that it is
right exactly while that piece is missing; it stays below the total size, and what remains does
not wrap around and never becomes zero. -/
theorem makeTrackerQuery_spec (hc : Consistent torrent.fileManager.metainfo)
    (hN : torrent.fileManager.pieces.length = torrent.fileManager.metainfo.sha1sums.length)
    {S : Finset ℕ} (hS : torrent.fileManager.CompletedAre S) (event : TrackerEvent) :
    ¬ torrent.Accounts S ∧
    ∃ q, torrent.makeTrackerQuery event = some q ∧
      q.downloaded = ∑ i ∈ S.erase (torrent.fileManager.pieces.length - 1),
        pieceLen torrent.fileManager.metainfo i ∧
      (q.downloaded = ∑ i ∈ S, pieceLen torrent.fileManager.metainfo i ↔
        torrent.fileManager.pieces.length - 1 ∉ S) ∧
      q.downloaded < torrent.fileManager.metainfo.totalSize ∧
      q.remaining = torrent.fileManager.metainfo.totalSize - q.downloaded ∧ 0 < q.remaining := by
  have heq := FileManager.computeDownloaded_eq hc hN hS
  have hpos : 0 < torrent.fileManager.pieces.length := hN ▸ hc.tiled.count_pos
  refine ⟨?_, ?_⟩
  · rintro ⟨downloaded, tested, hr, -, hlt⟩
    rw [heq, Option.some.injEq, Prod.mk.injEq] at hr
    have := hlt torrent.fileManager.pieces.length (by rw [← hr.2]; simp)
    omega
  · have hbound := FileManager.sum_pieceLen_le torrent.fileManager.metainfo
      (S := S.erase (torrent.fileManager.pieces.length - 1))
      (k := torrent.fileManager.pieces.length - 1) fun i hi => by
        have := hS.1 i (Finset.mem_of_mem_erase hi)
        have := Finset.ne_of_mem_erase hi
        omega
    have hlast : torrent.fileManager.pieces.length - 1 <
        torrent.fileManager.metainfo.sha1sums.length := by omega
    have hbelow := hc.tiled.lt_count_iff.1 hlast
    have htotal := hc.total_lt
    refine ⟨_, by rw [makeTrackerQuery, heq, Option.map_some], rfl, ?_, ?_, ?_, ?_⟩
    · by_cases hmem : torrent.fileManager.pieces.length - 1 ∈ S
      · have hsum := Finset.add_sum_erase S (pieceLen torrent.fileManager.metainfo) hmem
        have hlen := hc.tiled.pieceLen_pos hlast
        simp only [hmem, not_true, iff_false]
        omega
      · simp only [Finset.erase_eq_of_notMem hmem, hmem, not_false_eq_true]
    · dsimp only
      omega
    · dsimp only
      rw [sub64_of_le (by omega) (by omega)]
    · dsimp only
      rw [sub64_of_le (by omega) (by omega)]
      omega

/-- The torrent of three pieces, of which the first and the short last one are completed. -/
def threePiecesPart : Torrent where
  fileManager :=
    ((FileManager.register (fun _ => 0) (fun _ => 0) FileManager.threePieces []).complete 0
      [1, 2]).complete 2 [5]

theorem completedAre_threePiecesPart : threePiecesPart.fileManager.CompletedAre {0, 2} :=
  ⟨by decide, fun _ => 0, [0, 2], rfl, rfl⟩

theorem makeTrackerQuery_spec_threePieces :
    ¬ threePiecesPart.Accounts {0, 2} ∧
    ∃ q, threePiecesPart.makeTrackerQuery .none = some q ∧
      q.downloaded = ∑ i ∈ ({0, 2} : Finset ℕ).erase
          (threePiecesPart.fileManager.pieces.length - 1),
        pieceLen threePiecesPart.fileManager.metainfo i ∧
      (q.downloaded = ∑ i ∈ {0, 2}, pieceLen threePiecesPart.fileManager.metainfo i ↔
        threePiecesPart.fileManager.pieces.length - 1 ∉ ({0, 2} : Finset ℕ)) ∧
      q.downloaded < threePiecesPart.fileManager.metainfo.totalSize ∧
      q.remaining = threePiecesPart.fileManager.metainfo.totalSize - q.downloaded ∧
      0 < q.remaining :=
  makeTrackerQuery_spec threePiecesPart FileManager.consistent_threePieces rfl
    completedAre_threePiecesPart .none

/-- The torrent of one byte, with its piece completed. -/
def oneByteDone : Torrent where
  fileManager :=
    (FileManager.register (fun _ => 0) (fun _ => 0) FileManager.oneByte []).complete 0 [5]

/-- With its only piece completed a torrent of one byte reports that it has downloaded nothing and
that one byte remains. -/
theorem makeTrackerQuery_spec_completed :
    oneByteDone.fileManager.computeDownloaded = some (0, [1]) ∧
    (oneByteDone.makeTrackerQuery .completed).map TrackerQuery.remaining = some 1 ∧
    oneByteDone.fileManager.metainfo.totalSize = 1 ∧ ¬ oneByteDone.Accounts {0} := by
  have heq : oneByteDone.fileManager.computeDownloaded = some (0, [1]) := by decide +kernel
  refine ⟨heq, by decide +kernel, rfl, ?_⟩
  rintro ⟨downloaded, tested, hr, -, hlt⟩
  rw [heq, Option.some.injEq, Prod.mk.injEq] at hr
  exact absurd (hlt 1 (by simp [← hr.2])) (by decide)

end Torrent

end CTorrent
