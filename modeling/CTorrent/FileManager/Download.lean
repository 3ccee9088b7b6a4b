import CTorrent.FileManager.Completion
import CTorrent.FileManager.Layout

/-!
# A whole download

Consistent metainfo cuts the flat array of the files into pieces, of which the last may be short.
If the digest check accepts for each index only the original content of that piece, then whatever
is queued is original content, the worker stores it at its place, and a store into one piece does
not meet another.

* `Consistent`: what is assumed of the metainfo; `Tiled`: as much as the piece lengths need;
* `pieceLen`, `pieceLength_eq`: the piece lengths;
* `DownloadInv`: completed pieces hold their original content;
* `download_correct`: the runs of `writePieceBlock` and the worker, in any interleaving.
-/

namespace CTorrent

open Splice

/-- Metainfo whose pieces tile the total size and whose files follow each other. -/
structure Consistent (m : TorrentMeta) : Prop where
  pieceLength_pos : 0 < m.pieceLength
  total_pos : 0 < m.totalSize
  total_lt : m.totalSize < 2 ^ 62
  count_eq : m.sha1sums.length = (m.totalSize + m.pieceLength - 1) / m.pieceLength
  count_lt : m.sha1sums.length < 2 ^ 31
  laidOut : LaidOut m.files 0 m.totalSize

/-- The length of a piece. -/
def pieceLen (m : TorrentMeta) (i : ℕ) : ℕ := min m.pieceLength (m.totalSize - i * m.pieceLength)

/-- A piece ends before the next one begins. -/
theorem piece_end_le_next {m : TorrentMeta} {i j : ℕ} (hij : i < j) :
    i * m.pieceLength + pieceLen m i ≤ j * m.pieceLength :=
  calc i * m.pieceLength + pieceLen m i
      ≤ i * m.pieceLength + m.pieceLength := Nat.add_le_add_left (Nat.min_le_left _ _) _
    _ = (i + 1) * m.pieceLength := by rw [Nat.add_mul, Nat.one_mul]
    _ ≤ j * m.pieceLength := Nat.mul_le_mul_right _ hij

/-- The lengths of the first pieces add up to the bytes below the next one. -/
theorem sum_pieceLen (m : TorrentMeta) (k : ℕ) :
    ((List.range k).map (pieceLen m)).sum = min (k * m.pieceLength) m.totalSize := by
  induction k with
  | zero => simp
  | succ k ih =>
    rw [List.range_succ, List.map_append, List.sum_append, ih, List.map_singleton,
      List.sum_singleton, pieceLen, Nat.add_mul, Nat.one_mul]
    omega

/-- Metainfo whose pieces tile a total size that is a `size_t`. -/
structure Tiled (m : TorrentMeta) : Prop where
  pieceLength_pos : 0 < m.pieceLength
  total_pos : 0 < m.totalSize
  total_lt : m.totalSize < 2 ^ 64
  count_eq : m.sha1sums.length = (m.totalSize + m.pieceLength - 1) / m.pieceLength

namespace Tiled

variable {m : TorrentMeta} (h : Tiled m) {i : ℕ}

include h

/-- A piece begins below the total size exactly if its index is in range. -/
theorem lt_count_iff : i < m.sha1sums.length ↔ i * m.pieceLength < m.totalSize := by
  have hP := h.pieceLength_pos
  rw [h.count_eq, Nat.lt_iff_add_one_le, Nat.le_div_iff_mul_le hP, Nat.add_mul, Nat.one_mul]
  omega

theorem count_pos : 0 < m.sha1sums.length :=
  h.lt_count_iff.2 (by rw [Nat.zero_mul]; exact h.total_pos)

theorem total_le (hi : m.sha1sums.length ≤ i) : m.totalSize ≤ i * m.pieceLength :=
  Nat.not_lt.1 fun hlt => Nat.not_lt.2 hi (h.lt_count_iff.2 hlt)

/-- No piece is empty, so there are no more pieces than bytes. -/
theorem count_le : m.sha1sums.length ≤ m.totalSize := by
  have hpos := h.count_pos
  have hlast : (m.sha1sums.length - 1) * m.pieceLength < m.totalSize :=
    h.lt_count_iff.1 (by omega)
  have hle := Nat.le_mul_of_pos_right (m.sha1sums.length - 1) h.pieceLength_pos
  omega

theorem piece_end_le (hi : i < m.sha1sums.length) :
    i * m.pieceLength + pieceLen m i ≤ m.totalSize := by
  have := h.lt_count_iff.1 hi
  rw [pieceLen]
  omega

theorem pieceLen_pos (hi : i < m.sha1sums.length) : 0 < pieceLen m i := by
  have := h.lt_count_iff.1 hi
  have := h.pieceLength_pos
  rw [pieceLen]
  omega

/-- A piece before the last one has the full length. -/
theorem pieceLen_eq (hi : i + 1 < m.sha1sums.length) : pieceLen m i = m.pieceLength := by
  have hnext := h.lt_count_iff.1 hi
  rw [Nat.add_one_mul] at hnext
  exact Nat.min_eq_left (by omega)

/-- The remainder in `last_piece_length`. -/
theorem total_mod (hi : i < m.sha1sums.length) (hlast : ¬ i + 1 < m.sha1sums.length) :
    m.totalSize % m.pieceLength =
      if pieceLen m i = m.pieceLength then 0 else pieceLen m i := by
  rw [h.lt_count_iff] at hi hlast
  rw [Nat.add_mul, Nat.one_mul] at hlast
  have hsplit : m.totalSize = pieceLen m i + i * m.pieceLength := by rw [pieceLen]; omega
  rw [hsplit, Nat.add_mul_mod_self_right]
  split_ifs with hfull
  · rw [hfull, Nat.mod_self]
  · exact Nat.mod_eq_of_lt (lt_of_le_of_ne (Nat.min_le_left _ _) hfull)

/-- `piece_length` on the indices in range, before the conversion back to a `size_t`. -/
theorem pieceLength_eq {fm : FileManager} (hm : fm.metainfo = m)
    (hN : fm.pieces.length = m.sha1sums.length) (hi : i < m.sha1sums.length) :
    fm.pieceLength i = some (toInt64 (pieceLen m i)) := by
  have hcount := h.count_le
  have htotal := h.total_lt
  have hP := h.pieceLength_pos
  rw [FileManager.pieceLength, hm, hN, sub64_of_le (by omega) (by omega)]
  split_ifs with hlast
  · have hmod := h.total_mod hi (by omega)
    rw [FileManager.lastPieceLength, hm, if_neg (by omega), hmod]
    split_ifs with hfull
    · rw [if_neg (by decide), hfull]
    · have hpos := h.pieceLen_pos hi
      have hle := h.piece_end_le hi
      rw [if_pos]
      rw [toInt64]
      split_ifs <;> omega
  · rw [h.pieceLen_eq (by omega)]

theorem pieceSize_eq {fm : FileManager} (hm : fm.metainfo = m)
    (hN : fm.pieces.length = m.sha1sums.length) (hi : i < m.sha1sums.length) :
    fm.pieceSize i = some (pieceLen m i) := by
  have hle := h.piece_end_le hi
  have htotal := h.total_lt
  rw [FileManager.pieceSize, h.pieceLength_eq hm hN hi, Option.map_some,
    toSize_toInt64 (by omega)]

end Tiled

namespace Consistent

variable {m : TorrentMeta} (h : Consistent m) {i : ℕ}

include h

theorem tiled : Tiled m where
  pieceLength_pos := h.pieceLength_pos
  total_pos := h.total_pos
  total_lt := h.total_lt.trans (by decide)
  count_eq := h.count_eq

theorem pieceLen_lt (i : ℕ) : pieceLen m i < 2 ^ 62 :=
  (Nat.min_le_right _ _).trans_lt ((Nat.sub_le _ _).trans_lt h.total_lt)

/-- `piece_length` on the indices in range. -/
theorem pieceLength_eq {fm : FileManager} (hm : fm.metainfo = m)
    (hN : fm.pieces.length = m.sha1sums.length) (hi : i < m.sha1sums.length) :
    fm.pieceLength i = some (pieceLen m i : ℤ) := by
  have hlen := h.pieceLen_lt i
  rw [h.tiled.pieceLength_eq hm hN hi, toInt64_of_lt (by omega)]

end Consistent

namespace FileManager

/-- The steps of a download: no scanning, and every `fwrite` is complete. -/
def Writes : FileManager → Action → Prop
  | _, .scan _ => False
  | _, .work wrote => Complete wrote
  | _, _ => True

variable (sha1 : Bytes → Sha1sum) (m : TorrentMeta) (orig : Bytes)

/-- The digest check accepts for each index only the original content of that piece. -/
def AcceptsOnly : Prop := ∀ i data, Passes sha1 m (i, data) →
  data = region orig (i * m.pieceLength) (pieceLen m i)

/-- What a download keeps: the files keep their places and lengths, and every completed piece
holds its original content. -/
structure DownloadInv (fm : FileManager) : Prop where
  base : Inv sha1 m fm
  info : fm.files.map TorrentFile.info = m.files
  exact : Exact fm.files
  pieces : ∀ i < m.sha1sums.length, fm.completedBits.test i = true →
    region (flat fm.files) (i * m.pieceLength) (pieceLen m i) =
      region orig (i * m.pieceLength) (pieceLen m i)

variable {sha1 m orig} {fm fm' : FileManager}

/-- A step that changes neither the files nor the completed bits. -/
theorem DownloadInv.of_eq (h : DownloadInv sha1 m orig fm) (hb : Inv sha1 m fm')
    (hf : fm'.files = fm.files) (hc : fm'.completedBits = fm.completedBits) :
    DownloadInv sha1 m orig fm' :=
  ⟨hb, hf ▸ h.info, hf ▸ h.exact, by rw [hf, hc]; exact h.pieces⟩

theorem check_frame {index : ℕ} {data : Bytes} {ok : Bool}
    (hr : fm.check sha1 index data = some (ok, fm')) :
    fm'.files = fm.files ∧ fm'.completedBits = fm.completedBits := by
  obtain ⟨ok', -, he⟩ := Option.map_eq_some_iff.1 hr
  rw [← (Prod.mk.inj he).2]
  split_ifs <;> exact ⟨rfl, rfl⟩

theorem writeCheck_frame {index from_ : ℕ} {data : Bytes} {ok : Bool}
    (hr : fm.writeCheck sha1 index from_ data = some (ok, fm')) :
    fm'.files = fm.files ∧ fm'.completedBits = fm.completedBits := by
  rw [writeCheck] at hr
  split_ifs at hr
  · cases hr
    exact ⟨rfl, rfl⟩
  · obtain ⟨⟨ok', fm1⟩, hc, he⟩ := Option.map_eq_some_iff.1 hr
    have hframe := check_frame hc
    rw [← (Prod.mk.inj he).2]
    split_ifs <;> exact hframe

theorem writePush_frame {n : ℕ} (hr : fm.writePush n = some fm') :
    fm'.files = fm.files ∧ fm'.completedBits = fm.completedBits := by
  obtain ⟨w, -, rfl⟩ := Option.map_eq_some_iff.1 hr
  exact ⟨rfl, rfl⟩

section

variable (hm : Consistent m) (ho : orig.length = m.totalSize) (ha : AcceptsOnly sha1 m orig)

include hm ho ha

/-- Serving an accepted request stores the original content of its piece. -/
theorem processWrite_stores (h : DownloadInv sha1 m orig fm) {wrote : TorrentFileInfo → ℕ → ℕ}
    (hw : Complete wrote) {w : WriteRequest} (hp : Passes sha1 m (w.index, w.data)) :
    w.index < m.sha1sums.length ∧ w.data.length = pieceLen m w.index ∧
      Stores fm.files (fm.processWrite wrote w).files
        (overwrite (flat fm.files) (w.index * m.pieceLength) w.data) := by
  have hi : w.index < m.sha1sums.length := by
    obtain ⟨s, hs, -⟩ := hp
    exact (List.getElem?_eq_some_iff.1 hs).1
  have hend := hm.tiled.piece_end_le hi
  have hlen : w.data.length = pieceLen m w.index := by
    rw [ha _ _ hp, length_region (by omega)]
  have h62 := hm.total_lt
  refine ⟨hi, hlen, ?_⟩
  have hs := writeLoop_spec hw w.data (h.info ▸ hm.laidOut) h.exact h62
    (Nat.zero_le (w.index * m.pieceLength)) (by omega)
  rw [processWrite, complete, h.base.metainfo, Nat.mod_eq_of_lt (by omega)]
  exact hs

/-- One pass of the worker. -/
theorem downloadInv_work (h : DownloadInv sha1 m orig fm) {wrote : TorrentFileInfo → ℕ → ℕ}
    (hw : Complete wrote) (hr : fm.work wrote = some fm') : DownloadInv sha1 m orig fm' := by
  have hbase := inv_work h.base hr
  rw [work] at hr
  cases hq : fm.writeRequests with
  | nil =>
    rw [hq] at hr
    cases hr
  | cons w ws =>
    rw [hq] at hr
    cases hr
    have hp : Passes sha1 m (w.index, w.data) := (h.base.accepted w (by simp [hq])).2
    obtain ⟨hi, hlen, hs⟩ := processWrite_stores hm ho ha h hw hp
    have hend := hm.tiled.piece_end_le hi
    have hflat := length_flat (h.info ▸ hm.laidOut) h.exact
    refine ⟨hbase, hs.info.trans h.info, hs.exact, fun i hiN ht => ?_⟩
    simp only [hs.flat]
    have hcount := hm.count_lt
    by_cases hiw : i = w.index
    · rw [hiw, ← hlen, region_overwrite_self (by omega), hlen]
      exact ha _ _ hp
    · -- the bit of another piece was set before, and the store does not meet that piece
      have hold : fm.completedBits.test i = true := by
        rw [processWrite, complete, Bitset.test_set, Bool.or_eq_true, decide_eq_true_iff] at ht
        rcases ht with ht | ht
        · rw [Nat.mod_eq_of_lt (by omega), Nat.mod_eq_of_lt (by omega)] at ht
          exact absurd ht.symm hiw
        · exact ht
      rw [region_overwrite_of_disjoint (by omega), h.pieces i hiN hold]
      rw [hlen]
      rcases Nat.lt_or_gt_of_ne hiw with hlt | hgt
      · exact Or.inl (piece_end_le_next hlt)
      · exact Or.inr (piece_end_le_next hgt)

theorem downloadInv_step (fm : FileManager) (a : Action) (fm' : FileManager)
    (h : DownloadInv sha1 m orig fm) (hw : Writes fm a) (hr : step sha1 fm a = some fm') :
    DownloadInv sha1 m orig fm' := by
  have hbase := inv_step fm a fm' h.base hr
  cases a with
  | scan stack => exact hw.elim
  | check index from_ data =>
    obtain ⟨⟨ok, fm1⟩, hc, rfl⟩ := Option.map_eq_some_iff.1 hr
    obtain ⟨hf, hb⟩ := writeCheck_frame hc
    exact h.of_eq hbase hf hb
  | push n =>
    obtain ⟨hf, hb⟩ := writePush_frame hr
    exact h.of_eq hbase hf hb
  | work wrote => exact downloadInv_work hm ho ha h hw hr

omit ha in
/-- When every piece is completed, the files are the original array. -/
theorem DownloadInv.flat_eq (h : DownloadInv sha1 m orig fm)
    (hall : ∀ i < m.sha1sums.length, fm.completedBits.test i = true) :
    flat fm.files = orig := by
  have hflat := length_flat (h.info ▸ hm.laidOut) h.exact
  refine ext_of_blocks hm.pieceLength_pos (by omega) fun i hi => ?_
  have hiN : i < m.sha1sums.length := hm.tiled.lt_count_iff.2 (by omega)
  have hcut : ∀ l : Bytes, l.length = m.totalSize →
      region l (i * m.pieceLength) m.pieceLength =
        region l (i * m.pieceLength) (pieceLen m i) := by
    intro l hl
    rw [region, region, pieceLen, ← hl, ← List.length_drop, ← List.take_take,
      List.take_length]
  rw [hcut _ (by omega), hcut _ ho]
  exact h.pieces i hiN (hall i hiN)

/-- **Whole-download correctness.** In every run of `writePieceBlock` calls and worker steps from
an empty completed set, every completed piece of the concatenated files is the original one; and
when all pieces are completed, so is the content of every file. -/
theorem download_correct (heap heap' : ℤ → UInt8) {files : List TorrentFile}
    (hf : files.map TorrentFile.info = m.files) (he : Exact files) {as : List Action}
    (hw : Runs.Meets (step sha1) Writes (register heap heap' m files) as)
    (hr : Runs.run (step sha1) (register heap heap' m files) as = some fm) :
    (∀ i < m.sha1sums.length, fm.completedBits.test i = true →
      ∃ length, fm.pieceSize i = some length ∧
        region (flat fm.files) (i * m.pieceLength) length =
          region orig (i * m.pieceLength) length) ∧
    ((∀ i < m.sha1sums.length, fm.completedBits.test i = true) →
      fm.files.map TorrentFile.info = m.files ∧
      ∀ f ∈ fm.files, f.fp.content = region orig f.info.begin f.info.length) := by
  have hstart : DownloadInv sha1 m orig (register heap heap' m files) :=
    ⟨inv_register heap heap' m files, hf, he, fun i hi ht => by
      rw [register, Bitset.test_construct heap hi (hi.trans hm.count_lt)] at ht
      cases ht⟩
  have h := Runs.inv_run (downloadInv_step hm ho ha) hstart hw hr
  have hN : fm.pieces.length = m.sha1sums.length := by
    rw [← h.base.hashes, List.length_map]
  refine ⟨fun i hi ht => ⟨_, hm.tiled.pieceSize_eq h.base.metainfo hN hi, h.pieces i hi ht⟩,
    fun hall => ⟨h.info, fun f hmem => ?_⟩⟩
  obtain ⟨-, hcontent⟩ := content_eq_region (h.info ▸ hm.laidOut) h.exact hmem
  rw [hcontent, h.flat_eq hm ho hall, Nat.sub_zero]

end

/-- A hash function that gives the byte 5 the words 7. -/
def fiveSha1 (data : Bytes) : Sha1sum := fun _ => if data = [5] then 7 else 0

/-- A torrent of two files and three pieces. The second piece is in both files, and the last one is
short. -/
def threePieces : TorrentMeta where
  checkSum := fun _ => 0
  pieceLength := 2
  totalSize := 5
  files := [⟨[97], 0, 0, 3⟩, ⟨[98], 1, 3, 2⟩]
  sha1sums := [fun _ => 1, fun _ => 3, fun _ => 5]

/-- A hash function that gives each of its pieces the first byte in all words. -/
def threePiecesSha1 (data : Bytes) : Sha1sum := fun _ =>
  if data = [1, 2] then 1 else if data = [3, 4] then 3 else if data = [5] then 5 else 0

/-- Its files before the download. -/
def threePiecesDisk : List TorrentFile :=
  [⟨⟨[0, 0, 0], 0⟩, ⟨[97], 0, 0, 3⟩⟩, ⟨⟨[0, 0], 0⟩, ⟨[98], 1, 3, 2⟩⟩]

theorem consistent_threePieces : Consistent threePieces where
  pieceLength_pos := by decide
  total_pos := by decide
  total_lt := by decide
  count_eq := by decide
  count_lt := by decide
  laidOut := ⟨rfl, rfl, rfl⟩

theorem acceptsOnly_threePieces : AcceptsOnly threePiecesSha1 threePieces [1, 2, 3, 4, 5] := by
  have hword : ∀ (data : Bytes) (w : UInt32), w ≠ 0 → threePiecesSha1 data 0 = w →
      data = [1, 2] ∧ w = 1 ∨ data = [3, 4] ∧ w = 3 ∨ data = [5] ∧ w = 5 := by
    intro data w hw h
    unfold threePiecesSha1 at h
    split_ifs at h with h1 h3 h5
    · exact Or.inl ⟨h1, h.symm⟩
    · exact Or.inr (Or.inl ⟨h3, h.symm⟩)
    · exact Or.inr (Or.inr ⟨h5, h.symm⟩)
    · exact absurd h.symm hw
  rintro i data ⟨s, hs, hp⟩
  obtain ⟨h0, -⟩ := (memcmpEq_five_iff _ _).1 hp
  match i, hs with
  | 0, hs =>
    cases hs
    obtain ⟨rfl, -⟩ | ⟨-, hw⟩ | ⟨-, hw⟩ := hword data 1 (by decide) h0
    · rfl
    · exact absurd hw (by decide)
    · exact absurd hw (by decide)
  | 1, hs =>
    cases hs
    obtain ⟨-, hw⟩ | ⟨rfl, -⟩ | ⟨-, hw⟩ := hword data 3 (by decide) h0
    · exact absurd hw (by decide)
    · rfl
    · exact absurd hw (by decide)
  | 2, hs =>
    cases hs
    obtain ⟨-, hw⟩ | ⟨-, hw⟩ | ⟨rfl, -⟩ := hword data 5 (by decide) h0
    · exact absurd hw (by decide)
    · exact absurd hw (by decide)
    · rfl

/-- Two calls of `writePieceBlock` before the worker's first step, and one behind. -/
def receiveThree : List Action :=
  let wrote : TorrentFileInfo → ℕ → ℕ := fun _ n => n
  [.check 2 0 [5], .check 0 0 [1, 2], .push 1, .push 0, .work wrote, .work wrote,
    .check 1 0 [3, 4], .push 0, .work wrote]

theorem writes_receiveThree (files : List TorrentFile) :
    Runs.Meets (step threePiecesSha1) Writes
      (register (fun _ => 0) (fun _ => 0) threePieces files) receiveThree := by
  have hcomplete : Complete fun _ n => n := fun _ _ => Nat.le_refl _
  exact ⟨trivial, fun _ _ => ⟨trivial, fun _ _ => ⟨trivial, fun _ _ => ⟨trivial, fun _ _ =>
    ⟨hcomplete, fun _ _ => ⟨hcomplete, fun _ _ => ⟨trivial, fun _ _ => ⟨trivial, fun _ _ =>
      ⟨hcomplete, fun _ _ => trivial⟩⟩⟩⟩⟩⟩⟩⟩⟩

theorem download_correct_receiveThree : ∃ fm, Runs.run (step threePiecesSha1)
      (register (fun _ => 0) (fun _ => 0) threePieces threePiecesDisk) receiveThree = some fm ∧
    fm.files.map TorrentFile.info = threePieces.files ∧
    ∀ f ∈ fm.files, f.fp.content = region [1, 2, 3, 4, 5] f.info.begin f.info.length := by
  have hrun : (Runs.run (step threePiecesSha1)
      (register (fun _ => 0) (fun _ => 0) threePieces threePiecesDisk) receiveThree).map
      (fun fm => (List.range 3).all fm.completedBits.test) = some true := by
    decide +kernel
  obtain ⟨fm, hfm, hall⟩ := Option.map_eq_some_iff.1 hrun
  refine ⟨fm, hfm, (download_correct consistent_threePieces rfl acceptsOnly_threePieces (fun _ => 0)
    (fun _ => 0) rfl (by simp [Exact, threePiecesDisk]) (writes_receiveThree _) hfm).2
    fun i hi => ?_⟩
  exact List.all_eq_true.1 hall i (List.mem_range.2 hi)

end FileManager

end CTorrent
