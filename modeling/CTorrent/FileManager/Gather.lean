import CTorrent.FileManager.Resume

/-!
# The piece that begins in earlier files

Where a file does not begin with a piece, `scan_file` gathers the piece in which it begins from the
files before it, and tests it first. The loop over these files seeks only in the last one it comes
to; of the others it takes the streams to stand where earlier calls of `scan_file` left them. In a
torrent that is complete on disk they do: such a file lies inside the piece, and the call for it has
returned before it read anything.

* `Straddles`: a piece that begins before a file and ends in it;
* `ExactDisk`: a torrent whose files are complete; `scanFile_streaming`: a call for one of them;
* `scanPieces_gathers`: what is tested first, for every file of a scan.
-/

namespace CTorrent

open Splice

namespace FileManager

/-- A torrent of which every file has its declared length on disk. -/
structure ExactDisk (m : TorrentMeta) (files : List TorrentFile) : Prop where
  tiled : Tiled m
  laidOut : LaidOut m.files 0 m.totalSize
  info : files.map TorrentFile.info = m.files
  index : ∀ (k : ℕ) (f : TorrentFile), files[k]? = some f → f.info.index = k
  exact : Exact files
  /-- The length of a file on disk is an `off_t`. -/
  length_lt : ∀ f ∈ files, f.fp.content.length < 2 ^ 63

/-- The piece begins before the file and ends in it, with the full length. -/
structure Straddles (m : TorrentMeta) (f : TorrentFile) (i : ℕ) : Prop where
  begin_lt : i * m.pieceLength < f.info.begin
  lt_end : f.info.begin < (i + 1) * m.pieceLength
  end_le : (i + 1) * m.pieceLength ≤ f.info.end_

variable {m : TorrentMeta} {files : List TorrentFile} {f : TorrentFile}
  {fm fm' : FileManager} {k : ℕ}

theorem ExactDisk.laid (hd : ExactDisk m files) : LaidFiles files m.totalSize where
  laidOut := hd.info ▸ hd.laidOut
  index := hd.index
  length_le := fun f hf => (hd.exact f hf).le
  length_lt := fun f hf => hd.exact f hf ▸ hd.length_lt f hf

theorem ExactDisk.full (hd : ExactDisk m files) (hf : f ∈ files) : Full f := (hd.exact f hf).ge

/-- Nothing is filled up. -/
theorem image_of_exact (h : Exact files) : image files = flat files := by
  have hpadded : files.map padded = files := by
    refine (List.map_congr_left fun f hf => ?_).trans files.map_id
    rw [padded, h f hf, Nat.sub_self, List.replicate_zero, List.append_nil]
    rfl
  rw [image, hpadded]

namespace Streaming

/-- A test of a piece succeeds or not, but it does return. -/
theorem completeIfEligible (sha1 : Bytes → Sha1sum) (h : Streaming m files fm) {i : ℕ}
    (hi : i < m.sha1sums.length) (data : Bytes) :
    ∃ fm', fm.completeIfEligible sha1 i data = some fm' ∧ Streaming m files fm' := by
  rw [FileManager.completeIfEligible, check, isWriteEligible,
    List.getElem?_eq_getElem (h.length_eq ▸ hi)]
  split_ifs with hpending
  · exact ⟨fm, rfl, h⟩
  · simp only [Option.map_some]
    refine ⟨_, rfl, ?_⟩
    split_ifs
    · exact ⟨h.metainfo, h.length_eq, h.files⟩
    · exact ⟨h.metainfo, h.length_eq, h.files⟩

/-- The loop over the pieces returns. -/
theorem scanLoop (sha1 : Bytes → Sha1sum) (hk : files[k]? = some f) (fileEnd : ℕ) {count : ℕ} :
    ∀ {fm : FileManager} (buf : Bytes) (pieceBegin : ℕ) {i : ℕ}, Streaming m files fm →
      i + count ≤ m.sha1sums.length →
      ∃ fm' buf' real, FileManager.scanLoop sha1 k fileEnd count fm buf pieceBegin i =
        some (fm', buf', real) ∧ Streaming m files fm' := by
  induction count with
  | zero => exact fun buf _ _ h _ => ⟨_, buf, none, rfl, h⟩
  | succ count ih =>
    intro fm buf pieceBegin i h hcount
    rw [FileManager.scanLoop]
    split_ifs
    · exact ⟨fm, buf, some i, rfl, h⟩
    · obtain ⟨fm₁, hread, h₁, -, -⟩ := freadAt_spec h.files hk fm.metainfo.pieceLength
      simp only [hread, Option.bind_eq_bind, Option.bind_some]
      obtain ⟨fm₂, htest, h₂⟩ := (h.moved h₁).completeIfEligible sha1
        (show i < m.sha1sums.length by omega)
        (overwrite buf 0 (region f.fp.content (posAt fm k) fm.metainfo.pieceLength))
      rw [htest, Option.bind_some]
      exact ih _ _ h₂ (by omega)

/-- Behind the first test `scan_file` returns. -/
theorem scanRest (sha1 : Bytes → Sha1sum) (hd : Tiled m) (h : Streaming m files fm)
    (hk : files[k]? = some f) (fileEnd : ℕ) (buf : Bytes) (begin pieceBegin : ℕ) {pieceIndex : ℕ}
    (hi : pieceIndex ≤ m.sha1sums.length) :
    ∃ fm', FileManager.scanRest sha1 k fileEnd fm buf begin pieceBegin pieceIndex = some fm' ∧
      Streaming m files fm' := by
  have hpos := hd.count_pos
  have hcount := hd.count_le
  have htotal := hd.total_lt
  have hP := hd.pieceLength_pos
  obtain ⟨g, hg, -, -⟩ := getElem?_of_snapshot h.files hk
  have hseek : fm.fseekAt k (sub64 pieceBegin begin) =
      some (fm.setFp k (g.fp.fseek (sub64 pieceBegin begin))) := by rw [fseekAt, hg]; rfl
  have h₁ := h.moved (.setFp hg (FILE.content_fseek g.fp (sub64 pieceBegin begin)))
  obtain ⟨fm₂, buf₂, real, hloop, h₂⟩ := scanLoop sha1 hk fileEnd buf pieceBegin h₁
    (show pieceIndex + (m.sha1sums.length - 1 - pieceIndex) ≤ m.sha1sums.length by omega)
  rw [FileManager.scanRest, h.length_eq, sub64_of_le (by omega) hpos]
  simp only [hseek, hloop, Option.bind_eq_bind, Option.bind_some]
  split_ifs with hlast
  · obtain ⟨length, hlength⟩ : ∃ length, fm₂.lastPieceLength = some length := by
      rw [lastPieceLength, h₂.metainfo, if_neg hP.ne']
      dsimp only
      split_ifs
      · exact ⟨_, rfl⟩
      · exact ⟨_, rfl⟩
    obtain ⟨fm₃, hread, h₃, -, -⟩ := freadAt_spec h₂.files hk (toSize length)
    simp only [hlength, hread, Option.bind_some]
    exact (h₂.moved h₃).completeIfEligible sha1 (by omega) _
  · exact ⟨fm₂, rfl, h₂⟩

end Streaming

/-- A call of `scan_file` returns, and leaves the streams as the next one needs them. -/
theorem scanFile_streaming (sha1 : Bytes → Sha1sum) (hd : ExactDisk m files)
    (hk : files[k]? = some f) (stack : ℕ → UInt8) (h : Streaming m files fm)
    (hrew : Rewound m files k f.info.begin fm) :
    ∃ fm', scanFile sha1 stack fm k = some fm' ∧ Streaming m files fm' ∧
      Rewound m files (k + 1) f.info.end_ fm' := by
  have hP := hd.tiled.pieceLength_pos
  have hend := hd.laid.end_le (List.mem_of_getElem? hk)
  have hbegin : f.info.begin ≤ f.info.end_ := Nat.le_add_right _ _
  obtain ⟨fm₁, start, hstart, hmoved, hstarts, hrew₁⟩ :=
    startFile_spec hd.tiled hd.laid hk stack h hrew
  have h₁ := h.moved hmoved
  rw [scanFile_eq, hstart, Option.bind_some]
  generalize pieceOf f.info.begin m.pieceLength = i at hstarts
  cases hstarts with
  | returned hnone => exact ⟨fm₁, rfl, h₁, hrew₁.elim And.right fun hall => hall fm₁⟩
  | aligned buf hfull hbuf halign hle =>
    obtain ⟨hreturned, -⟩ | hstreams := hrew₁
    · cases hreturned
    have hcount : i ≤ m.sha1sums.length := by
      by_contra hgt
      have hlast := hd.tiled.total_le (le_refl m.sha1sums.length)
      have hmul := Nat.mul_le_mul_right m.pieceLength (show m.sha1sums.length + 1 ≤ i by omega)
      rw [Nat.add_one_mul] at hmul
      omega
    obtain ⟨fm₂, hrest, h₂⟩ := h₁.scanRest sha1 hd.tiled hk
      ((f.info.begin + f.info.length) % 2 ^ 64) buf f.info.begin (i * m.pieceLength) hcount
    exact ⟨fm₂, hrest, h₂, hstreams fm₂⟩
  | gathered hfull hhead hin hle =>
    obtain ⟨hreturned, -⟩ | hstreams := hrew₁
    · cases hreturned
    have hiN := hd.tiled.lt_count_iff.2 (hin.trans_le (hbegin.trans hend))
    obtain ⟨fm₂, htest, h₂⟩ := h₁.completeIfEligible sha1 hiN
      (region (image files) (i * m.pieceLength) m.pieceLength)
    obtain ⟨fm₃, hrest, h₃⟩ := h₂.scanRest sha1 hd.tiled hk
      ((f.info.begin + f.info.length) % 2 ^ 64)
      (region (image files) (i * m.pieceLength) m.pieceLength) f.info.begin
      ((i + 1) * m.pieceLength) hiN
    refine ⟨fm₃, ?_, h₃, hstreams fm₃⟩
    rw [Start.finish, htest, Option.bind_eq_bind, Option.bind_some, hrest]

/-- The first `k` calls of a scan return, and leave the streams as the next one needs them. -/
theorem scanFiles_streaming (sha1 : Bytes → Sha1sum) (hd : ExactDisk m files)
    (heap heap' : ℤ → UInt8) (stack : ℕ → ℕ → UInt8) (hk : k ≤ files.length) :
    ∃ fm, (List.range k).foldlM (fun fm k => scanFile sha1 (stack k) fm k)
        (register heap heap' m files) = some fm ∧
      Streaming m files fm ∧ ∀ f, files[k]? = some f → Rewound m files k f.info.begin fm := by
  induction k with
  | zero =>
    have hstart : Streaming m files (register heap heap' m files) :=
      ⟨rfl, by simp [register], rfl⟩
    exact ⟨_, rfl, hstart, fun f _ j g hj => absurd hj (Nat.not_lt_zero j)⟩
  | succ k ih =>
    obtain ⟨fm, hrun, h, hrew⟩ := ih (by omega)
    have hf : files[k]? = some files[k] := List.getElem?_eq_getElem hk
    obtain ⟨fm', hscan, h', hrew'⟩ := scanFile_streaming sha1 hd hf (stack k) h (hrew _ hf)
    refine ⟨fm', ?_, h', fun f hnext j g hj hg hoff => hrew' j g hj hg ?_⟩
    · rw [List.range_succ, List.foldlM_append, hrun]
      simpa using hscan
    · exact (hd.laid.end_le_begin hf hnext (Nat.lt_succ_self k)).trans_lt hoff

/-- Before the first test a piece is gathered exactly if it straddles the begin of the file. -/
theorem head_iff (hd : ExactDisk m files) (hf : f ∈ files) {start : Start}
    (h : Starts m files f (pieceOf f.info.begin m.pieceLength) start) (i : ℕ) (buf : Bytes) :
    start.head = some (i, buf) ↔
      Straddles m f i ∧ buf = region (flat files) (i * m.pieceLength) m.pieceLength := by
  have hend := hd.laid.end_le hf
  have hbegin : f.info.begin ≤ f.info.end_ := Nat.le_add_right _ _
  obtain ⟨hi, hlt⟩ := pieceOf_bounds f.info.begin hd.tiled.pieceLength_pos
  generalize pieceOf f.info.begin m.pieceLength = j at hi hlt h
  -- there is only one piece in which the file begins
  have hunique : Straddles m f i → i = j := fun hs =>
    (Nat.div_eq_of_lt_le hs.begin_lt.le hs.lt_end).symm.trans (Nat.div_eq_of_lt_le hi hlt)
  cases h with
  | returned hnone =>
    refine iff_of_false nofun fun hs => ?_
    have hiN := hd.tiled.lt_count_iff.2 (hs.1.begin_lt.trans_le (hbegin.trans hend))
    have htest : (i, pieceData m files i) ∈ testsOf m files f :=
      ⟨hd.full hf, fun g hg _ _ => hd.full hg,
        Or.inl ⟨hiN, Or.inl ⟨hs.1.begin_lt, hs.1.lt_end, hs.1.end_le⟩, rfl⟩⟩
    rw [hnone] at htest
    exact htest
  | aligned _ _ _ halign =>
    refine iff_of_false nofun fun hs => ?_
    have hlt' := hs.1.begin_lt
    rw [hunique hs.1, halign] at hlt'
    exact lt_irrefl _ hlt'
  | gathered _ _ hin hle =>
    rw [Start.head, Option.some.injEq, Prod.mk.injEq, image_of_exact hd.exact]
    constructor
    · rintro ⟨rfl, rfl⟩
      exact ⟨⟨hin, hlt, hle⟩, rfl⟩
    · rintro ⟨hs, rfl⟩
      rw [hunique hs]
      exact ⟨rfl, rfl⟩

/-- **Gathering a piece.** In a torrent that is complete on disk every call of a scan returns, and
none goes back beyond the first file. The first piece is gathered and tested exactly if it begins
before the file and ends in it, and then it is tested with its own bytes. -/
theorem scanPieces_gathers (sha1 : Bytes → Sha1sum) (hd : ExactDisk m files)
    (heap heap' : ℤ → UInt8) (stack : ℕ → ℕ → UInt8) :
    (∃ fm, scanPieces sha1 stack (register heap heap' m files) = some fm) ∧
      ∀ k f, files[k]? = some f → ∃ fm fm' start,
        (List.range k).foldlM (fun fm k => scanFile sha1 (stack k) fm k)
            (register heap heap' m files) = some fm ∧
          startFile (stack k) fm k = some (fm', start) ∧
          ∀ i buf, start.head = some (i, buf) ↔
            Straddles m f i ∧ buf = region (flat files) (i * m.pieceLength) m.pieceLength := by
  refine ⟨?_, fun k f hk => ?_⟩
  · obtain ⟨fm, hrun, -, -⟩ := scanFiles_streaming sha1 hd heap heap' stack le_rfl
    exact ⟨fm, hrun⟩
  · obtain ⟨fm, hrun, h, hrew⟩ := scanFiles_streaming sha1 hd heap heap' stack
      (List.getElem?_eq_some_iff.1 hk).1.le
    obtain ⟨fm', start, hstart, -, hstarts, -⟩ :=
      startFile_spec hd.tiled hd.laid hk (stack k) h (hrew f hk)
    exact ⟨fm, fm', start, hrun, hstart, head_iff hd (List.mem_of_getElem? hk) hstarts⟩

/-- Two pieces of four bytes at most, in files of 2, 0, 1 and 3 bytes. -/
def fourFiles : TorrentMeta where
  checkSum := fun _ => 0
  pieceLength := 4
  totalSize := 6
  files := [⟨[97], 0, 0, 2⟩, ⟨[98], 1, 2, 0⟩, ⟨[99], 2, 2, 1⟩, ⟨[100], 3, 3, 3⟩]
  sha1sums := [fun _ => 7, fun _ => 7]

/-- Its files, complete. -/
def fourFilesDisk : List TorrentFile :=
  [⟨⟨[1, 2], 0⟩, ⟨[97], 0, 0, 2⟩⟩, ⟨⟨[], 0⟩, ⟨[98], 1, 2, 0⟩⟩, ⟨⟨[3], 0⟩, ⟨[99], 2, 2, 1⟩⟩,
    ⟨⟨[4, 5, 6], 0⟩, ⟨[100], 3, 3, 3⟩⟩]

theorem exactDisk_fourFiles : ExactDisk fourFiles fourFilesDisk where
  tiled := ⟨by decide, by decide, by decide, by decide⟩
  laidOut := ⟨rfl, rfl, rfl, rfl, rfl⟩
  info := rfl
  index
    | 0, _, rfl => rfl
    | 1, _, rfl => rfl
    | 2, _, rfl => rfl
    | 3, _, rfl => rfl
  exact := by simp [Exact, fourFilesDisk]
  length_lt := by simp [fourFilesDisk]

/-- The first piece is gathered from all files, when the last one is scanned. -/
theorem scanPieces_gathers_fourFiles :
    ∃ fm fm' start,
      (List.range 3).foldlM (fun fm k => scanFile fiveSha1 (fun _ => 0) fm k)
          (register (fun _ => 0) (fun _ => 0) fourFiles fourFilesDisk) = some fm ∧
        startFile (fun _ => 0) fm 3 = some (fm', start) ∧ start.head = some (0, [1, 2, 3, 4]) := by
  have hgathers := scanPieces_gathers fiveSha1 exactDisk_fourFiles (fun _ => 0) (fun _ => 0)
    fun _ _ => 0
  obtain ⟨fm, fm', start, hrun, hstart, hhead⟩ := hgathers.2 3 _ rfl
  exact ⟨fm, fm', start, hrun, hstart, (hhead 0 _).2 ⟨⟨by decide, by decide, by decide⟩, rfl⟩⟩

end FileManager

end CTorrent
