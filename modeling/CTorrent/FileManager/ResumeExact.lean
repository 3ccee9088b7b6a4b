import CTorrent.FileManager.Resume

/-!
# When a scan is exact

A scan should complete a piece exactly if all its bytes are on disk and pass the test. It never
completes a piece for bytes that are not there, but for the last one, which it may test with the
buffer of the piece before; and it finds a piece that is there only where some file is seen to hold
its end.

* `Present`, `ScanExact`: the pieces on disk, and what a scan should find;
* `Seen`, `Stale`, `scanPieces_spec`: what it does find;
* `scanPieces_exact_iff`: when the two agree.
-/

namespace CTorrent

open Splice

namespace LaidOut

/-- Every offset lies in some file. -/
theorem exists_mem {is : List TorrentFileInfo} {b e x : ℕ} (h : LaidOut is b e) (hb : b ≤ x)
    (he : x < e) : ∃ i ∈ is, i.begin ≤ x ∧ x < i.end_ := by
  induction is generalizing b with
  | nil =>
    have hbe : b = e := h
    omega
  | cons i is ih =>
    obtain ⟨hi, h⟩ : i.begin = b ∧ LaidOut is (b + i.length) e := h
    by_cases hx : x < i.end_
    · exact ⟨i, List.mem_cons_self, hi.le.trans hb, hx⟩
    · rw [TorrentFileInfo.end_, hi] at hx
      obtain ⟨j, hj, hin⟩ := ih h (by omega)
      exact ⟨j, List.mem_cons_of_mem _ hj, hin⟩

end LaidOut

namespace FileManager

variable (m : TorrentMeta) (files : List TorrentFile)

/-- Every byte of the piece is on disk. -/
def Present (i : ℕ) : Prop :=
  ∀ x, i * m.pieceLength ≤ x → x < i * m.pieceLength + pieceLen m i →
    ∃ f ∈ files, f.info.begin ≤ x ∧ x < f.info.begin + f.fp.content.length

/-- The piece is tested with its own bytes in some file. -/
def Seen (i : ℕ) : Prop := ∃ f ∈ files, Full f ∧ HeadFull m files f ∧ Reads m f i

variable (sha1 : Bytes → Sha1sum)

/-- In a file that ends inside the last piece, that piece passes with what the buffer holds. -/
def Stale (i : ℕ) : Prop :=
  ∃ f ∈ files, (Full f ∧ HeadFull m files f ∧ Overruns m f i) ∧
    Passes sha1 m (i, staleData m files f i)

/-- What a scan should find: the completed pieces are those that are on disk and pass. -/
def ScanExact (fm : FileManager) : Prop :=
  (∀ c ∈ fm.completions, c.1 < m.sha1sums.length) ∧
  ∀ i < m.sha1sums.length, (fm.completedBits.test i = true ↔
    Present m files i ∧ fm.isWriteEligible sha1 i (pieceData m files i) = some true)

variable {m files} {sha1}

/-- What is tested with its own bytes is on disk. -/
theorem present_of_seen (hd : Disk m files) {i : ℕ} (hi : i < m.sha1sums.length)
    (h : Seen m files i) : Present m files i := by
  obtain ⟨f, hf, hfull, hhead, hreads⟩ := h
  have hle := hd.consistent.tiled.piece_end_le hi
  have hlen : i * m.pieceLength + pieceLen m i ≤ (i + 1) * m.pieceLength :=
    piece_end_le_next (Nat.lt_succ_self i)
  intro x hx hxend
  have hself : f.info.begin ≤ x → x < f.info.end_ →
      ∃ g ∈ files, g.info.begin ≤ x ∧ x < g.info.begin + g.fp.content.length := by
    intro hbegin hend
    rw [Full] at hfull
    rw [TorrentFileInfo.end_] at hend
    exact ⟨f, hf, hbegin, by omega⟩
  rcases hreads with ⟨hbi, hbi', hend⟩ | ⟨hbi, hend⟩
  · by_cases hxf : f.info.begin ≤ x
    · exact hself hxf (by omega)
    · -- a byte in front of the file
      obtain ⟨j, hj, hjx, hxj⟩ := hd.laid.laidOut.exists_mem (Nat.zero_le x) (by omega)
      obtain ⟨g, hg, rfl⟩ := List.mem_map.1 hj
      have hgfull := hhead g hg
        (by rw [Nat.div_eq_of_lt_le hbi.le hbi']; exact hx.trans_lt hxj) (by omega)
      rw [Full] at hgfull
      rw [TorrentFileInfo.end_] at hxj
      exact ⟨g, hg, hjx, by omega⟩
  · exact hself (hbi.trans hx) (by omega)

/-- A scan makes the tests of all files. -/
theorem scanPieces_scanned (hd : Disk m files) (heap heap' : ℤ → UInt8)
    (stack : ℕ → ℕ → UInt8) :
    ∃ fm, scanPieces sha1 stack (register heap heap' m files) = some fm ∧
      Scanned sha1 m files {t | ∃ f ∈ files, t ∈ testsOf m files f} fm := by
  -- the first files, and the streams as the next one finds them
  suffices hs : ∀ k ≤ files.length, ∃ fm,
      (List.range k).foldlM (fun fm k => scanFile sha1 (stack k) fm k)
        (register heap heap' m files) = some fm ∧
      Scanned sha1 m files {t | ∃ f ∈ files.take k, t ∈ testsOf m files f} fm ∧
      ∀ f, files[k]? = some f → Rewound m files k f.info.begin fm by
    obtain ⟨fm, hrun, h, -⟩ := hs files.length le_rfl
    rw [List.take_length] at h
    exact ⟨fm, hrun, h⟩
  intro k
  induction k with
  | zero =>
    intro _
    refine ⟨_, rfl, ⟨rfl, by simp [register, Function.comp_def], fun i hi => ?_, rfl,
      fun i hi => ?_⟩, fun f _ j g hj => absurd hj (Nat.not_lt_zero j)⟩
    · exact Bitset.test_construct heap' hi (hi.trans hd.consistent.count_lt)
    · rw [register, Bitset.test_construct heap hi (hi.trans hd.consistent.count_lt)]
      simp
  | succ k ih =>
    intro hk
    obtain ⟨fm, hrun, h, hrew⟩ := ih (by omega)
    have hf : files[k]? = some files[k] := List.getElem?_eq_getElem hk
    obtain ⟨fm', hscan, h', hrew'⟩ := scanFile_spec hd hf (stack k) h (hrew _ hf)
    refine ⟨fm', ?_, ?_, fun f hnext j g hj hg hoff => hrew' j g hj hg ?_⟩
    · rw [List.range_succ, List.foldlM_append, hrun]
      simpa using hscan
    · convert h' using 1
      ext t
      rw [List.take_add_one, hf]
      simp only [Option.toList_some, List.mem_append, List.mem_singleton, Set.mem_union,
        Set.mem_ofPred_eq, or_and_right, exists_or, exists_eq_left]
    · exact (hd.laid.end_le_begin hf hnext (Nat.lt_succ_self k)).trans_lt hoff

/-- **The bits behind a scan.** A piece is completed exactly if it is tested with its own bytes and
passes, or is the last one and passes with the bytes that the buffer holds instead. -/
theorem scanPieces_spec (sha1 : Bytes → Sha1sum) (hd : Disk m files) (heap heap' : ℤ → UInt8)
    (stack : ℕ → ℕ → UInt8) :
    ∃ fm, scanPieces sha1 stack (register heap heap' m files) = some fm ∧
      fm.pieces.map Piece.hash = m.sha1sums ∧
      ∀ i < m.sha1sums.length, fm.pendingBits.test i = false ∧
        (fm.completedBits.test i = true ↔
          Seen m files i ∧ Passes sha1 m (i, pieceData m files i) ∨ Stale m files sha1 i) := by
  obtain ⟨fm, hrun, h⟩ := scanPieces_scanned hd heap heap' stack
  refine ⟨fm, hrun, h.hashes, fun i hi => ⟨h.pending i hi, (h.bits i hi).trans ?_⟩⟩
  constructor
  · rintro ⟨data, ⟨f, hf, hfull, hhead, ⟨-, hreads, hdata⟩ | ⟨hover, hdata⟩⟩, hpass⟩
    · exact Or.inl ⟨⟨f, hf, hfull, hhead, hreads⟩, hdata ▸ hpass⟩
    · exact Or.inr ⟨f, hf, ⟨hfull, hhead, hover⟩, hdata ▸ hpass⟩
  · rintro (⟨⟨f, hf, hfull, hhead, hreads⟩, hpass⟩ | ⟨f, hf, ⟨hfull, hhead, hover⟩, hpass⟩)
    · exact ⟨_, ⟨f, hf, hfull, hhead, Or.inl ⟨hi, hreads, rfl⟩⟩, hpass⟩
    · exact ⟨_, ⟨f, hf, hfull, hhead, Or.inr ⟨hover, rfl⟩⟩, hpass⟩

/-- **When a scan is exact.** It is, if and only if every piece that is on disk and passes is
tested with its own bytes, or is the last one and passes with those of the buffer; and if the last
piece is on disk and passes whenever it passes with those of the buffer. -/
theorem scanPieces_exact_iff (sha1 : Bytes → Sha1sum) (hd : Disk m files) (heap heap' : ℤ → UInt8)
    (stack : ℕ → ℕ → UInt8) :
    ∃ fm, scanPieces sha1 stack (register heap heap' m files) = some fm ∧
      (ScanExact m files sha1 fm ↔
        (∀ i < m.sha1sums.length, Present m files i → Passes sha1 m (i, pieceData m files i) →
          Seen m files i ∨ Stale m files sha1 i) ∧
        ∀ i < m.sha1sums.length, Stale m files sha1 i →
          Present m files i ∧ Passes sha1 m (i, pieceData m files i)) := by
  obtain ⟨fm, hrun, hhashes, hbits⟩ := scanPieces_spec sha1 hd heap heap' stack
  refine ⟨fm, hrun, ?_⟩
  have hinv : Inv sha1 m fm := inv_step _ (.scan stack) fm (inv_register heap heap' m files) hrun
  have hrange : ∀ c ∈ fm.completions, c.1 < m.sha1sums.length := by
    intro c hc
    obtain ⟨s, hs, -⟩ := (hinv.completed c hc).2
    exact (List.getElem?_eq_some_iff.1 hs).1
  have helig : ∀ i < m.sha1sums.length,
      (fm.isWriteEligible sha1 i (pieceData m files i) = some true ↔
        Passes sha1 m (i, pieceData m files i)) := fun i hi => by
    rw [isWriteEligible_iff hhashes, and_iff_right (hbits i hi).1]
  rw [ScanExact, and_iff_right hrange]
  constructor
  · intro hexact
    refine ⟨fun i hi hpresent hpass => ?_, fun i hi hstale => ?_⟩
    · have hset := (hexact i hi).2 ⟨hpresent, (helig i hi).2 hpass⟩
      exact ((hbits i hi).2.1 hset).imp And.left id
    · obtain ⟨hpresent, hok⟩ := (hexact i hi).1 ((hbits i hi).2.2 (Or.inr hstale))
      exact ⟨hpresent, (helig i hi).1 hok⟩
  · rintro ⟨hfound, hgood⟩ i hi
    rw [helig i hi, (hbits i hi).2]
    constructor
    · rintro (⟨hseen, hpass⟩ | hstale)
      · exact ⟨present_of_seen hd hi hseen, hpass⟩
      · exact hgood i hi hstale
    · rintro ⟨hpresent, hpass⟩
      exact (hfound i hi hpresent hpass).imp (fun hseen => ⟨hseen, hpass⟩) id

/-- The files of the torrent of three pieces, the last byte of which is not on disk. -/
def threePiecesPartly : List TorrentFile :=
  [⟨⟨[1, 2, 3], 0⟩, ⟨[97], 0, 0, 3⟩⟩, ⟨⟨[4], 0⟩, ⟨[98], 1, 3, 2⟩⟩]

theorem disk_threePiecesPartly : Disk threePieces threePiecesPartly where
  consistent := consistent_threePieces
  info := rfl
  index
    | 0, _, rfl => rfl
    | 1, _, rfl => rfl
  length_le := by simp [threePiecesPartly]

/-- The first piece alone is found. The second one is on disk, and no file shows its end. -/
theorem scanPieces_exact_iff_threePieces :
    ∃ fm, scanPieces threePiecesSha1 (fun _ _ => 0)
        (register (fun _ => 0) (fun _ => 0) threePieces threePiecesPartly) = some fm ∧
      (List.range 3).map fm.completedBits.test = [true, false, false] ∧
      (ScanExact threePieces threePiecesPartly threePiecesSha1 fm ↔
        (∀ i < threePieces.sha1sums.length, Present threePieces threePiecesPartly i →
          Passes threePiecesSha1 threePieces (i, pieceData threePieces threePiecesPartly i) →
          Seen threePieces threePiecesPartly i ∨
            Stale threePieces threePiecesPartly threePiecesSha1 i) ∧
        ∀ i < threePieces.sha1sums.length,
          Stale threePieces threePiecesPartly threePiecesSha1 i →
          Present threePieces threePiecesPartly i ∧ Passes threePiecesSha1 threePieces
            (i, pieceData threePieces threePiecesPartly i)) := by
  have hbits : (scanPieces threePiecesSha1 (fun _ _ => 0)
      (register (fun _ => 0) (fun _ => 0) threePieces threePiecesPartly)).map (fun fm =>
        (List.range 3).map fm.completedBits.test) = some [true, false, false] := by
    decide +kernel
  obtain ⟨fm, hfm, hexact⟩ := scanPieces_exact_iff threePiecesSha1 disk_threePiecesPartly
    (fun _ => 0) (fun _ => 0) (fun _ _ => 0)
  rw [hfm, Option.map_some, Option.some.injEq] at hbits
  exact ⟨fm, hfm, hbits, hexact⟩

/-- A torrent of two pieces of one byte in one file, whose digests have the words 7. -/
def twoPieces : TorrentMeta where
  checkSum := fun _ => 0
  pieceLength := 1
  totalSize := 2
  files := [⟨[97], 0, 0, 2⟩]
  sha1sums := [fun _ => 7, fun _ => 7]

/-- Its file, complete. -/
def twoPiecesDisk : List TorrentFile := [⟨⟨[5, 5], 0⟩, ⟨[97], 0, 0, 2⟩⟩]

/-- The whole torrent is on disk, and the last piece is not found. -/
theorem not_scanExact_lastPiece :
    Disk twoPieces twoPiecesDisk ∧
      ∃ fm, scanPieces fiveSha1 (fun _ _ => 0)
          (register (fun _ => 0) (fun _ => 0) twoPieces twoPiecesDisk) = some fm ∧
        ¬ ScanExact twoPieces twoPiecesDisk fiveSha1 fm := by
  have hdisk : Disk twoPieces twoPiecesDisk :=
    { consistent := ⟨by decide, by decide, by decide, by decide, by decide, rfl, rfl⟩
      info := rfl
      index := fun | 0, _, rfl => rfl
      length_le := by simp [twoPiecesDisk] }
  have hscan : (scanPieces fiveSha1 (fun _ _ => 0)
      (register (fun _ => 0) (fun _ => 0) twoPieces twoPiecesDisk)).map (fun fm =>
        (fm.completedBits.test 1, fm.isWriteEligible fiveSha1 1
          (pieceData twoPieces twoPiecesDisk 1))) = some (false, some true) := by
    decide +kernel
  obtain ⟨fm, hfm, hbits⟩ := Option.map_eq_some_iff.1 hscan
  obtain ⟨hmissed, hok⟩ := Prod.mk.inj hbits
  refine ⟨hdisk, fm, hfm, fun hexact => ?_⟩
  have hpresent : Present twoPieces twoPiecesDisk 1 := fun x _ hx =>
    ⟨_, List.mem_singleton_self _, Nat.zero_le x, hx⟩
  have hset := (hexact.2 1 (by decide)).2 ⟨hpresent, hok⟩
  rw [hmissed] at hset
  cases hset

end FileManager

end CTorrent
