import CTorrent.FileManager.Basic

/-!
# `TorrentFileManagerImpl::scan_file`: what is on disk already

`scan_file` looks at one file, at position `k` of `m_files`: the piece that begins in an earlier
file and ends in this one, the pieces inside it, and the last piece of the torrent. It keeps one
buffer of a piece's length throughout, whose cells hold `stack` at first, and reads each file from
wherever its stream stands unless it seeks. `none` stands for an index or a store out of range.

* `walkBack`: the loop over the earlier files;
* `scanLoop`: the loop over the pieces (the OpenMP pragmas are inactive);
* `scanFile`, `scanPieces`;
* `Start`, `startFile`, `scanFile_eq`: `scan_file` up to its first test, and from there on;
* `scanPieces_induct`: what scanning preserves.
-/

namespace CTorrent

namespace FileManager

variable (sha1 : Bytes → Sha1sum)

/-- The stream of the file at position `k`. -/
def setFp (fm : FileManager) (k : ℕ) (fp : FILE) : FileManager :=
  { fm with files := fm.files.modify k fun f => { f with fp := fp } }

/-- `fread` from the file at position `k`. -/
def freadAt (fm : FileManager) (k n : ℕ) : Option (Bytes × FileManager) :=
  fm.files[k]?.map fun f => ((f.fp.fread n).1, fm.setFp k (f.fp.fread n).2)

/-- `fseek` in the file at position `k`. -/
def fseekAt (fm : FileManager) (k offset : ℕ) : Option FileManager :=
  fm.files[k]?.map fun f => fm.setFp k (f.fp.fseek offset)

/-- The loop that gathers the beginning of a piece from the files before `index`: the filled
buffer, or `none` inside where a short read makes `scan_file` return. -/
def walkBack : ℕ → FileManager → ℕ → Bytes → Option (FileManager × Option Bytes)
  | 0, fm, bufPos, buf => if bufPos = 0 then some (fm, some buf) else none
  | index + 1, fm, bufPos, buf =>
      if bufPos = 0 then some (fm, some buf)
      else do
        -- `index` stands for the decremented index
        let cf ← fm.files[index]?
        if bufPos > cf.info.length then
          let (chunk, fm) ← fm.freadAt index bufPos
          let start := bufPos - cf.info.length
          if buf.length < start + chunk.length then none
          else if chunk.length ≠ cf.info.length then some (fm, none)
          else walkBack index fm start (Splice.overwrite buf start chunk)
        else
          let fm ← fm.fseekAt index (cf.info.length - bufPos)
          let (chunk, fm) ← fm.freadAt index bufPos
          if chunk.length ≠ bufPos then some (fm, none)
          else some (fm, some (Splice.overwrite buf 0 chunk))

/-- The loop over the pieces from `i` on, `count` of them at most: the buffer, and the index at
which `escape` was set, if it was. -/
def scanLoop (k fileEnd : ℕ) : ℕ → FileManager → Bytes → ℕ → ℕ →
    Option (FileManager × Bytes × Option ℕ)
  | 0, fm, buf, _, _ => some (fm, buf, none)
  | count + 1, fm, buf, pieceBegin, i =>
      if (pieceBegin + fm.metainfo.pieceLength) % 2 ^ 64 ≥ fileEnd then some (fm, buf, some i)
      else do
        let (chunk, fm) ← fm.freadAt k fm.metainfo.pieceLength
        let buf := Splice.overwrite buf 0 chunk
        let fm ← fm.completeIfEligible sha1 i buf
        scanLoop k fileEnd count fm buf ((pieceBegin + fm.metainfo.pieceLength) % 2 ^ 64) (i + 1)

/-- `scan_file` behind the piece that begins in an earlier file. -/
def scanRest (k fileEnd : ℕ) (fm : FileManager) (buf : Bytes) (begin pieceBegin pieceIndex : ℕ) :
    Option FileManager := do
  let last := sub64 fm.pieces.length 1
  let fm ← fm.fseekAt k (sub64 pieceBegin begin)
  let (fm, buf, real) ← scanLoop sha1 k fileEnd (last - pieceIndex) fm buf pieceBegin pieceIndex
  let pieceIndex := real.getD pieceIndex
  if pieceIndex = last then
    let pieceLength := toSize (← fm.lastPieceLength)
    let (chunk, fm) ← fm.freadAt k pieceLength
    fm.completeIfEligible sha1 pieceIndex ((Splice.overwrite buf 0 chunk).take pieceLength)
  else some fm

/-- `scan_file` on the piece at `pieceBegin`, which begins before the file. -/
def scanHead (k : ℕ) (fm : FileManager) (info : TorrentFileInfo) (buf : Bytes)
    (pieceBegin pieceIndex : ℕ) : Option (FileManager × Option Bytes) := do
  let bufPos := info.begin - pieceBegin
  let (chunk, fm) ← fm.freadAt k (fm.metainfo.pieceLength - bufPos)
  if chunk.length ≠ fm.metainfo.pieceLength - bufPos then some (fm, none)
  else do
    let (fm, buf) ← walkBack info.index fm bufPos (Splice.overwrite buf bufPos chunk)
    match buf with
    | none => some (fm, none)
    | some buf => (fm.completeIfEligible sha1 pieceIndex buf).map fun fm => (fm, some buf)

/-- The piece in which a file begins, as `scan_file` computes it. -/
def pieceOf (begin pieceLength : ℕ) : ℕ := if begin > 0 then begin / pieceLength else 0

/-- `scan_file`. -/
def scanFile (stack : ℕ → UInt8) (fm : FileManager) (k : ℕ) : Option FileManager := do
  let f ← fm.files[k]?
  let fm ← fm.fseekAt k 0
  if f.info.length > f.fp.content.length then some fm
  else if f.info.begin > 0 ∧ fm.metainfo.pieceLength = 0 then none
  else do
    let pieceIndex := pieceOf f.info.begin fm.metainfo.pieceLength
    let pieceBegin := pieceIndex * fm.metainfo.pieceLength % 2 ^ 64
    let pieceLength ← fm.pieceSize pieceIndex
    let fileEnd := (f.info.begin + f.info.length) % 2 ^ 64
    if (pieceBegin + pieceLength) % 2 ^ 64 > fileEnd then some fm
    else
      let buf := (List.range fm.metainfo.pieceLength).map stack
      if pieceBegin < f.info.begin then do
        let (fm, buf) ← scanHead sha1 k fm f.info buf pieceBegin pieceIndex
        match buf with
        | none => some fm
        | some buf =>
            scanRest sha1 k fileEnd fm buf f.info.begin ((pieceBegin + pieceLength) % 2 ^ 64)
              (pieceIndex + 1)
      else scanRest sha1 k fileEnd fm buf f.info.begin pieceBegin pieceIndex

/-- `scan_pieces`; `stack` may differ from one call of `scan_file` to the next. -/
def scanPieces (stack : ℕ → ℕ → UInt8) (fm : FileManager) : Option FileManager :=
  (List.range fm.files.length).foldlM (fun fm k => fm.scanFile sha1 (stack k) k) fm

/-! ### Up to the first test -/

/-- `scan_file` on the piece at `pieceBegin`, which begins before the file, up to the test. -/
def gatherHead (k : ℕ) (fm : FileManager) (info : TorrentFileInfo) (buf : Bytes) (pieceBegin : ℕ) :
    Option (FileManager × Option Bytes) := do
  let bufPos := info.begin - pieceBegin
  let (chunk, fm) ← fm.freadAt k (fm.metainfo.pieceLength - bufPos)
  if chunk.length ≠ fm.metainfo.pieceLength - bufPos then some (fm, none)
  else walkBack info.index fm bufPos (Splice.overwrite buf bufPos chunk)

/-- The piece is gathered, and then tested. -/
theorem scanHead_eq (k : ℕ) (fm : FileManager) (info : TorrentFileInfo) (buf : Bytes)
    (pieceBegin pieceIndex : ℕ) :
    scanHead sha1 k fm info buf pieceBegin pieceIndex =
      (gatherHead k fm info buf pieceBegin).bind fun r =>
        match r.2 with
        | none => some (r.1, none)
        | some buf =>
            (r.1.completeIfEligible sha1 pieceIndex buf).map fun fm => (fm, some buf) := by
  rw [scanHead, gatherHead]
  cases fm.freadAt k (fm.metainfo.pieceLength - (info.begin - pieceBegin)) with
  | none => rfl
  | some r =>
    obtain ⟨chunk, fm₁⟩ := r
    simp only [Option.bind_eq_bind, Option.bind_some]
    split_ifs <;> rfl

/-- Where `scan_file` stands before its first test: it has returned; or it goes on where the piece
begins; or it tests a piece that it has gathered, and goes on behind it. -/
inductive Start where
  | returned
  | aligned (info : TorrentFileInfo) (buf : Bytes) (pieceBegin pieceIndex : ℕ)
  | gathered (info : TorrentFileInfo) (buf : Bytes) (pieceEnd pieceIndex : ℕ)

/-- The piece that begins before the file and the bytes given to `is_write_eligible` for it. -/
def Start.head : Start → Option (ℕ × Bytes)
  | .gathered _ buf _ pieceIndex => some (pieceIndex, buf)
  | _ => none

/-- `scan_file` up to its first test. -/
def startFile (stack : ℕ → UInt8) (fm : FileManager) (k : ℕ) : Option (FileManager × Start) := do
  let f ← fm.files[k]?
  let fm ← fm.fseekAt k 0
  if f.info.length > f.fp.content.length then some (fm, .returned)
  else if f.info.begin > 0 ∧ fm.metainfo.pieceLength = 0 then none
  else do
    let pieceIndex := pieceOf f.info.begin fm.metainfo.pieceLength
    let pieceBegin := pieceIndex * fm.metainfo.pieceLength % 2 ^ 64
    let pieceLength ← fm.pieceSize pieceIndex
    let fileEnd := (f.info.begin + f.info.length) % 2 ^ 64
    if (pieceBegin + pieceLength) % 2 ^ 64 > fileEnd then some (fm, .returned)
    else
      let buf := (List.range fm.metainfo.pieceLength).map stack
      if pieceBegin < f.info.begin then do
        let (fm, buf) ← gatherHead k fm f.info buf pieceBegin
        match buf with
        | none => some (fm, .returned)
        | some buf =>
            some (fm, .gathered f.info buf ((pieceBegin + pieceLength) % 2 ^ 64) pieceIndex)
      else some (fm, .aligned f.info buf pieceBegin pieceIndex)

/-- `scan_file` from its first test on. -/
def Start.finish (k : ℕ) (fm : FileManager) : Start → Option FileManager
  | .returned => some fm
  | .aligned info buf pieceBegin pieceIndex =>
      scanRest sha1 k ((info.begin + info.length) % 2 ^ 64) fm buf info.begin pieceBegin pieceIndex
  | .gathered info buf pieceEnd pieceIndex => do
      let fm ← fm.completeIfEligible sha1 pieceIndex buf
      scanRest sha1 k ((info.begin + info.length) % 2 ^ 64) fm buf info.begin pieceEnd
        (pieceIndex + 1)

/-- A call of `scan_file` is its start and the rest. -/
theorem scanFile_eq (stack : ℕ → UInt8) (fm : FileManager) (k : ℕ) :
    scanFile sha1 stack fm k = (startFile stack fm k).bind fun r => r.2.finish sha1 k r.1 := by
  rw [scanFile, startFile]
  cases fm.files[k]? with
  | none => rfl
  | some f =>
    cases fm.fseekAt k 0 with
    | none => rfl
    | some fm₁ =>
      simp only [Option.bind_eq_bind, Option.bind_some]
      by_cases hshort : f.info.length > f.fp.content.length
      · simp only [if_pos hshort]
        rfl
      by_cases hzero : f.info.begin > 0 ∧ fm₁.metainfo.pieceLength = 0
      · simp only [if_neg hshort, if_pos hzero]
        rfl
      simp only [if_neg hshort, if_neg hzero]
      cases fm₁.pieceSize (pieceOf f.info.begin fm₁.metainfo.pieceLength) with
      | none => rfl
      | some length =>
        simp only [Option.bind_some]
        split_ifs
        · rfl
        · rw [scanHead_eq]
          generalize pieceOf f.info.begin fm₁.metainfo.pieceLength = i
          cases gatherHead k fm₁ f.info ((List.range fm₁.metainfo.pieceLength).map stack)
              (i * fm₁.metainfo.pieceLength % 2 ^ 64) with
          | none => rfl
          | some r =>
            obtain ⟨fm₂, _ | buf⟩ := r
            · rfl
            · simp only [Option.bind_some, Option.bind_map, Start.finish]
              rfl
        · rfl

/-! ### What scanning does to the state -/

section Scan

variable {sha1} {I : FileManager → Prop}
  (hfp : ∀ fm k f fp, I fm → fm.files[k]? = some f → fp.content = f.fp.content → I (setFp fm k fp))

include hfp

theorem freadAt_induct {fm fm' : FileManager} {k n : ℕ} {chunk : Bytes} (h : I fm)
    (hr : fm.freadAt k n = some (chunk, fm')) : I fm' := by
  rw [freadAt, Option.map_eq_some_iff] at hr
  obtain ⟨f, hf, heq⟩ := hr
  rw [← (Prod.mk.inj heq).2]
  exact hfp fm k f _ h hf (FILE.content_fread _ _)

theorem fseekAt_induct {fm fm' : FileManager} {k offset : ℕ} (h : I fm)
    (hr : fm.fseekAt k offset = some fm') : I fm' := by
  rw [fseekAt, Option.map_eq_some_iff] at hr
  obtain ⟨f, hf, rfl⟩ := hr
  exact hfp fm k f _ h hf (FILE.content_fseek _ _)

theorem walkBack_induct {index : ℕ} :
    ∀ {fm fm' : FileManager} {bufPos : ℕ} {buf : Bytes} {r : Option Bytes}, I fm →
      walkBack index fm bufPos buf = some (fm', r) → I fm' := by
  induction index with
  | zero =>
    intro fm fm' bufPos buf r h hr
    rw [walkBack] at hr
    split_ifs at hr
    cases hr
    exact h
  | succ index ih =>
    intro fm fm' bufPos buf r h hr
    rw [walkBack] at hr
    split_ifs at hr with h0
    · cases hr
      exact h
    · obtain ⟨cf, -, hr⟩ := Option.bind_eq_some_iff.1 hr
      split_ifs at hr with h1
      · obtain ⟨⟨chunk, fm1⟩, h2, hr⟩ := Option.bind_eq_some_iff.1 hr
        have h3 := freadAt_induct hfp h h2
        dsimp only at hr
        split_ifs at hr
        · cases hr
          exact h3
        · exact ih h3 hr
      · obtain ⟨fm1, h2, hr⟩ := Option.bind_eq_some_iff.1 hr
        obtain ⟨⟨chunk, fm2⟩, h3, hr⟩ := Option.bind_eq_some_iff.1 hr
        have h4 := freadAt_induct hfp (fseekAt_induct hfp h h2) h3
        dsimp only at hr
        split_ifs at hr <;> cases hr <;> exact h4

variable (hc : ∀ fm i data fm', I fm → fm.completeIfEligible sha1 i data = some fm' → I fm')

include hc

theorem scanLoop_induct {k fileEnd count : ℕ} :
    ∀ {fm fm' : FileManager} {buf buf' : Bytes} {pieceBegin i : ℕ} {real : Option ℕ}, I fm →
      scanLoop sha1 k fileEnd count fm buf pieceBegin i = some (fm', buf', real) → I fm' := by
  induction count with
  | zero =>
    intro fm fm' buf buf' pieceBegin i real h hr
    rw [scanLoop] at hr
    cases hr
    exact h
  | succ count ih =>
    intro fm fm' buf buf' pieceBegin i real h hr
    rw [scanLoop] at hr
    split_ifs at hr
    · cases hr
      exact h
    · obtain ⟨⟨chunk, fm1⟩, h1, hr⟩ := Option.bind_eq_some_iff.1 hr
      obtain ⟨fm2, h2, hr⟩ := Option.bind_eq_some_iff.1 hr
      exact ih (hc _ _ _ _ (freadAt_induct hfp h h1) h2) hr

theorem scanRest_induct {k fileEnd begin pieceBegin pieceIndex : ℕ} {fm fm' : FileManager}
    {buf : Bytes} (h : I fm)
    (hr : scanRest sha1 k fileEnd fm buf begin pieceBegin pieceIndex = some fm') : I fm' := by
  obtain ⟨fm1, h1, hr⟩ := Option.bind_eq_some_iff.1 hr
  obtain ⟨⟨fm2, buf2, real⟩, h2, hr⟩ := Option.bind_eq_some_iff.1 hr
  have h3 := scanLoop_induct hfp hc (fseekAt_induct hfp h h1) h2
  dsimp only at hr
  split_ifs at hr
  · obtain ⟨length, -, hr⟩ := Option.bind_eq_some_iff.1 hr
    obtain ⟨⟨chunk, fm3⟩, h4, hr⟩ := Option.bind_eq_some_iff.1 hr
    exact hc _ _ _ _ (freadAt_induct hfp h3 h4) hr
  · cases hr
    exact h3

theorem scanHead_induct {k pieceBegin pieceIndex : ℕ} {fm fm' : FileManager}
    {info : TorrentFileInfo} {buf : Bytes} {r : Option Bytes} (h : I fm)
    (hr : scanHead sha1 k fm info buf pieceBegin pieceIndex = some (fm', r)) : I fm' := by
  obtain ⟨⟨chunk, fm1⟩, h1, hr⟩ := Option.bind_eq_some_iff.1 hr
  have h2 := freadAt_induct hfp h h1
  dsimp only at hr
  split_ifs at hr
  · cases hr
    exact h2
  · obtain ⟨⟨fm2, buf2⟩, h3, hr⟩ := Option.bind_eq_some_iff.1 hr
    have h4 := walkBack_induct hfp h2 h3
    cases buf2 with
    | none =>
      cases hr
      exact h4
    | some buf2 =>
      obtain ⟨fm3, h5, hr⟩ := Option.map_eq_some_iff.1 hr
      cases hr
      exact hc _ _ _ _ h4 h5

theorem scanFile_induct {stack : ℕ → UInt8} {k : ℕ} {fm fm' : FileManager} (h : I fm)
    (hr : scanFile sha1 stack fm k = some fm') : I fm' := by
  obtain ⟨f, -, hr⟩ := Option.bind_eq_some_iff.1 hr
  obtain ⟨fm1, h1, hr⟩ := Option.bind_eq_some_iff.1 hr
  have h2 := fseekAt_induct hfp h h1
  split_ifs at hr
  · cases hr
    exact h2
  · obtain ⟨length, -, hr⟩ := Option.bind_eq_some_iff.1 hr
    dsimp only at hr
    split_ifs at hr
    · cases hr
      exact h2
    · obtain ⟨⟨fm2, buf2⟩, h3, hr⟩ := Option.bind_eq_some_iff.1 hr
      have h4 := scanHead_induct hfp hc h2 h3
      cases buf2 with
      | none =>
        cases hr
        exact h4
      | some buf2 => exact scanRest_induct hfp hc h4 hr
    · exact scanRest_induct hfp hc h2 hr

/-- **What scanning preserves.** A property that does not depend on the positions of the streams and
that survives each tested completion holds behind `scan_pieces` if it holds before. -/
theorem scanPieces_induct {stack : ℕ → ℕ → UInt8} {fm fm' : FileManager} (h : I fm)
    (hr : scanPieces sha1 stack fm = some fm') : I fm' := by
  rw [scanPieces] at hr
  generalize List.range fm.files.length = ks at hr
  induction ks generalizing fm with
  | nil =>
    cases hr
    exact h
  | cons k ks ih =>
    rw [List.foldlM_cons] at hr
    obtain ⟨fm1, h1, hr⟩ := Option.bind_eq_some_iff.1 hr
    exact ih (scanFile_induct hfp hc h h1) hr

end Scan

end FileManager

end CTorrent
