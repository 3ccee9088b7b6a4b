import CTorrent.FileManager.File
import CTorrent.Util.Bitset

/-!
# `TorrentFileManagerImpl`: pieces, bits and requests

The state of the file manager and the functions that the network side calls. `writePieceBlock` is
two steps, since the worker may run between its test (made without the lock) and its `push_write`:
`writeCheck` leaves an accepted request in `calls`, `writePush` moves it to the queue. A function
is `none` where the code divides by zero or indexes `m_pieces` out of range. The digest is compared
as a little-endian machine lays it out.

* `pieceLength`, `lastPieceLength`, `isReadEligible`, `isWriteEligible`;
* `requestPieceBlock`, `writeCheck`, `writePush`, `writePieceBlock`, `getNextPiece`;
* `checks` and `completions` record, for the proofs, the pieces whose digests were compared and
  those a completed bit was set for.
-/

namespace CTorrent

/-- `struct Piece`. -/
structure Piece where
  pri : ℤ := 0
  hash : Sha1sum

/-- `struct ReadRequest`. -/
structure ReadRequest where
  index : ℕ
  id : ℕ
  from_ : ℕ
  begin : ℕ
  size : ℕ

/-- `struct WriteRequest`. -/
structure WriteRequest where
  index : ℕ
  from_ : ℕ
  data : Bytes

/-- The state of a `TorrentFileManagerImpl`. -/
structure FileManager where
  metainfo : TorrentMeta
  completedBits : Bitset
  pendingBits : Bitset
  pieces : List Piece := []
  files : List TorrentFile := []
  readRequests : List ReadRequest := []
  writeRequests : List WriteRequest := []
  /-- The static `rid` of `requestPieceBlock`. -/
  rid : ℕ := 0
  /-- The calls of `writePieceBlock` that have passed the test and not pushed yet. -/
  calls : List WriteRequest := []
  checks : List (ℕ × Bytes) := []
  completions : List (ℕ × Bytes) := []

/-- The bytes of a word in memory. -/
def wordBytes (w : UInt32) : Bytes :=
  [w.toUInt8, (w >>> 8).toUInt8, (w >>> 16).toUInt8, (w >>> 24).toUInt8]

/-- The bytes of `uint32_t digest[5]` in memory. -/
def digestBytes (digest : Sha1sum) : Bytes := (List.finRange 5).flatMap fun k => wordBytes (digest k)

/-- `memcmp(digest, hash, n) == 0`. -/
def memcmpEq (digest hash : Sha1sum) (n : ℕ) : Bool :=
  (digestBytes digest).take n = (digestBytes hash).take n

namespace FileManager

/-- `init_pieces`, and the open files of `registerFiles`: the state before `scan_pieces`. -/
def register (heap heap' : ℤ → UInt8) (m : TorrentMeta) (files : List TorrentFile) : FileManager where
  metainfo := m
  pieces := m.sha1sums.map fun s => { hash := s }
  completedBits := Bitset.construct heap m.sha1sums.length
  pendingBits := Bitset.construct heap' m.sha1sums.length
  files := files

variable (sha1 : Bytes → Sha1sum) (fm : FileManager)

/-- `intact`. -/
def intact (index : ℕ) : Bool := index < fm.pieces.length

/-- `piece_done`. -/
def pieceDone (index : ℕ) : Bool := fm.intact index && fm.completedBits.test index

/-- `last_piece_length`. -/
def lastPieceLength : Option ℤ :=
  if fm.metainfo.pieceLength = 0 then none
  else
    let r := toInt64 (fm.metainfo.totalSize % fm.metainfo.pieceLength)
    if r ≠ 0 then some r else some (toInt64 fm.metainfo.pieceLength)

/-- `piece_length`. -/
def pieceLength (index : ℕ) : Option ℤ :=
  if index = sub64 fm.pieces.length 1 then fm.lastPieceLength
  else some (toInt64 fm.metainfo.pieceLength)

/-- `TorrentFileManager::pieceSize`. -/
def pieceSize (index : ℕ) : Option ℕ := (fm.pieceLength index).map toSize

/-- `is_read_eligible`. -/
def isReadEligible (index : ℕ) (end_ : ℤ) : Option Bool :=
  if fm.completedBits.test index then (fm.pieceLength index).map fun length => end_ < length
  else some false

/-- `is_write_eligible`. -/
def isWriteEligible (index : ℕ) (data : Bytes) : Option Bool :=
  if fm.pendingBits.test index then some false
  else fm.pieces[index]?.map fun piece => memcmpEq (sha1 data) piece.hash 5

/-- A call of `is_write_eligible`, recorded in `checks` when it comes to the comparison. -/
def check (index : ℕ) (data : Bytes) : Option (Bool × FileManager) :=
  (fm.isWriteEligible sha1 index data).map fun ok =>
    (ok, if fm.pendingBits.test index then fm
      else { fm with checks := fm.checks ++ [(index, data)] })

/-- `m_completedBits.set(index)` on behalf of `data`. -/
def complete (index : ℕ) (data : Bytes) : FileManager :=
  { fm with
    completedBits := fm.completedBits.set index
    completions := fm.completions ++ [(index, data)] }

/-- `if (is_write_eligible(index, data, size)) m_completedBits.set(index)`. -/
def completeIfEligible (index : ℕ) (data : Bytes) : Option FileManager :=
  (fm.check sha1 index data).map fun r => if r.1 then r.2.complete index data else r.2

/-- `requestPieceBlock`. -/
def requestPieceBlock (index from_ begin size : ℕ) : Option (Bool × FileManager) :=
  if !fm.intact index then some (false, fm)
  else
    (fm.isReadEligible index (toInt64 (begin + size))).map fun ok =>
      if !ok then (false, fm)
      else
        (true, { fm with
          readRequests := fm.readRequests ++ [⟨index, fm.rid, from_, begin, size⟩]
          rid := (fm.rid + 1) % 2 ^ 32 })

/-- `writePieceBlock` up to its test; the Boolean is what the call returns. -/
def writeCheck (index from_ : ℕ) (data : Bytes) : Option (Bool × FileManager) :=
  if !fm.intact index then some (false, fm)
  else
    (fm.check sha1 index data).map fun r =>
      (r.1, if r.1 then { r.2 with calls := r.2.calls ++ [⟨index, from_, data⟩] } else r.2)

/-- `push_write`. -/
def pushWrite (w : WriteRequest) : FileManager :=
  { fm with
    writeRequests := fm.writeRequests ++ [w]
    pendingBits := fm.pendingBits.set w.index }

/-- The rest of the `n`-th of the calls of `writePieceBlock` that have passed the test. -/
def writePush (n : ℕ) : Option FileManager :=
  fm.calls[n]?.map fun w => { fm with calls := fm.calls.eraseIdx n }.pushWrite w

/-- `writePieceBlock` as a whole, for callers between whose steps the worker does not run. -/
def writePieceBlock (index from_ : ℕ) (data : Bytes) : Option (Bool × FileManager) :=
  if !fm.intact index then some (false, fm)
  else
    (fm.check sha1 index data).map fun r =>
      (r.1, if r.1 then r.2.pushWrite ⟨index, from_, data⟩ else r.2)

/-- The loop of `get_next_piece` from `i` on: the index it returns early, or `index` and
`priority` at its end. -/
def nextPieceLoop (fun_ : ℕ → Bool) : List Piece → ℕ → ℕ → ℤ → ℕ ⊕ (ℕ × ℤ)
  | [], _, index, priority => .inr (index, priority)
  | p :: ps, i, index, priority =>
      if fm.completedBits.test i || fm.pendingBits.test i || !fun_ i then
        nextPieceLoop fun_ ps (i + 1) index priority
      else if p.pri = 0 then .inl i
      else if priority > p.pri then nextPieceLoop fun_ ps (i + 1) i p.pri
      else nextPieceLoop fun_ ps (i + 1) index priority

/-- `get_next_piece`: the largest `size_t` where there is none. -/
def getNextPiece (fun_ : ℕ → Bool) : ℕ × FileManager :=
  match fm.nextPieceLoop fun_ fm.pieces 0 0 (2 ^ 31 - 1) with
  | .inl i => (i, { fm with pieces := fm.pieces.modify i fun p => { p with pri := 1 } })
  | .inr (index, priority) =>
      if priority ≠ 2 ^ 31 - 1 then
        (index, { fm with pieces := fm.pieces.modify index fun p => { p with pri := p.pri + 1 } })
      else (2 ^ 64 - 1, fm)

/-- The length of a piece depends on the metainfo and the number of pieces only. -/
theorem pieceSize_congr {fm fm' : FileManager} (hm : fm'.metainfo = fm.metainfo)
    (hl : fm'.pieces.length = fm.pieces.length) (index : ℕ) :
    fm'.pieceSize index = fm.pieceSize index := by
  simp only [pieceSize, pieceLength, lastPieceLength, hm, hl]

section Total

variable {fm} (h : fm.metainfo.pieceLength ≠ 0)
include h

/-- With a piece length other than zero nothing divides by zero. -/
theorem isSome_pieceLength (index : ℕ) : (fm.pieceLength index).isSome = true := by
  unfold pieceLength lastPieceLength
  simp only [if_neg h]
  split_ifs <;> rfl

theorem isSome_pieceSize (index : ℕ) : (fm.pieceSize index).isSome = true := by
  rw [pieceSize, Option.isSome_map]
  exact isSome_pieceLength h index

theorem isSome_requestPieceBlock (index from_ begin size : ℕ) :
    (fm.requestPieceBlock index from_ begin size).isSome = true := by
  unfold requestPieceBlock isReadEligible
  split_ifs
  · rfl
  · rw [Option.isSome_map, Option.isSome_map]
    exact isSome_pieceLength h index
  · rfl

end Total

/-- A piece that is not empty has a piece length other than zero. -/
theorem pieceLength_ne_zero {index length : ℕ} (h : fm.pieceSize index = some length)
    (hpos : 1 ≤ length) : fm.metainfo.pieceLength ≠ 0 := by
  intro h0
  unfold pieceSize pieceLength lastPieceLength at h
  simp only [h0, if_true] at h
  split_ifs at h
  · cases h
  · cases h
    exact absurd hpos (by decide)

theorem isSome_writePieceBlock (index from_ : ℕ) (data : Bytes) :
    (fm.writePieceBlock sha1 index from_ data).isSome = true := by
  unfold writePieceBlock check isWriteEligible
  by_cases hi : index < fm.pieces.length
  · rw [if_neg (by simp [intact, hi])]
    split_ifs <;> simp [hi]
  · rw [if_pos (by simp [intact, hi])]
    rfl

/-- The metainfo and the number of pieces, on which the lengths of the pieces depend. -/
structure SameLayout (fm fm' : FileManager) : Prop where
  metainfo : fm'.metainfo = fm.metainfo
  length : fm'.pieces.length = fm.pieces.length

namespace SameLayout

variable {fm fm' fm'' : FileManager}

theorem refl (fm : FileManager) : SameLayout fm fm := ⟨rfl, rfl⟩

theorem trans (h : SameLayout fm fm') (h' : SameLayout fm' fm'') : SameLayout fm fm'' :=
  ⟨h'.metainfo.trans h.metainfo, h'.length.trans h.length⟩

theorem pieceSize_eq (h : SameLayout fm fm') : fm'.pieceSize = fm.pieceSize :=
  funext (pieceSize_congr h.metainfo h.length)

end SameLayout

theorem sameLayout_check {fm' : FileManager} {index : ℕ} {data : Bytes} {ok : Bool}
    (h : fm.check sha1 index data = some (ok, fm')) : SameLayout fm fm' := by
  unfold check at h
  obtain ⟨b, -, hb⟩ := Option.map_eq_some_iff.1 h
  cases hb
  split_ifs
  · exact .refl fm
  · exact ⟨rfl, rfl⟩

theorem sameLayout_writePieceBlock {fm' : FileManager} {index from_ : ℕ} {data : Bytes} {ok : Bool}
    (h : fm.writePieceBlock sha1 index from_ data = some (ok, fm')) : SameLayout fm fm' := by
  unfold writePieceBlock at h
  split_ifs at h
  · cases h
    exact .refl fm
  · obtain ⟨⟨b, fm₁⟩, hc, hb⟩ := Option.map_eq_some_iff.1 h
    cases hb
    have hcheck := fm.sameLayout_check sha1 hc
    cases b with
    | false => exact hcheck
    | true => exact ⟨hcheck.metainfo, hcheck.length⟩

theorem sameLayout_requestPieceBlock {fm' : FileManager} {index from_ begin size : ℕ} {ok : Bool}
    (h : fm.requestPieceBlock index from_ begin size = some (ok, fm')) : SameLayout fm fm' := by
  unfold requestPieceBlock at h
  split_ifs at h
  · cases h
    exact .refl fm
  · obtain ⟨b, -, hb⟩ := Option.map_eq_some_iff.1 h
    cases b with
    | false =>
      cases hb
      exact .refl fm
    | true =>
      cases hb
      exact ⟨rfl, rfl⟩

/-- What `get_next_piece` changes: the priorities of pieces. -/
theorem getNextPiece_frame (fun_ : ℕ → Bool) :
    ∃ pieces, (fm.getNextPiece fun_).2 = { fm with pieces := pieces } ∧
      pieces.map Piece.hash = fm.pieces.map Piece.hash := by
  have hmodify : ∀ (f : ℤ → ℤ) (i : ℕ),
      (fm.pieces.modify i fun p => { p with pri := f p.pri }).map Piece.hash =
        fm.pieces.map Piece.hash := by
    intro f i
    apply List.ext_getElem?
    intro k
    simp only [List.getElem?_map, List.getElem?_modify]
    split_ifs <;> cases fm.pieces[k]? <;> rfl
  rw [getNextPiece]
  split
  · exact ⟨_, rfl, hmodify (fun _ => 1) _⟩
  · split_ifs
    · exact ⟨_, rfl, hmodify (fun pri => pri + 1) _⟩
    · exact ⟨fm.pieces, rfl, rfl⟩

end FileManager

end CTorrent
