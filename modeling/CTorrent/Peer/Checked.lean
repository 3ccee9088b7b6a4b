import CTorrent.Lib.Except
import CTorrent.Net.OutputMessage
import CTorrent.Peer.Blocks
import CTorrent.Peer.Known

/-!
# Handling messages inside the bounds

`handleMessage` once more, with the memory it touches: the payload through its `InputMessage`, the
bits of the bit sets, the slots of a queued piece, and the buffer that collects a piece. None of
these accesses is tested by the code itself; here each of them is, and fails as a `Violation`.

* `Violation`, `require`, `setBit`, `collect`: the accesses;
* `checkedHave` … `checkedMessage`, `checkedHandle`: the handlers;
* `Piece.Small`: the stored blocks have at most `maxRequestSize` bytes each;
* `checkedHandle_inBounds`: from every reachable state every message is handled without a violation,
  and as `handleMessage` handles it.
-/

namespace CTorrent

/-- What may go wrong. -/
inductive Violation where
  /-- A read past the payload. -/
  | overrun
  /-- `getBuffer(size)` is the null pointer. -/
  | null
  /-- A bit of no piece is set. -/
  | bit
  /-- A slot of `piece->blocks` that does not exist. -/
  | slot
  /-- `add_unchecked` writes past the capacity. -/
  | capacity
  /-- A division by zero. -/
  | division
  deriving DecidableEq

/-- An access that must succeed. -/
def require {α : Type} (v : Violation) (o : Option α) : Except Violation α := o.elim (.error v) .ok

/-- `set(i)` on a bit set for `total` pieces. -/
def setBit (total : ℕ) (bits : Bitset) (i : ℕ) : Except Violation Bitset :=
  if i < total then .ok (bits.set i) else .error .bit

namespace Peer

variable (sha1 : Bytes → Sha1sum) (human : ℕ → String) (fresh : ℕ → UInt8)

/-- `MT_Have`. -/
def checkedHave (s : Session) (payload : Bytes) : Except Violation Session :=
  if payload.length ≠ 4 then .ok (handleError s "invalid have-message size")
  else do
    let (i, _) ← require .overrun (InputMessage.getU32 ⟨payload, 0⟩ .bigEndian)
    if i.toNat < s.peer.bitset.size then
      let bits ← setBit s.torrent.fileManager.pieces.length s.peer.bitset i.toNat
      return { s with peer := { s.peer with bitset := bits } }
    else return s

/-- A pass of the loop of `MT_Bitfield`. -/
def checkedBit (buf : Bytes) (total i : ℕ) (bits : Bitset) (x : ℕ) : Except Violation Bitset := do
  let byte ← require .overrun buf[i]?
  if byte &&& (1 <<< UInt8.ofNat (7 - x)) ≠ 0 ∧ i * 8 + x < total then
    setBit total bits (i * 8 + x)
  else return bits

/-- The loop of `MT_Bitfield`. -/
def checkedBits (buf : Bytes) (total : ℕ) (bits : Bitset) : Except Violation Bitset :=
  (List.range buf.length).foldlM (fun bits i =>
    (List.range 8).foldlM (checkedBit buf total i) bits) bits

/-- `MT_Bitfield`. -/
def checkedBitfield (s : Session) (payload : Bytes) : Except Violation Session :=
  if payload.length < 1 then .ok (handleError s "invalid bitfield-message size")
  else do
    let bits ← checkedBits payload s.torrent.fileManager.pieces.length s.peer.bitset
    let s := { s with peer := { s.peer with bitset := bits } }
    if !s.torrent.isFinished then require .division (Torrent.requestPiece s) else return s

/-- `in >> index; in >> begin; in >> length`. -/
def checkedInfo (payload : Bytes) : Except Violation PieceBlockInfo := do
  let (index, input) ← require .overrun (InputMessage.getU32 ⟨payload, 0⟩ .bigEndian)
  let (begin, input) ← require .overrun (input.getU32 .bigEndian)
  let (length, _) ← require .overrun (input.getU32 .bigEndian)
  return ⟨index.toNat, begin.toNat, length.toNat⟩

/-- `MT_Request`. -/
def checkedRequest (s : Session) (payload : Bytes) : Except Violation Session :=
  if payload.length ≠ 12 then .ok (handleError s "invalid request-message size")
  else if !s.peer.peerInterested then
    .ok (handleError s "peer requested piece block without showing interest")
  else if s.peer.amChoked then .ok (handleError s "peer requested piece while choked")
  else do
    let info ← checkedInfo payload
    if info.length > maxRequestSize then
      return handleError s ("peer requested block of length " ++ human info.length ++
        " which is beyond our max request size")
    else
      let r ← require .division (Torrent.handleRequestBlock s info.index info.begin info.length)
      return { r.2 with peer := if !r.1 then r.2.peer.sendChoke
        else { r.2.peer with requestedBlocks := r.2.peer.requestedBlocks ++ [info] } }

/-- The loops that collect `pieceData`. -/
def collect (piece : Piece) : Except Violation (DataBuffer UInt8) :=
  (List.range piece.numBlocks).foldlM (fun pieceData x => do
    let block ← require .slot piece.blocks[x]?
    (block.getD []).foldlM (fun pieceData byte => require .capacity (pieceData.addUnchecked byte))
      pieceData)
    ((DataBuffer.new fresh 64).reserve fresh (piece.numBlocks * maxRequestSize))

/-- `handlePieceCompleted` and what follows it; the pending bit of an accepted piece is set. -/
def checkedFinish (s : Session) (piece : Piece) : Except Violation Session := do
  let pieceData ← collect fresh piece
  let s := { s with peer := { s.peer with handed := s.peer.handed ++ [piece] } }
  let r ← require .division
    (Torrent.handlePieceCompleted sha1 s piece.index pieceData.contents)
  if !r.1 then return { r.2 with peer := r.2.peer.sendChoke }
  else
    let _ ← setBit s.torrent.fileManager.pieces.length s.torrent.fileManager.pendingBits piece.index
    if !r.2.torrent.isFinished then require .division (Torrent.requestPiece r.2) else return r.2

/-- The part of `MT_PieceBlock` behind its checks. -/
def checkedAccept (s : Session) (k : ℕ) (piece : Piece) (blockIndex : ℕ) (input : InputMessage)
    (payloadSize : ℕ) : Except Violation Session :=
  if s.torrent.fileManager.pieceDone piece.index then
    require .division ((cancelPiece s piece).map fun s =>
      { s with peer := { s.peer with queue := s.peer.queue.eraseIdx k } })
  else do
    let data ← require .null (input.getBuffer payloadSize)
    let _ ← require .slot piece.blocks[blockIndex]?
    let piece := piece.store blockIndex data
    if piece.currentBlocks = piece.numBlocks then
      checkedFinish sha1 fresh
        { s with peer := { s.peer with queue := s.peer.queue.eraseIdx k } } piece
    else return { s with peer := { s.peer with queue := s.peer.queue.set k piece } }

/-- `MT_PieceBlock`. -/
def checkedPieceBlock (s : Session) (payload : Bytes) : Except Violation Session :=
  if payload.length < 9 then .ok (handleError s "invalid pieceblock-message size")
  else do
    let (index, input) ← require .overrun (InputMessage.getU32 ⟨payload, 0⟩ .bigEndian)
    let (begin, input) ← require .overrun (input.getU32 .bigEndian)
    let payloadSize := payload.length - 8
    if payloadSize = 0 ∨ payloadSize > maxRequestSize then
      return handleError s ("received too big piece block of size " ++ human payloadSize)
    else
      let k := s.peer.queue.findIdx fun piece => piece.index = index.toNat
      match s.peer.queue[k]? with
      | none =>
          return handleError s ("received piece " ++ toString index.toNat ++
            " which we did not ask for")
      | some piece =>
          if begin.toNat / maxRequestSize ≥ piece.numBlocks then
            return handleError s "received too big block index"
          else
            checkedAccept sha1 fresh s k piece (begin.toNat / maxRequestSize) input payloadSize

/-- `MT_Cancel`. -/
def checkedCancel (s : Session) (payload : Bytes) : Except Violation Session :=
  if payload.length ≠ 12 then .ok (handleError s "invalid cancel-message size")
  else do
    let info ← checkedInfo payload
    return { s with peer := { s.peer with requestedBlocks := s.peer.requestedBlocks.erase info } }

/-- `MT_Port`. -/
def checkedPort (s : Session) (payload : Bytes) : Except Violation Session :=
  if payload.length ≠ 2 then .ok (handleError s "invalid port-message size")
  else do
    let _ ← require .overrun (InputMessage.getU16 ⟨payload, 0⟩ .bigEndian)
    return s

/-- `handleMessage`. The first four cases touch no memory. -/
def checkedMessage (s : Session) (type : UInt8) (payload : Bytes) : Except Violation Session :=
  let s := receive s type payload
  match type.toNat with
  | 0 => require .division (handleChoke s payload)
  | 1 => require .division (handleUnchoke s payload)
  | 2 => require .division (handleInterested s payload)
  | 3 => require .division (handleNotInterested s payload)
  | 4 => checkedHave s payload
  | 5 => checkedBitfield s payload
  | 6 => checkedRequest human s payload
  | 7 => checkedPieceBlock sha1 human fresh s payload
  | 8 => checkedCancel s payload
  | 9 => checkedPort s payload
  | _ => .ok s

/-- The callback of `Peer::handle` on a message: its type is the first byte. -/
def checkedHandle (s : Session) (data : Bytes) : Except Violation Session := do
  let type ← require .overrun data[0]?
  checkedMessage sha1 human fresh s type (data.drop 1)

/-! ### The accesses succeed -/

section Access

variable {sha1 human fresh} {s s' : Session} {payload : Bytes}

@[simp] theorem require_some {α : Type} (v : Violation) (a : α) : require v (some a) = .ok a := rfl

@[simp] theorem require_none {α : Type} (v : Violation) : require v (none : Option α) = .error v :=
  rfl

theorem require_map {α β : Type} (v : Violation) (o : Option α) (f : α → β) :
    require v (o.map f) = (require v o >>= fun a => .ok (f a)) := by
  cases o <;> rfl

theorem require_bind {α β : Type} (v : Violation) (o : Option α) (f : α → Option β) :
    require v (o.bind f) = (require v o >>= fun a => require v (f a)) := by
  cases o <;> rfl

theorem checkedInfo_eq (h : payload.length = 12) : checkedInfo payload = .ok (infoOf payload) := by
  have h0 := InputMessage.getU32_of_le payload 0 (by omega) (by decide)
  have h4 := InputMessage.getU32_of_le payload (0 + 4) (by omega) (by decide)
  have h8 := InputMessage.getU32_of_le payload (0 + 4 + 4) (by omega) (by decide)
  simp only [checkedInfo, h0, h4, h8, require_some, Except.ok_bind, Except.pure_eq_ok, infoOf]

theorem checkedHave_eq (hs : s.Sized) :
    checkedHave s payload = require .division (handleHave s payload) := by
  rw [checkedHave, handleHave]
  split_ifs with hsize
  · rfl
  · have h4 := InputMessage.getU32_of_le payload 0 (by omega) (by decide)
    have hsize' : s.torrent.fileManager.pieces.length = s.peer.bitset.size := hs.symm
    simp only [h4, require_some, Except.ok_bind, setBit, hsize', Except.pure_eq_ok]
    split_ifs <;> rfl

/-- The bytes of a bitfield are read inside the payload, and no bit of another piece is set. -/
theorem checkedBits_eq (buf : Bytes) (total : ℕ) (bits : Bitset) :
    checkedBits buf total bits = .ok (receiveBits buf total bits) := by
  rw [checkedBits, receiveBits]
  refine Except.foldlM_eq_ok (fun i hi bits => Except.foldlM_eq_ok (fun x _ bits => ?_) bits) bits
  have hbyte : buf[i]? = some (byteAt buf i) := by
    rw [byteAt, List.getElem?_eq_getElem (List.mem_range.1 hi)]
    rfl
  simp only [checkedBit, hbyte, require_some, Except.ok_bind, setBit, Except.pure_eq_ok]
  split_ifs with hset hlt
  · rfl
  · exact absurd hset.2 hlt
  · rfl

theorem checkedBitfield_eq (s : Session) (payload : Bytes) :
    checkedBitfield s payload = require .division (handleBitfield s payload) := by
  rw [checkedBitfield, handleBitfield]
  split_ifs with hsize
  · rfl
  · simp only [checkedBits_eq, Except.ok_bind, Except.pure_eq_ok]
    split_ifs <;> rfl

theorem checkedRequest_eq (s : Session) (payload : Bytes) :
    checkedRequest human s payload = require .division (handleRequest human s payload) := by
  rw [checkedRequest, handleRequest]
  split_ifs with hsize hinterested hchoked
  · rfl
  · rfl
  · rfl
  · simp only [checkedInfo_eq (not_not.1 hsize), Except.ok_bind, Except.pure_eq_ok, infoOf]
    split_ifs
    · rfl
    · rw [require_map]

theorem checkedCancel_eq (s : Session) (payload : Bytes) :
    checkedCancel s payload = require .division (handleCancel s payload) := by
  rw [checkedCancel, handleCancel]
  split_ifs with hsize
  · rfl
  · simp only [checkedInfo_eq (not_not.1 hsize), Except.ok_bind, Except.pure_eq_ok, infoOf, require_some]

theorem checkedPort_eq (s : Session) (payload : Bytes) :
    checkedPort s payload = require .division (handlePort s payload) := by
  rw [checkedPort, handlePort]
  split_ifs with hsize
  · rfl
  · have h2 := InputMessage.getU16_of_le payload 0 (by omega) (by decide)
    simp only [h2, require_some, Except.ok_bind, Except.pure_eq_ok]

/-! ### Collecting a piece -/

/-- No block of the piece is larger than a request may be. -/
def Piece.Small (piece : Piece) : Prop :=
  ∀ block, some block ∈ piece.blocks → block.length ≤ maxRequestSize

theorem Piece.small_new (index length : ℕ) : (Piece.new index length).Small := by
  intro block hblock
  have := List.eq_of_mem_replicate hblock
  cases this

theorem Piece.Small.store {piece : Piece} (h : piece.Small) (slot : ℕ) {data : Bytes}
    (hdata : data.length ≤ maxRequestSize) : (piece.store slot data).Small := by
  intro block hblock
  rcases List.mem_or_eq_of_mem_set hblock with hmem | heq
  · exact h block hmem
  · rw [Option.some.inj heq]
    exact hdata

/-- Bytes for which there is room are all appended. -/
theorem addAll (b : DataBuffer UInt8) (bytes : Bytes) (h : b.size + bytes.length ≤ b.cap) :
    ∃ b', bytes.foldlM (fun b byte => require .capacity (DataBuffer.addUnchecked b byte)) b =
        .ok b' ∧
      b'.size = b.size + bytes.length ∧ b'.cap = b.cap ∧ b'.contents = b.contents ++ bytes := by
  induction bytes generalizing b with
  | nil => exact ⟨b, rfl, rfl, rfl, by rw [List.append_nil]⟩
  | cons byte bytes ih =>
    rw [List.length_cons] at h
    obtain ⟨b₁, h₁, hsize₁, hcap₁, hcont₁⟩ := DataBuffer.addUnchecked_spec
      (by omega : b.size < b.cap) byte
    obtain ⟨b₂, h₂, hsize₂, hcap₂, hcont₂⟩ := ih (b := b₁) (by omega)
    refine ⟨b₂, ?_, by rw [hsize₂, hsize₁, List.length_cons]; omega, hcap₂.trans hcap₁, ?_⟩
    · rw [List.foldlM_cons, h₁, require_some, Except.ok_bind]
      exact h₂
    · rw [hcont₂, hcont₁, List.append_assoc, List.singleton_append]

/-- The loop that collects a piece, up to any of its blocks: there is room for `maxRequestSize` bytes
of each. -/
theorem collect_blocks {piece : Piece} (h : piece.Small) {start : DataBuffer UInt8}
    (hsize : start.size = 0) (hcap : piece.numBlocks * maxRequestSize ≤ start.cap) {n : ℕ}
    (hn : n ≤ piece.numBlocks) :
    ∃ b, (List.range n).foldlM (fun pieceData x => do
        let block ← require .slot piece.blocks[x]?
        (block.getD []).foldlM (fun pieceData byte => require .capacity
          (pieceData.addUnchecked byte)) pieceData) start = Except.ok b ∧
      b.size ≤ n * maxRequestSize ∧ b.cap = start.cap ∧
      b.contents = (piece.blocks.take n).flatMap fun block => block.getD [] := by
  induction n with
  | zero => exact ⟨start, rfl, by omega, rfl, by rw [DataBuffer.contents, hsize]; rfl⟩
  | succ n ih =>
    obtain ⟨b, hb, hbsize, hbcap, hbcont⟩ := ih (by omega)
    have hlt : n < piece.blocks.length := by
      rw [piece.length_blocks]
      omega
    have hget := List.getElem?_eq_getElem hlt
    have hlen : (piece.blocks[n].getD []).length ≤ maxRequestSize := by
      cases hblock : piece.blocks[n] with
      | none => exact Nat.zero_le _
      | some block => exact h block (hblock ▸ List.getElem_mem hlt)
    have hroom : (n + 1) * maxRequestSize ≤ piece.numBlocks * maxRequestSize :=
      Nat.mul_le_mul_right _ hn
    rw [Nat.add_mul, Nat.one_mul] at hroom
    obtain ⟨b', hb', hsize', hcap', hcont'⟩ := addAll b (piece.blocks[n].getD []) (by omega)
    refine ⟨b', ?_, by rw [Nat.add_mul, Nat.one_mul]; omega, hcap'.trans hbcap, ?_⟩
    · rw [List.range_succ, List.foldlM_append, hb, Except.ok_bind, List.foldlM_cons, hget,
        require_some, Except.ok_bind, hb']
      rfl
    · rw [hcont', hbcont, List.take_add_one, hget, List.flatMap_append]
      simp

/-- **Collecting a piece.** Small blocks fit into what is reserved for the piece. -/
theorem collect_eq {piece : Piece} (h : piece.Small) (fresh : ℕ → UInt8) :
    ∃ b, collect fresh piece = .ok b ∧ b.contents = piece.data := by
  set start : DataBuffer UInt8 :=
    (DataBuffer.new fresh 64).reserve fresh (piece.numBlocks * maxRequestSize) with hstart
  have hsize : start.size = 0 := by
    rw [hstart, DataBuffer.reserve]
    split_ifs <;> rfl
  have hcap : piece.numBlocks * maxRequestSize ≤ start.cap := by
    by_cases hlt : (DataBuffer.new fresh 64).cap < piece.numBlocks * maxRequestSize
    · exact (DataBuffer.cap_reserve fresh (Nat.zero_le _) hlt).ge
    · rw [hstart, DataBuffer.reserve, if_neg hlt]
      omega
  obtain ⟨b, hb, -, -, hcont⟩ := collect_blocks h hsize hcap le_rfl
  refine ⟨b, hb, ?_⟩
  rw [hcont, ← piece.length_blocks, List.take_length]
  rfl

/-! ### The last handler -/

/-- A piece is accepted only if it is in range. -/
theorem lt_of_writePieceBlock {fm fm' : FileManager} {index from_ : ℕ} {data : Bytes}
    (h : fm.writePieceBlock sha1 index from_ data = some (true, fm')) :
    index < fm.pieces.length := by
  rw [FileManager.writePieceBlock] at h
  split_ifs at h with hi
  · cases h
  · simpa [FileManager.intact] using hi

theorem checkedFinish_eq {piece : Piece} (h : piece.Small) (s : Session) :
    checkedFinish sha1 fresh s piece = require .division (finishPiece sha1 s piece) := by
  obtain ⟨b, hb, hcont⟩ := collect_eq h fresh
  simp only [checkedFinish, hb, Except.ok_bind, hcont, finishPiece, require_bind]
  cases hr : Torrent.handlePieceCompleted sha1
      { s with peer := { s.peer with handed := s.peer.handed ++ [piece] } } piece.index
      piece.data with
  | none => rfl
  | some r =>
    simp only [require_some, Except.ok_bind, Except.pure_eq_ok]
    cases hok : r.1 with
    | false => rfl
    | true =>
      have hlt : piece.index < s.torrent.fileManager.pieces.length := by
        obtain ⟨⟨ok, fm⟩, hw, hif⟩ := Option.map_eq_some_iff.1 hr
        cases ok with
        | true => exact lt_of_writePieceBlock hw
        | false =>
          rw [← hif] at hok
          cases hok
      simp only [Bool.not_true, Bool.false_eq_true, if_false, setBit, if_pos hlt, Except.ok_bind]
      split_ifs <;> rfl

theorem checkedAccept_eq {piece : Piece} (h : piece.Small) (k : ℕ) {blockIndex : ℕ}
    (hslot : blockIndex < piece.numBlocks) (h9 : 9 ≤ payload.length)
    (hle : payload.length - 8 ≤ maxRequestSize) :
    checkedAccept sha1 fresh s k piece blockIndex ⟨payload, 8⟩ (payload.length - 8) =
      require .division (acceptBlock sha1 s k piece blockIndex (payload.drop 8)) := by
  have hbuffer : InputMessage.getBuffer ⟨payload, 8⟩ (payload.length - 8) =
      some (payload.drop 8) := by
    rw [InputMessage.getBuffer, if_neg (by simp only; omega), Splice.region,
      List.take_of_length_le (by simp)]
  have hget : ∃ block, piece.blocks[blockIndex]? = some block :=
    ⟨_, List.getElem?_eq_getElem (piece.length_blocks ▸ hslot)⟩
  obtain ⟨block, hblock⟩ := hget
  have hsmall : (piece.store blockIndex (payload.drop 8)).Small :=
    h.store blockIndex (by simpa using hle)
  rw [checkedAccept, acceptBlock]
  split_ifs with hdone
  · rfl
  · simp only [hbuffer, hblock, require_some, Except.ok_bind, Except.pure_eq_ok]
    split_ifs
    · exact checkedFinish_eq hsmall _
    · rfl

theorem checkedPieceBlock_eq (h : ∀ piece ∈ s.peer.queue, piece.Small) (payload : Bytes) :
    checkedPieceBlock sha1 human fresh s payload =
      require .division (handlePieceBlock sha1 human s payload) := by
  rw [checkedPieceBlock, handlePieceBlock]
  split_ifs with hsize
  · rfl
  · have h0 := InputMessage.getU32_of_le payload 0 (by omega) (by decide)
    have h4 := InputMessage.getU32_of_le payload (0 + 4) (by omega) (by decide)
    simp only [h0, h4, require_some, Except.ok_bind, Except.pure_eq_ok, List.length_drop]
    split_ifs with hle
    · rfl
    · cases hk : s.peer.queue[s.peer.queue.findIdx
          fun piece => piece.index = (readBE32 payload 0).toNat]? with
      | none => rfl
      | some piece =>
        simp only
        split_ifs with hslot
        · rfl
        · exact checkedAccept_eq (h piece (List.mem_of_getElem? hk)) _ (by omega) (by omega)
            (by omega)

/-- **One message.** With a bit for each piece and only small blocks stored, the accesses of
`handleMessage` succeed. -/
theorem checkedMessage_eq (hs : s.Sized) (h : ∀ piece ∈ s.peer.queue, piece.Small) (type : UInt8)
    (payload : Bytes) : checkedMessage sha1 human fresh s type payload =
      require .division (handleMessage sha1 human s type payload) := by
  have hs' : (receive s type payload).Sized := hs
  have h' : ∀ piece ∈ (receive s type payload).peer.queue, piece.Small := h
  unfold checkedMessage handleMessage
  generalize type.toNat = n
  match n with
  | 0 | 1 | 2 | 3 => rfl
  | 4 => exact checkedHave_eq hs'
  | 5 => exact checkedBitfield_eq _ _
  | 6 => exact checkedRequest_eq _ _
  | 7 => exact checkedPieceBlock_eq h' _
  | 8 => exact checkedCancel_eq _ _
  | 9 => exact checkedPort_eq _ _
  | _ + 10 => rfl

/-! ### The runs -/

/-- What an event makes of small blocks. -/
theorem small_step (s : Session) (e : Event) (s' : Session)
    (h : ∀ piece ∈ s.peer.queue, piece.Small) (hstep : s.step sha1 human e = some s') :
    ∀ piece ∈ s'.peer.queue, piece.Small := by
  rcases step_queue hstep with ⟨type, payload, -, hqueue⟩ | ⟨-, hqueue, -⟩
  · have hgrown : ∀ {q q' : List Piece}, Grown s q q' → (∀ piece ∈ q, piece.Small) →
        ∀ piece ∈ q', piece.Small := by
      rintro q q' (rfl | ⟨index, length, -, -, rfl⟩) hq piece hpiece
      · exact hq piece hpiece
      · rcases List.mem_append.1 hpiece with hpiece | hpiece
        · exact hq piece hpiece
        · rw [List.mem_singleton.1 hpiece]
          exact Piece.small_new index length
    generalize type.toNat = n at hqueue
    generalize s'.peer.handed = handed at hqueue
    generalize s'.peer.queue = queue at hqueue ⊢
    cases hqueue with
    | keep hno hgrow => exact hgrown hgrow h
    | done hd hdone => exact fun piece hpiece => h piece (hd.mem_of_rest hpiece)
    | store hd hdone hmore =>
      intro piece hpiece
      rcases List.mem_append.1 hpiece with hpiece | hpiece
      · exact h piece (hd.mem_of_rest (List.mem_append_left _ hpiece))
      · rcases List.mem_cons.1 hpiece with rfl | hpiece
        · exact (h _ hd.mem).store _ (by rw [List.length_drop]; exact hd.le)
        · exact h piece (hd.mem_of_rest (List.mem_append_right _ hpiece))
    | finish hd hdone hlast hgrow =>
      exact hgrown hgrow fun piece hpiece => h piece (hd.mem_of_rest hpiece)
  · rw [hqueue]
    exact h

/-- **Hostile messages stay in bounds.** From every state that a connection to a torrent with
pieces of a positive length can be in, every message of at least one byte is handled without a
violation, as `handleMessage` handles it. -/
theorem checkedHandle_inBounds {t : Torrent} (hpos : 0 < t.fileManager.metainfo.pieceLength)
    (ip : UInt32) (heap : ℤ → UInt8) {events : List Event}
    (hr : Runs.run (Session.step sha1 human)
      ⟨t, Peer.new ip heap t.fileManager.pieces.length⟩ events = some s)
    (fresh : ℕ → UInt8) (type : UInt8) (payload : Bytes) :
    ∃ s', checkedHandle sha1 human fresh s (type :: payload) = .ok s' ∧
      handleMessage sha1 human s type payload = some s' := by
  have hstart : Session.Sized ⟨t, Peer.new ip heap t.fileManager.pieces.length⟩ := rfl
  have hsized : s.Sized := Runs.inv_run_of_step Session.sized_step hstart hr
  have hsmall : ∀ piece ∈ s.peer.queue, piece.Small :=
    Runs.inv_run_of_step (I := fun s => ∀ piece ∈ s.peer.queue, piece.Small) small_step
      (by simp [Peer.new]) hr
  have hlength : s.torrent.fileManager.metainfo.pieceLength ≠ 0 := by
    rw [(sameLayout_run hr).metainfo]
    exact Nat.ne_of_gt hpos
  have hsome : (handleMessage sha1 human s type payload).isSome = true :=
    isSome_handleMessage hlength type payload
  obtain ⟨s', hs'⟩ := Option.isSome_iff_exists.1 hsome
  refine ⟨s', ?_, hs'⟩
  show checkedMessage sha1 human fresh s type payload = _
  rw [checkedMessage_eq hsized hsmall, hs']
  rfl

end Access

/-- A peer unchokes us and has the only piece, which is then requested. -/
def askedOnce : List Event := [.message 1 [], .message 5 [0x80]]

/-- It answers with the second byte of the piece as if it were the first block. -/
theorem checkedHandle_inBounds_asked : ∃ s s',
    Runs.run (Session.step (fun _ _ => 0) toString) ⟨onePiece 2, Peer.new 1 (fun _ => 0) 1⟩
      askedOnce = some s ∧
    checkedHandle (fun _ _ => 0) toString (fun _ => 0) s (7 :: [0, 0, 0, 0, 0, 0, 0, 1, 9]) =
      .ok s' ∧
    handleMessage (fun _ _ => 0) toString s 7 [0, 0, 0, 0, 0, 0, 0, 1, 9] = some s' := by
  have hrun : (Runs.run (Session.step (fun _ _ => 0) toString)
      ⟨onePiece 2, Peer.new 1 (fun _ => 0) 1⟩ askedOnce).isSome = true := by decide +kernel
  obtain ⟨s, hs⟩ := Option.isSome_iff_exists.1 hrun
  have htwo : 0 < (onePiece 2).fileManager.metainfo.pieceLength := by decide
  obtain ⟨s', hs'⟩ := checkedHandle_inBounds htwo 1 (fun _ => 0) hs (fun _ => 0) 7
    [0, 0, 0, 0, 0, 0, 0, 1, 9]
  exact ⟨s, s', hs, hs'⟩

end Peer

end CTorrent
