import CTorrent.Peer.Peer

/-!
# `Peer::handleMessage`

One definition for each case of the switch. A handler returns the session afterwards; it is `none`
where the file manager divides by zero. `human` is `bytesToHumanReadable(…, true)`.

* `handleChoke` … `handlePort`, `handleMessage`;
* `receiveBits`: the loop over the bits of a bitfield.
-/

namespace CTorrent

namespace Peer

variable (sha1 : Bytes → Sha1sum) (human : ℕ → String)

/-- `MT_Choke`. -/
def handleChoke (s : Session) (payload : Bytes) : Option Session :=
  if payload.length ≠ 0 then some (handleError s "invalid choke-message size")
  else some { s with peer := { s.peer with peerChoked := true } }

/-- `MT_UnChoke`. -/
def handleUnchoke (s : Session) (payload : Bytes) : Option Session :=
  if payload.length ≠ 0 then some (handleError s "invalid unchoke-message size")
  else
    s.peer.queue.foldlM (fun s piece => requestPiece s piece.index)
      { s with peer := { s.peer with peerChoked := false } }

/-- `MT_Interested`. -/
def handleInterested (s : Session) (payload : Bytes) : Option Session :=
  if payload.length ≠ 0 then some (handleError s "invalid interested-message size")
  else
    let peer := { s.peer with peerInterested := true }
    some { s with peer := if peer.amChoked then peer.sendUnchoke else peer }

/-- `MT_NotInterested`. -/
def handleNotInterested (s : Session) (payload : Bytes) : Option Session :=
  if payload.length ≠ 0 then some (handleError s "invalid not-interested-message size")
  else some { s with peer := { s.peer with peerInterested := false } }

/-- `MT_Have`. -/
def handleHave (s : Session) (payload : Bytes) : Option Session :=
  if payload.length ≠ 4 then some (handleError s "invalid have-message size")
  else
    let i := (readBE32 payload 0).toNat
    if i < s.peer.bitset.size then
      some { s with peer := { s.peer with bitset := s.peer.bitset.set i } }
    else some s

/-- The loop of `MT_Bitfield` over the bits of the payload, most significant bit first. -/
def receiveBits (buf : Bytes) (totalPieces : ℕ) (bits : Bitset) : Bitset :=
  (List.range buf.length).foldl (fun bits i =>
    (List.range 8).foldl (fun bits x =>
      if byteAt buf i &&& (1 <<< UInt8.ofNat (7 - x)) ≠ 0 ∧ i * 8 + x < totalPieces then
        bits.set (i * 8 + x)
      else bits) bits) bits

/-- `MT_Bitfield`. -/
def handleBitfield (s : Session) (payload : Bytes) : Option Session :=
  if payload.length < 1 then some (handleError s "invalid bitfield-message size")
  else
    let s := { s with peer := { s.peer with
      bitset := receiveBits payload s.torrent.fileManager.pieces.length s.peer.bitset } }
    if !s.torrent.isFinished then Torrent.requestPiece s else some s

/-- `MT_Request`. -/
def handleRequest (s : Session) (payload : Bytes) : Option Session :=
  if payload.length ≠ 12 then some (handleError s "invalid request-message size")
  else if !s.peer.peerInterested then
    some (handleError s "peer requested piece block without showing interest")
  else if s.peer.amChoked then some (handleError s "peer requested piece while choked")
  else
    let index := (readBE32 payload 0).toNat
    let begin := (readBE32 payload 4).toNat
    let length := (readBE32 payload 8).toNat
    if length > maxRequestSize then
      some (handleError s ("peer requested block of length " ++ human length ++
        " which is beyond our max request size"))
    else
      (Torrent.handleRequestBlock s index begin length).map fun r =>
        let peer := r.2.peer
        { r.2 with peer := if !r.1 then peer.sendChoke
          else { peer with requestedBlocks := peer.requestedBlocks ++ [⟨index, begin, length⟩] } }

/-- The last part of `MT_PieceBlock`: all blocks of the piece are there, and the piece has been
taken from the queue. -/
def finishPiece (s : Session) (piece : Piece) : Option Session :=
  let s := { s with peer := { s.peer with handed := s.peer.handed ++ [piece] } }
  (Torrent.handlePieceCompleted sha1 s piece.index piece.data).bind fun r =>
    if !r.1 then some { r.2 with peer := r.2.peer.sendChoke }
    else if !r.2.torrent.isFinished then Torrent.requestPiece r.2
    else some r.2

/-- The part of `MT_PieceBlock` behind its checks; `k` is the position of the piece in the queue. -/
def acceptBlock (s : Session) (k : ℕ) (piece : Piece) (blockIndex : ℕ) (data : Bytes) :
    Option Session :=
  if s.torrent.fileManager.pieceDone piece.index then
    (cancelPiece s piece).map fun s =>
      { s with peer := { s.peer with queue := s.peer.queue.eraseIdx k } }
  else
    let piece := piece.store blockIndex data
    if piece.currentBlocks = piece.numBlocks then
      finishPiece sha1 { s with peer := { s.peer with queue := s.peer.queue.eraseIdx k } } piece
    else some { s with peer := { s.peer with queue := s.peer.queue.set k piece } }

/-- `MT_PieceBlock`. -/
def handlePieceBlock (s : Session) (payload : Bytes) : Option Session :=
  if payload.length < 9 then some (handleError s "invalid pieceblock-message size")
  else
    let index := (readBE32 payload 0).toNat
    let begin := (readBE32 payload 4).toNat
    let data := payload.drop 8
    if data.length = 0 ∨ data.length > maxRequestSize then
      some (handleError s ("received too big piece block of size " ++ human data.length))
    else
      let k := s.peer.queue.findIdx fun piece => piece.index = index
      match s.peer.queue[k]? with
      | none =>
          some (handleError s ("received piece " ++ toString index ++
            " which we did not ask for"))
      | some piece =>
          if begin / maxRequestSize ≥ piece.numBlocks then
            some (handleError s "received too big block index")
          else acceptBlock sha1 s k piece (begin / maxRequestSize) data

/-- `MT_Cancel`. -/
def handleCancel (s : Session) (payload : Bytes) : Option Session :=
  if payload.length ≠ 12 then some (handleError s "invalid cancel-message size")
  else
    let info : PieceBlockInfo :=
      ⟨(readBE32 payload 0).toNat, (readBE32 payload 4).toNat, (readBE32 payload 8).toNat⟩
    some { s with peer :=
      { s.peer with requestedBlocks := s.peer.requestedBlocks.erase info } }

/-- `MT_Port`. -/
def handlePort (s : Session) (payload : Bytes) : Option Session :=
  if payload.length ≠ 2 then some (handleError s "invalid port-message size") else some s

/-- A message arrives. -/
def receive (s : Session) (type : UInt8) (payload : Bytes) : Session :=
  { s with peer := { s.peer with wire := s.peer.wire ++ [.received type payload] } }

/-- `handleMessage`. A type that is none of the enumeration is ignored. -/
def handleMessage (s : Session) (type : UInt8) (payload : Bytes) : Option Session :=
  let s := receive s type payload
  match type.toNat with
  | 0 => handleChoke s payload
  | 1 => handleUnchoke s payload
  | 2 => handleInterested s payload
  | 3 => handleNotInterested s payload
  | 4 => handleHave s payload
  | 5 => handleBitfield s payload
  | 6 => handleRequest human s payload
  | 7 => handlePieceBlock sha1 human s payload
  | 8 => handleCancel s payload
  | 9 => handlePort s payload
  | _ => some s

end Peer

end CTorrent
