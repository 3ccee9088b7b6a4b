import CTorrent.FileManager.Basic
import CTorrent.Peer.Message

/-!
# `ctorrent/peer.cpp` and `ctorrent/torrent.cpp`: a peer and its torrent

A `Peer` is one connection. Everything that has passed over it, in both directions, is kept in
`wire`, and every call of `handleError` in `errors`. `Session` is a peer together with the torrent
it belongs to, on which the handlers act.

* `Peer.Piece`: a queued piece, whose slots are filled as its blocks arrive;
* the senders, `blocksOf` (the loop of `requestPiece` and `cancelPiece`), `sendPieceRequest`;
* `Torrent.requestPiece`, `handlePieceCompleted`, `handleRequestBlock`, `addPeer`, `removePeer`;
* `handed` records, for the proofs, the pieces a peer has given to `handlePieceCompleted`.
-/

namespace CTorrent

/-- `maxRequestSize`. -/
def maxRequestSize : ℕ := 16384

/-- What passes over a connection. -/
inductive Wire where
  | received (type : UInt8) (payload : Bytes)
  | sent (msg : Message)
  deriving DecidableEq

/-- `struct Peer::PieceBlockInfo`. -/
structure PieceBlockInfo where
  index : ℕ
  begin : ℕ
  length : ℕ
  deriving DecidableEq

/-- `struct Peer::Piece`: a slot holds the data of its block, once there is any. -/
structure Peer.Piece where
  index : ℕ
  currentBlocks : ℕ
  numBlocks : ℕ
  blocks : List (Option Bytes)
  length_blocks : blocks.length = numBlocks

/-- A `Peer` object. The four flags are the bits of `m_state`. -/
structure Peer where
  ip : UInt32
  bitset : Bitset
  queue : List Peer.Piece := []
  requestedBlocks : List PieceBlockInfo := []
  amChoked : Bool := true
  amInterested : Bool := false
  peerChoked : Bool := true
  peerInterested : Bool := false
  connected : Bool := true
  errors : List String := []
  wire : List Wire := []
  handed : List Peer.Piece := []

/-- A `Torrent` object: its file manager, `m_peers` (address and peer object), and its counters. -/
structure Torrent where
  fileManager : FileManager
  peers : List (UInt32 × ℕ) := []
  blacklisted : List UInt32 := []
  uploadedBytes : ℕ := 0
  downloadedBytes : ℕ := 0
  wastedBytes : ℕ := 0
  hashMisses : ℕ := 0

/-- A peer and its torrent. -/
structure Session where
  torrent : Torrent
  peer : Peer

/-! ### Pieces -/

namespace Peer

namespace Piece

/-- The `Piece` that `sendPieceRequest` allocates. The length is truncated to 32 bits; dividing it
by a power of two in `double` is exact. -/
def new (index pieceLength : ℕ) : Piece where
  index := index
  currentBlocks := 0
  numBlocks := (pieceLength % 2 ^ 32 + maxRequestSize - 1) / maxRequestSize
  blocks := List.replicate ((pieceLength % 2 ^ 32 + maxRequestSize - 1) / maxRequestSize) none
  length_blocks := List.length_replicate

/-- A block arrives: its slot is set and `currentBlocks` incremented. -/
def store (p : Piece) (blockIndex : ℕ) (data : Bytes) : Piece where
  index := p.index
  currentBlocks := p.currentBlocks + 1
  numBlocks := p.numBlocks
  blocks := p.blocks.set blockIndex (some data)
  length_blocks := by rw [List.length_set, p.length_blocks]

/-- The loop that collects `pieceData`; a slot without data has size zero. -/
def data (p : Piece) : Bytes := p.blocks.flatMap fun block => block.getD []

end Piece

/-- The constructor of `Peer`, for a torrent of `totalPieces` pieces. -/
def new (ip : UInt32) (heap : ℤ → UInt8) (totalPieces : ℕ) : Peer where
  ip := ip
  bitset := Bitset.construct heap totalPieces

/-! ### Senders -/

variable (p : Peer)

/-- `m_conn->write`. -/
def send (msg : Message) : Peer := { p with wire := p.wire ++ [.sent msg] }

/-- `sendKeepAlive`. -/
def sendKeepAlive : Peer := p.send .keepAlive

/-- `sendChoke`. -/
def sendChoke : Peer := { p.send .choke with amChoked := true }

/-- `sendUnchoke`. -/
def sendUnchoke : Peer := { p.send .unchoke with amChoked := false }

/-- `sendInterested`. -/
def sendInterested : Peer := { p.send .interested with amInterested := true }

/-- `sendBitfield`. -/
def sendBitfield (bits : Bytes) : Peer := p.send (.bitfield bits)

/-- `sendHave`. -/
def sendHave (index : ℕ) : Peer :=
  if p.amChoked then p else p.send (.have_ (UInt32.ofNat index))

/-- `sendPieceBlock`. -/
def sendPieceBlock (index begin : ℕ) (block : Bytes) : Peer :=
  p.send (.pieceBlock (UInt32.ofNat index) (UInt32.ofNat begin) block)

/-- `sendRequest`. -/
def sendRequest (index begin length : ℕ) : Peer :=
  p.send (.request (UInt32.ofNat index) (UInt32.ofNat begin) (UInt32.ofNat length))

/-- `sendCancel`. -/
def sendCancel (index begin length : ℕ) : Peer :=
  p.send (.cancel (UInt32.ofNat index) (UInt32.ofNat begin) (UInt32.ofNat length))

/-- The loop over the blocks of a piece in `requestPiece` and in `cancelPiece`: the `begin` and
`length` of each. The length goes down by `maxRequestSize` with each pass. -/
def blockLoop : ℕ → ℕ → ℕ → List (ℕ × ℕ)
  | 0, begin, length => [(begin, length)]
  | fuel + 1, begin, length =>
      if length > maxRequestSize then
        (begin, maxRequestSize) ::
          blockLoop fuel (begin + maxRequestSize) (length - maxRequestSize)
      else [(begin, length)]

/-- The blocks of a piece of the given length. -/
def blocksOf (length : ℕ) : List (ℕ × ℕ) := blockLoop (length / maxRequestSize) 0 length

end Peer

/-! ### `m_peers` -/

namespace Torrent

variable (t : Torrent)

/-- `isFinished`. -/
def isFinished : Bool := t.fileManager.pieces.length = t.fileManager.completedBits.count

/-- `m_peers.find`. -/
def findPeer (ip : UInt32) : Option ℕ := (t.peers.find? fun e => e.1 = ip).map Prod.snd

/-- `m_peers.insert`, which keeps an entry that is there. -/
def insertPeer (ip : UInt32) (id : ℕ) : Torrent :=
  if (t.findPeer ip).isSome then t else { t with peers := t.peers ++ [(ip, id)] }

/-- `addPeer`. -/
def addPeer (ip : UInt32) (id : ℕ) : Torrent :=
  { t with blacklisted := t.blacklisted.erase ip }.insertPeer ip id

/-- `removePeer`. -/
def removePeer (ip : UInt32) : Torrent :=
  { t with peers := t.peers.filter fun e => e.1 ≠ ip }

end Torrent

/-- A torrent of one piece of the given length. -/
def onePiece (length : ℕ) : Torrent where
  fileManager := FileManager.register (fun _ => 0) (fun _ => 0)
    { checkSum := fun _ => 0, pieceLength := length, totalSize := length,
      sha1sums := [fun _ => 0] } []

/-- A torrent of one piece of two bytes, which we have. -/
def twoBytesDone : Torrent :=
  { onePiece 2 with fileManager := (onePiece 2).fileManager.complete 0 [5, 6] }

/-! ### Requests and completions -/

/-- `handleError`. -/
def Peer.handleError (s : Session) (errmsg : String) : Session where
  torrent := s.torrent.removePeer s.peer.ip
  peer := { s.peer with connected := false, errors := s.peer.errors ++ [errmsg] }

/-- `Peer::requestPiece`. -/
def Peer.requestPiece (s : Session) (pieceIndex : ℕ) : Option Session :=
  if s.peer.peerChoked then
    some (Peer.handleError s "Attempt to request piece from a peer that is remotely choked")
  else
    (s.torrent.fileManager.pieceSize pieceIndex).map fun length =>
      { s with peer :=
        (Peer.blocksOf length).foldl (fun p b => p.sendRequest pieceIndex b.1 b.2) s.peer }

/-- `cancelPiece`. -/
def Peer.cancelPiece (s : Session) (piece : Peer.Piece) : Option Session :=
  (s.torrent.fileManager.pieceSize piece.index).map fun length =>
    { s with peer :=
      (Peer.blocksOf length).foldl (fun p b => p.sendCancel piece.index b.1 b.2) s.peer }

/-- `sendPieceRequest`. -/
def Peer.sendPieceRequest (s : Session) (index : ℕ) : Option Session :=
  (s.torrent.fileManager.pieceSize index).bind fun length =>
    let peer := s.peer.sendInterested
    let peer := { peer with queue := peer.queue ++ [Peer.Piece.new index length] }
    if peer.peerChoked then some { s with peer := peer }
    else Peer.requestPiece { s with peer := peer } index

/-- `Torrent::requestPiece`. The index is passed on as a `uint32_t`. -/
def Torrent.requestPiece (s : Session) : Option Session :=
  let (index, fm) := s.torrent.fileManager.getNextPiece s.peer.bitset.test
  let s := { s with torrent := { s.torrent with fileManager := fm } }
  if index ≠ 2 ^ 64 - 1 then Peer.sendPieceRequest s (index % 2 ^ 32) else some s

/-- The bytes that `Torrent::sendBitfield` builds in an array on the stack, which holds `stack` at
first and is written only at the completed pieces. -/
def Torrent.bitfieldBits (stack : ℕ → UInt8) (b : Bitset) : Bytes :=
  (List.range b.size).map fun i =>
    if b.test i then b.bitsAt i &&& (1 <<< UInt8.ofNat (7 - i % 8)) else stack i

/-- `Torrent::sendBitfield`. -/
def Torrent.sendBitfield (stack : ℕ → UInt8) (t : Torrent) (p : Peer) : Peer :=
  if t.fileManager.completedBits.count = 0 then p
  else p.sendBitfield (bitfieldBits stack t.fileManager.completedBits)

/-- `Torrent::handlePieceCompleted`. -/
def Torrent.handlePieceCompleted (sha1 : Bytes → Sha1sum) (s : Session) (index : ℕ)
    (data : Bytes) : Option (Bool × Session) :=
  (s.torrent.fileManager.writePieceBlock sha1 index s.peer.ip.toNat data).map fun r =>
    let t := { s.torrent with fileManager := r.2 }
    if r.1 then (true, { s with torrent := t })
    else
      (false, { s with torrent := { t with
        wastedBytes := t.wastedBytes + data.length
        hashMisses := t.hashMisses + 1 } })

/-- `Torrent::handleRequestBlock`. -/
def Torrent.handleRequestBlock (s : Session) (index begin length : ℕ) :
    Option (Bool × Session) :=
  (s.torrent.fileManager.requestPieceBlock index s.peer.ip.toNat begin length).map fun r =>
    (r.1, { s with torrent := { s.torrent with fileManager := r.2 } })

/-! ### What the requests change -/

namespace Peer

/-- The Requests for all blocks of a piece. -/
def requests (index length : ℕ) : List Wire := (blocksOf length).map fun b =>
  .sent (.request (UInt32.ofNat index) (UInt32.ofNat b.1) (UInt32.ofNat b.2))

/-- The Cancels for all blocks of a piece. -/
def cancels (index length : ℕ) : List Wire := (blocksOf length).map fun b =>
  .sent (.cancel (UInt32.ofNat index) (UInt32.ofNat b.1) (UInt32.ofNat b.2))

theorem foldl_send {α : Type} (msg : α → Message) (l : List α) (p : Peer) :
    l.foldl (fun p b => p.send (msg b)) p =
      { p with wire := p.wire ++ l.map fun b => .sent (msg b) } := by
  induction l generalizing p with
  | nil => simp
  | cons b l ih =>
    rw [List.foldl_cons, ih, send, List.map_cons, List.append_assoc, List.singleton_append]

theorem requestPiece_eq {s : Session} (h : s.peer.peerChoked = false) (index : ℕ) :
    requestPiece s index = (s.torrent.fileManager.pieceSize index).map fun length =>
      { s with peer := { s.peer with wire := s.peer.wire ++ requests index length } } := by
  rw [requestPiece, h, if_neg Bool.false_ne_true]
  congr 1
  funext length
  exact congrArg (Session.mk s.torrent) (foldl_send _ _ _)

theorem cancelPiece_eq (s : Session) (piece : Piece) :
    cancelPiece s piece = (s.torrent.fileManager.pieceSize piece.index).map fun length =>
      { s with peer := { s.peer with wire := s.peer.wire ++ cancels piece.index length } } := by
  rw [cancelPiece]
  congr 1
  funext length
  exact congrArg (Session.mk s.torrent) (foldl_send _ _ _)

theorem sendPieceRequest_eq (s : Session) (index : ℕ) :
    sendPieceRequest s index = (s.torrent.fileManager.pieceSize index).map fun length =>
      { s with peer := { s.peer with
          amInterested := true
          queue := s.peer.queue ++ [Piece.new index length]
          wire := s.peer.wire ++ .sent .interested ::
            if s.peer.peerChoked then [] else requests index length } } := by
  rw [sendPieceRequest]
  cases hl : s.torrent.fileManager.pieceSize index with
  | none => rfl
  | some length =>
    cases hc : s.peer.peerChoked with
    | true => simp [sendInterested, send, hc]
    | false =>
      simp only [Option.bind_some, Option.map_some, sendInterested, send, hc, Bool.false_eq_true,
        if_false]
      rw [requestPiece_eq rfl, hl]
      simp

end Peer

/-- **What selecting a piece does.** `Torrent::requestPiece` changes priorities, and may queue one
new piece and request it unless the peer has choked us. -/
theorem Torrent.requestPiece_cases {s s' : Session} (h : Torrent.requestPiece s = some s') :
    ∃ pieces, pieces.map Piece.hash = s.torrent.fileManager.pieces.map Piece.hash ∧
      s'.torrent = { s.torrent with fileManager := { s.torrent.fileManager with pieces := pieces } } ∧
      (s'.peer = s.peer ∨ ∃ index length, index < 2 ^ 32 ∧
        s.torrent.fileManager.pieceSize index = some length ∧
        s'.peer = { s.peer with
          amInterested := true
          queue := s.peer.queue ++ [Peer.Piece.new index length]
          wire := s.peer.wire ++ .sent .interested ::
            if s.peer.peerChoked then [] else Peer.requests index length }) := by
  obtain ⟨pieces, hfm, hhash⟩ :=
    s.torrent.fileManager.getNextPiece_frame s.peer.bitset.test
  rw [Torrent.requestPiece] at h
  simp only [hfm] at h
  refine ⟨pieces, hhash, ?_⟩
  split_ifs at h
  · rw [Peer.sendPieceRequest_eq] at h
    obtain ⟨length, hl, rfl⟩ := Option.map_eq_some_iff.1 h
    have hlen : pieces.length = s.torrent.fileManager.pieces.length := by
      simpa using congrArg List.length hhash
    have hsize : ∀ index, { s.torrent.fileManager with pieces := pieces }.pieceSize index =
        s.torrent.fileManager.pieceSize index := FileManager.pieceSize_congr rfl hlen
    rw [hsize] at hl
    exact ⟨rfl, Or.inr ⟨_, length, Nat.mod_lt _ (by decide), hl, rfl⟩⟩
  · cases h
    exact ⟨rfl, Or.inl rfl⟩

end CTorrent
