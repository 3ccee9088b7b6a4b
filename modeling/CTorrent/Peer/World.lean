import CTorrent.Lib.Runs
import CTorrent.Peer.Outcome

/-!
# A torrent and its peers

All `Peer` objects of a torrent, each with its own connection; an object is known by its position.
`m_peers` maps an address to the object that was registered for it. The worker's reads come back
one by one, in the order of the requests; what a read delivers is any block of the size asked for.

* `Action`, `World.step`: handshakes, messages, our own Chokes, errors, completed reads;
* `onPieceReadComplete`: the delivery of a block to whoever is registered for the address.
-/

namespace CTorrent

/-- A torrent and the peers that were ever connected. -/
structure World where
  torrent : Torrent
  peers : List Peer

/-- What can happen. -/
inductive Action where
  /-- The handshake of a connection that we made is complete. -/
  | connect (ip : UInt32) (heap : ℤ → UInt8) (stack : ℕ → UInt8)
  /-- The handshake of a connection that we accepted is complete. -/
  | accept (ip : UInt32) (heap : ℤ → UInt8) (stack : ℕ → UInt8)
  /-- A message arrives at a peer. -/
  | message (id : ℕ) (type : UInt8) (payload : Bytes)
  /-- We choke a peer. -/
  | sendChoke (id : ℕ)
  /-- A connection fails, or the peer leaves. -/
  | handleError (id : ℕ) (errmsg : String)
  /-- The read that was requested first is complete. -/
  | readComplete (block : Bytes)
  /-- The file manager changes otherwise. -/
  | fileManager (fm : FileManager)

namespace Torrent

/-- `handleNewPeer`, up to `sendBitfield`. -/
def handleNewPeer (t : Torrent) (ip : UInt32) (id : ℕ) : Torrent := t.insertPeer ip id

end Torrent

namespace World

variable (sha1 : Bytes → Sha1sum) (human : ℕ → String) (w : World)

/-- A new object is registered (by `addPeer` or `handleNewPeer`) and told what we have. -/
def register (t : Torrent) (ip : UInt32) (heap : ℤ → UInt8) (stack : ℕ → UInt8) : World where
  torrent := t
  peers := w.peers ++ [t.sendBitfield stack (Peer.new ip heap t.fileManager.pieces.length)]

/-- A function of the peer at a position and of the torrent. -/
def atPeer (id : ℕ) (f : Session → Option Session) : Option World :=
  w.peers[id]?.bind fun p =>
    if p.connected then
      (f ⟨w.torrent, p⟩).map fun s => ⟨s.torrent, w.peers.set id s.peer⟩
    else none

/-- `onPieceReadComplete`. The entries of `m_peers` point to objects. -/
def onPieceReadComplete (from_ : UInt32) (index begin : ℕ) (block : Bytes) : Option World :=
  match w.torrent.findPeer from_ with
  | none => some w
  | some id =>
      w.peers[id]?.map fun p =>
        ⟨{ w.torrent with uploadedBytes := w.torrent.uploadedBytes + block.length },
          w.peers.set id (p.sendPieceBlock index begin block)⟩

/-- One action. -/
def step : Action → Option World
  | .connect ip heap stack =>
      some (w.register (w.torrent.addPeer ip w.peers.length) ip heap stack)
  | .accept ip heap stack =>
      some (w.register (w.torrent.handleNewPeer ip w.peers.length) ip heap stack)
  | .message id type payload =>
      w.atPeer id fun s => Peer.handleMessage sha1 human s type payload
  | .sendChoke id => w.atPeer id fun s => some { s with peer := s.peer.sendChoke }
  | .handleError id errmsg => w.atPeer id fun s => some (Peer.handleError s errmsg)
  | .readComplete block =>
      match w.torrent.fileManager.readRequests with
      | [] => none
      | r :: rs =>
          if block.length = r.size then
            { w with torrent := { w.torrent with
              fileManager := { w.torrent.fileManager with readRequests := rs } }
              : World }.onPieceReadComplete (UInt32.ofNat r.from_) r.index r.begin block
          else none
  | .fileManager fm =>
      some { w with torrent := { w.torrent with
        fileManager := { fm with readRequests := w.torrent.fileManager.readRequests } } }

variable {sha1 human w} {w' : World}

theorem atPeer_eq_some {id : ℕ} {f : Session → Option Session} (h : w.atPeer id f = some w') :
    ∃ p s, w.peers[id]? = some p ∧ p.connected = true ∧ f ⟨w.torrent, p⟩ = some s ∧
      w' = ⟨s.torrent, w.peers.set id s.peer⟩ := by
  unfold atPeer at h
  obtain ⟨p, hp, h⟩ := Option.bind_eq_some_iff.1 h
  split_ifs at h with hc
  obtain ⟨s, hs, rfl⟩ := Option.map_eq_some_iff.1 h
  exact ⟨p, s, hp, hc, hs, rfl⟩

theorem onPieceReadComplete_eq_some {from_ : UInt32} {index begin : ℕ} {block : Bytes}
    (h : w.onPieceReadComplete from_ index begin block = some w') :
    (w.torrent.findPeer from_ = none ∧ w'.peers = w.peers) ∨
      ∃ id p, w.torrent.findPeer from_ = some id ∧ w.peers[id]? = some p ∧
        w'.peers = w.peers.set id (p.sendPieceBlock index begin block) := by
  unfold onPieceReadComplete at h
  split at h
  · rename_i hnone
    cases h
    exact Or.inl ⟨hnone, rfl⟩
  · rename_i id hid
    obtain ⟨p, hp, rfl⟩ := Option.map_eq_some_iff.1 h
    exact Or.inr ⟨id, p, hid, hp, rfl⟩

end World

end CTorrent
