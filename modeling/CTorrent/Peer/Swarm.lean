import CTorrent.FileManager.Completion
import CTorrent.Peer.Queue
import CTorrent.Peer.World

/-!
# A torrent between its network thread and its worker

The network thread handles one message at a time. Where a PieceBlock completes its piece, the
handler does not hold the lock between its parts, and the worker may take a step between any two
of them: the test `pieceDone` in `handleMessage`, the test `is_write_eligible` in
`writePieceBlock`, its `push_write`, and the choice of the next piece. The worker holds the lock
while it writes a piece, sets the bits, and waits for `onPieceWriteComplete`.

* `lastBlock`: the message completes its piece;
* `Swarm`, `SwarmAction`, `Swarm.step`;
* `handleMessage_of_lastBlock`: without a worker, the parts make up `handleMessage`;
* `SameWrites`: what all other messages and actions leave alone;
* `step_other`, `step_message`, `step_check`, `step_push`, `step_select`, `step_work`: what each
  step does.
-/

namespace CTorrent

/-- The first part of `MT_PieceBlock`, up to the call of `handlePieceCompleted`: the position in
the queue, and the piece with its last block. -/
def Peer.lastBlock (s : Session) (type : UInt8) (payload : Bytes) : Option (ℕ × Peer.Piece) :=
  let index := (readBE32 payload 0).toNat
  let begin := (readBE32 payload 4).toNat
  let data := payload.drop 8
  if type.toNat ≠ 7 ∨ payload.length < 9 ∨ data.length = 0 ∨ data.length > maxRequestSize then none
  else
    let k := s.peer.queue.findIdx fun piece => piece.index = index
    s.peer.queue[k]?.bind fun piece =>
      if begin / maxRequestSize ≥ piece.numBlocks ∨ s.torrent.fileManager.pieceDone piece.index then
        none
      else
        let piece := piece.store (begin / maxRequestSize) data
        if piece.currentBlocks = piece.numBlocks then some (k, piece) else none

/-- The session in which `handlePieceCompleted` is called. -/
def Peer.handOver (s : Session) (k : ℕ) (piece : Peer.Piece) : Session :=
  { s with peer := { s.peer with
    queue := s.peer.queue.eraseIdx k
    handed := s.peer.handed ++ [piece] } }

/-- Where a call of `handlePieceCompleted` stands: before `is_write_eligible`, before `push_write`,
or behind it. -/
inductive Stage where
  | checking
  | pushing
  | selecting
  deriving DecidableEq

/-- A completed piece on its way, and the peer that delivered it. -/
structure Call where
  id : ℕ
  piece : Peer.Piece
  stage : Stage

/-- The torrent and its peers, and the piece that the network thread is at. `accepted` records the
indices that `is_write_eligible` let through, `written` those for which `onPieceWriteComplete` has
run. -/
structure Swarm where
  world : World
  call : Option Call := none
  accepted : List ℕ := []
  written : List ℕ := []

/-- The steps. -/
inductive SwarmAction where
  /-- An action that delivers no piece. -/
  | other (a : Action)
  /-- A message arrives at a peer; its handler returns, or completes a piece. -/
  | message (id : ℕ) (type : UInt8) (payload : Bytes)
  /-- `is_write_eligible`, and what follows a refusal. -/
  | check
  /-- `push_write`. -/
  | push
  /-- The end of the handler. -/
  | select
  /-- The worker serves the front of the queue of writes. -/
  | work (wrote : TorrentFileInfo → ℕ → ℕ)

/-- The actions that `SwarmAction.other` stands for. -/
def Action.isOther : Action → Bool
  | .message .. | .fileManager _ => false
  | _ => true

/-- The loop of `onPieceWriteComplete` over `m_peers`. -/
def World.announce (w : World) (from_ index : ℕ) : List Peer :=
  w.torrent.peers.foldl (fun peers e => peers.modify e.2 fun p =>
    if p.ip.toNat ≠ from_ ∧ p.bitset.test index = false then p.sendHave index else p) w.peers

/-- `onPieceWriteComplete`. -/
def World.onPieceWriteComplete (w : World) (from_ index : ℕ) : Option World :=
  (w.torrent.fileManager.pieceSize index).map fun size =>
    { torrent := { w.torrent with downloadedBytes := w.torrent.downloadedBytes + size }
      peers := w.announce from_ index }

/-- What a Have does not change, an announcement does not change. -/
theorem World.map_announce {α : Type} (w : World) (from_ index : ℕ) (f : Peer → α)
    (hf : ∀ p : Peer, f (p.sendHave index) = f p) :
    (w.announce from_ index).map f = w.peers.map f := by
  unfold World.announce
  generalize w.peers = peers
  induction w.torrent.peers generalizing peers with
  | nil => rfl
  | cons e entries ih =>
    rw [List.foldl_cons, ih]
    apply List.ext_getElem?
    intro k
    rw [List.getElem?_map, List.getElem?_map, List.getElem?_modify]
    cases peers[k]? with
    | none => rfl
    | some p =>
      simp only [Option.map_eq_map, Option.map_some]
      split_ifs
      · rw [hf]
      · rfl
      · rfl

/-- The file manager of the torrent is replaced. -/
def World.withFileManager (w : World) (fm : FileManager) : World :=
  { w with torrent := { w.torrent with fileManager := fm } }

namespace Swarm

variable (sha1 : Bytes → Sha1sum) (human : ℕ → String) (s : Swarm)

/-- The file manager. -/
def fm : FileManager := s.world.torrent.fileManager

/-- The call that has come to a stage. -/
def callAt (stage : Stage) : Option Call := s.call.filter fun c => c.stage = stage

/-- A refused piece is counted, and its peer choked. -/
def refuse (c : Call) (p : Peer) (fm : FileManager) : Swarm :=
  { s with
    world := {
      torrent := { s.world.torrent with
        fileManager := fm
        wastedBytes := s.world.torrent.wastedBytes + c.piece.data.length
        hashMisses := s.world.torrent.hashMisses + 1 }
      peers := s.world.peers.set c.id p.sendChoke }
    call := none }

/-- One step. -/
def step : SwarmAction → Option Swarm
  | .other a =>
      if a.isOther then (s.world.step sha1 human a).map fun w => { s with world := w } else none
  | .message id type payload =>
      if s.call.isSome then none
      else
        s.world.peers[id]?.bind fun p =>
          if !p.connected then none
          else
            match Peer.lastBlock ⟨s.world.torrent, p⟩ type payload with
            | none =>
                (s.world.step sha1 human (.message id type payload)).map fun w =>
                  { s with world := w }
            | some (k, piece) =>
                let r := Peer.handOver (Peer.receive ⟨s.world.torrent, p⟩ type payload) k piece
                some { s with
                  world := { s.world with peers := s.world.peers.set id r.peer }
                  call := some ⟨id, piece, .checking⟩ }
  | .check =>
      (s.callAt .checking).bind fun c =>
        s.world.peers[c.id]?.bind fun p =>
          (s.fm.writeCheck sha1 c.piece.index p.ip.toNat c.piece.data).map fun r =>
            if !r.1 then s.refuse c p r.2
            else
              { s with
                world := s.world.withFileManager r.2
                call := some { c with stage := .pushing }
                accepted := s.accepted ++ [c.piece.index] }
  | .push =>
      (s.callAt .pushing).bind fun c =>
        (s.fm.writePush 0).map fun fm =>
          { s with
            world := s.world.withFileManager fm
            call := some { c with stage := .selecting } }
  | .select =>
      (s.callAt .selecting).bind fun c =>
        s.world.peers[c.id]?.bind fun p =>
          (if !s.world.torrent.isFinished then Torrent.requestPiece ⟨s.world.torrent, p⟩
            else some ⟨s.world.torrent, p⟩).map fun r =>
              { s with
                world := ⟨r.torrent, s.world.peers.set c.id r.peer⟩
                call := none }
  | .work wrote =>
      s.fm.writeRequests.head?.bind fun w =>
        (s.fm.work wrote).bind fun fm =>
          ((s.world.withFileManager fm).onPieceWriteComplete w.from_ w.index).map fun world =>
            { s with world := world, written := s.written ++ [w.index] }

end Swarm

/-! ### The parts of a message -/

namespace Peer

variable {sha1 : Bytes → Sha1sum} {human : ℕ → String} {s s' : Session} {type : UInt8}
  {payload : Bytes}

/-- What it takes for a message to complete a piece. -/
theorem lastBlock_eq_some {k : ℕ} {piece : Piece} (h : lastBlock s type payload = some (k, piece)) :
    type.toNat = 7 ∧ s.torrent.fileManager.pieceDone piece.index = false ∧
      ∀ sha1 human, handlePieceBlock sha1 human s payload =
        finishPiece sha1 { s with peer := { s.peer with queue := s.peer.queue.eraseIdx k } }
          piece := by
  rw [lastBlock] at h
  dsimp only at h
  split_ifs at h with hguard
  obtain ⟨piece', hk, h⟩ := Option.bind_eq_some_iff.1 h
  split_ifs at h with hslot hlast
  cases h
  simp only [not_or, not_not, not_lt] at hguard hslot
  obtain ⟨htype, h9, h0, hle⟩ := hguard
  have hdone : s.torrent.fileManager.pieceDone piece'.index = false := by simpa using hslot.2
  refine ⟨htype, hdone, fun sha1 human => ?_⟩
  rw [handlePieceBlock]
  simp only [hk]
  rw [if_neg (Nat.not_lt.2 h9), if_neg (not_or.2 ⟨h0, Nat.not_lt.2 hle⟩),
    if_neg (by simpa using hslot.1), acceptBlock,
    if_neg (by simp [hdone])]
  exact if_pos hlast

/-- The parts of a message that completes a piece. -/
theorem handleMessage_of_lastBlock {k : ℕ} {piece : Piece}
    (h : lastBlock s type payload = some (k, piece)) :
    handleMessage sha1 human s type payload =
      (Torrent.handlePieceCompleted sha1 (handOver (receive s type payload) k piece) piece.index
        piece.data).bind fun r =>
          if !r.1 then some { r.2 with peer := r.2.peer.sendChoke }
          else if !r.2.torrent.isFinished then Torrent.requestPiece r.2
          else some r.2 := by
  obtain ⟨htype, -, hblock⟩ := lastBlock_eq_some
    (show lastBlock (receive s type payload) type payload = some (k, piece) from h)
  rw [handleMessage]
  simp only [htype]
  exact hblock sha1 human

/-- Any other message does not come to the end of a piece. -/
theorem Delivers.lastBlock_ne_none {before behind : List Piece} {piece : Piece}
    (h : Delivers s payload before piece behind) (htype : type.toNat = 7)
    (hdone : s.torrent.fileManager.pieceDone piece.index = false)
    (hlast : piece.currentBlocks + 1 = piece.numBlocks) : lastBlock s type payload ≠ none := by
  have hguard : ¬(type.toNat ≠ 7 ∨ payload.length < 9 ∨ (payload.drop 8).length = 0 ∨
      (payload.drop 8).length > maxRequestSize) := by
    have hsize := h.size
    have hle := h.le
    rw [List.length_drop]
    omega
  have hk := h.find?
  rw [List.find?_eq_getElem?_findIdx] at hk
  have hslot : ¬((readBE32 payload 4).toNat / maxRequestSize ≥ piece.numBlocks ∨
      s.torrent.fileManager.pieceDone piece.index = true) := by
    rw [hdone, not_or]
    exact ⟨Nat.not_le.2 h.slot, Bool.false_ne_true⟩
  intro hnone
  rw [lastBlock] at hnone
  dsimp only at hnone
  rw [if_neg hguard, Option.bind_eq_none_iff] at hnone
  have hcontra := hnone piece hk
  rw [if_neg hslot, if_pos (show (piece.store _ _).currentBlocks = (piece.store _ _).numBlocks from
    hlast)] at hcontra
  cases hcontra

/-- A block that is stored by such a message is not the last of its piece. -/
theorem more_of_lastBlock (hnone : lastBlock s type payload = none) (before : List Piece)
    (piece : Piece) (behind : List Piece)
    (hd : Delivers (receive s type payload) payload before piece behind) (htype : type.toNat = 7)
    (hdone : (receive s type payload).torrent.fileManager.pieceDone piece.index = false) :
    piece.currentBlocks + 1 ≠ piece.numBlocks := by
  intro hlast
  have hd' : Delivers s payload before piece behind := hd.of_queue rfl
  exact hd'.lastBlock_ne_none htype hdone hlast hnone

end Peer

/-! ### What is left alone -/

/-- The two torrents agree on the hashes, the bits, the queue of writes and the counters of
downloaded, wasted and missed. -/
structure SameWrites (t t' : Torrent) : Prop where
  layout : FileManager.SameLayout t.fileManager t'.fileManager
  hashes : t'.fileManager.pieces.map Piece.hash = t.fileManager.pieces.map Piece.hash
  pending : t'.fileManager.pendingBits = t.fileManager.pendingBits
  completed : t'.fileManager.completedBits = t.fileManager.completedBits
  requests : t'.fileManager.writeRequests = t.fileManager.writeRequests
  calls : t'.fileManager.calls = t.fileManager.calls
  downloaded : t'.downloadedBytes = t.downloadedBytes
  wasted : t'.wastedBytes = t.wastedBytes
  misses : t'.hashMisses = t.hashMisses

namespace SameWrites

variable {sha1 : Bytes → Sha1sum} {human : ℕ → String}

theorem refl (t : Torrent) : SameWrites t t := ⟨.refl _, rfl, rfl, rfl, rfl, rfl, rfl, rfl, rfl⟩

theorem of_selected {s s' : Session} (h : Peer.Selected s s') :
    SameWrites s.torrent s'.torrent := by
  have hlayout := h.cases.1
  rcases h with rfl | h
  · exact .refl _
  · obtain ⟨pieces, hhash, htorrent, -⟩ := Torrent.requestPiece_cases h
    rw [htorrent] at hlayout ⊢
    exact ⟨hlayout, hhash, rfl, rfl, rfl, rfl, rfl, rfl, rfl⟩

theorem of_requestPieceBlock {t : Torrent} {fm : FileManager} {index from_ begin size : ℕ}
    {ok : Bool} (h : t.fileManager.requestPieceBlock index from_ begin size = some (ok, fm)) :
    SameWrites t { t with fileManager := fm } := by
  unfold FileManager.requestPieceBlock at h
  split_ifs at h
  · cases h
    exact .refl t
  · obtain ⟨b, -, hb⟩ := Option.map_eq_some_iff.1 h
    cases b with
    | false =>
      cases hb
      exact .refl t
    | true =>
      cases hb
      exact ⟨⟨rfl, rfl⟩, rfl, rfl, rfl, rfl, rfl, rfl, rfl, rfl⟩

/-- A message that completes no piece. -/
theorem of_message {s s' : Session} {type : UInt8} {payload : Bytes}
    (hnone : Peer.lastBlock s type payload = none)
    (h : Peer.handleMessage sha1 human s type payload = some s') :
    SameWrites s.torrent s'.torrent := by
  have hout := Peer.handleMessage_outcome h
  have hmore := Peer.more_of_lastBlock hnone
  generalize hr : Peer.receive s type payload = r at hout hmore
  have htorrent : s.torrent = r.torrent := by rw [← hr]; rfl
  rw [htorrent]
  generalize htype : type.toNat = n at hout hmore
  cases hout with
  | bitfield _ hselect =>
    have hselected := of_selected hselect
    exact hselected
  | refuse _ fm hrequest => exact of_requestPieceBlock hrequest
  | grant _ fm hrequest => exact of_requestPieceBlock hrequest
  | finish hd hdone hlast _ => exact absurd hlast (hmore _ _ _ hd rfl hdone)
  | error _ _ => exact ⟨.refl _, rfl, rfl, rfl, rfl, rfl, rfl, rfl, rfl⟩
  | _ => exact .refl _

/-- An action that delivers no piece. -/
theorem of_other {w w' : World} {a : Action} (ha : a.isOther = true)
    (h : w.step sha1 human a = some w') : SameWrites w.torrent w'.torrent := by
  have hsome : ∀ (f : Session → Option Session) (id : ℕ), w.atPeer id f = some w' →
      (∀ s s', f s = some s' → SameWrites s.torrent s'.torrent) →
      SameWrites w.torrent w'.torrent := by
    rintro f id hat hf
    obtain ⟨p, s, -, -, hs, rfl⟩ := World.atPeer_eq_some hat
    exact hf _ _ hs
  cases a with
  | message id type payload => cases ha
  | fileManager fm => cases ha
  | connect ip heap stack =>
    cases h
    change SameWrites _ (Torrent.addPeer _ _ _)
    rw [Torrent.addPeer, Torrent.insertPeer]
    split_ifs <;> exact ⟨.refl _, rfl, rfl, rfl, rfl, rfl, rfl, rfl, rfl⟩
  | accept ip heap stack =>
    cases h
    change SameWrites _ (Torrent.insertPeer _ _ _)
    rw [Torrent.insertPeer]
    split_ifs <;> exact ⟨.refl _, rfl, rfl, rfl, rfl, rfl, rfl, rfl, rfl⟩
  | sendChoke id =>
    refine hsome (fun s => some { s with peer := s.peer.sendChoke }) id h fun s s' hs => ?_
    cases hs
    exact .refl _
  | handleError id errmsg =>
    refine hsome (fun s => some (Peer.handleError s errmsg)) id h fun s s' hs => ?_
    cases hs
    exact ⟨.refl _, rfl, rfl, rfl, rfl, rfl, rfl, rfl, rfl⟩
  | readComplete block =>
    simp only [World.step] at h
    split at h
    · cases h
    · split_ifs at h
      unfold World.onPieceReadComplete at h
      split at h
      · cases h
        exact ⟨⟨rfl, rfl⟩, rfl, rfl, rfl, rfl, rfl, rfl, rfl, rfl⟩
      · obtain ⟨p, -, rfl⟩ := Option.map_eq_some_iff.1 h
        exact ⟨⟨rfl, rfl⟩, rfl, rfl, rfl, rfl, rfl, rfl, rfl, rfl⟩

end SameWrites

/-! ### The steps -/

namespace Swarm

variable {sha1 : Bytes → Sha1sum} {human : ℕ → String} {s s' : Swarm}

/-- A torrent behind `registerFiles`, before there are any peers. -/
def start (fm : FileManager) : Swarm := { world := ⟨{ fileManager := fm }, []⟩ }

theorem callAt_eq_some {stage : Stage} {c : Call} :
    s.callAt stage = some c ↔ s.call = some c ∧ c.stage = stage := by
  rw [callAt, Option.filter_eq_some_iff]
  simp

/-- An action that delivers no piece. -/
theorem step_other {a : Action} (hs : s.step sha1 human (.other a) = some s') :
    ∃ w, a.isOther = true ∧ s.world.step sha1 human a = some w ∧ s' = { s with world := w } := by
  simp only [step] at hs
  split_ifs at hs with hother
  obtain ⟨w, hw, rfl⟩ := Option.map_eq_some_iff.1 hs
  exact ⟨w, hother, hw, rfl⟩

/-- The two ends of the first part of a message: the handler returns, or is about to test. -/
theorem step_message {id : ℕ} {type : UInt8} {payload : Bytes}
    (hs : s.step sha1 human (.message id type payload) = some s') :
    ∃ p, s.call = none ∧ s.world.peers[id]? = some p ∧ p.connected = true ∧
      ((∃ r, Peer.lastBlock ⟨s.world.torrent, p⟩ type payload = none ∧
          Peer.handleMessage sha1 human ⟨s.world.torrent, p⟩ type payload = some r ∧
          s' = { s with world := ⟨r.torrent, s.world.peers.set id r.peer⟩ }) ∨
        ∃ k piece, Peer.lastBlock ⟨s.world.torrent, p⟩ type payload = some (k, piece) ∧
          s' = { s with
            world := { s.world with
              peers := s.world.peers.set id (Peer.handOver
                (Peer.receive ⟨s.world.torrent, p⟩ type payload) k piece).peer }
            call := some ⟨id, piece, .checking⟩ }) := by
  simp only [step] at hs
  split_ifs at hs with hcall
  obtain ⟨p, hp, hs⟩ := Option.bind_eq_some_iff.1 hs
  split_ifs at hs with hconnected
  refine ⟨p, by simpa using hcall, hp, by simpa using hconnected, ?_⟩
  split at hs
  · rename_i hnone
    obtain ⟨w, hw, rfl⟩ := Option.map_eq_some_iff.1 hs
    simp only [World.step] at hw
    obtain ⟨p', r, hp', -, hr, rfl⟩ := World.atPeer_eq_some hw
    cases hp.symm.trans hp'
    exact Or.inl ⟨r, hnone, hr, rfl⟩
  · rename_i k piece hlast
    cases hs
    exact Or.inr ⟨k, piece, hlast, rfl⟩

/-- The two ends of a test. -/
theorem step_check (hs : s.step sha1 human .check = some s') :
    ∃ c p ok fm, s.callAt .checking = some c ∧ s.world.peers[c.id]? = some p ∧
      s.fm.writeCheck sha1 c.piece.index p.ip.toNat c.piece.data = some (ok, fm) ∧
      (ok = false ∧ s' = s.refuse c p fm ∨ ok = true ∧ s' = { s with
        world := s.world.withFileManager fm
        call := some { c with stage := .pushing }
        accepted := s.accepted ++ [c.piece.index] }) := by
  simp only [step] at hs
  obtain ⟨c, hc, hs⟩ := Option.bind_eq_some_iff.1 hs
  obtain ⟨p, hp, hs⟩ := Option.bind_eq_some_iff.1 hs
  obtain ⟨⟨ok, fm⟩, hw, rfl⟩ := Option.map_eq_some_iff.1 hs
  refine ⟨c, p, ok, fm, hc, hp, hw, ?_⟩
  cases ok with
  | false => exact Or.inl ⟨rfl, rfl⟩
  | true => exact Or.inr ⟨rfl, rfl⟩

/-- A piece that has passed the test is pushed. -/
theorem step_push (hs : s.step sha1 human .push = some s') :
    ∃ c w, s.callAt .pushing = some c ∧ s.fm.calls[0]? = some w ∧ s' = { s with
      world := s.world.withFileManager
        ({ s.fm with calls := s.fm.calls.eraseIdx 0 }.pushWrite w)
      call := some { c with stage := .selecting } } := by
  simp only [step] at hs
  obtain ⟨c, hc, hs⟩ := Option.bind_eq_some_iff.1 hs
  obtain ⟨fm, hfm, rfl⟩ := Option.map_eq_some_iff.1 hs
  obtain ⟨w, hw, rfl⟩ := Option.map_eq_some_iff.1 hfm
  exact ⟨c, w, hc, hw, rfl⟩

/-- A next piece is chosen for the peer, unless the torrent is finished. -/
theorem step_select (hs : s.step sha1 human .select = some s') :
    ∃ c p r, s.callAt .selecting = some c ∧ s.world.peers[c.id]? = some p ∧
      (if !s.world.torrent.isFinished then Torrent.requestPiece ⟨s.world.torrent, p⟩
        else some ⟨s.world.torrent, p⟩) = some r ∧
      Peer.Selected ⟨s.world.torrent, p⟩ r ∧
      s' = { s with
        world := ⟨r.torrent, s.world.peers.set c.id r.peer⟩
        call := none } := by
  simp only [step] at hs
  obtain ⟨c, hc, hs⟩ := Option.bind_eq_some_iff.1 hs
  obtain ⟨p, hp, hs⟩ := Option.bind_eq_some_iff.1 hs
  obtain ⟨r, hr, rfl⟩ := Option.map_eq_some_iff.1 hs
  refine ⟨c, p, r, hc, hp, hr, ?_, rfl⟩
  split_ifs at hr
  · exact Or.inr hr
  · cases hr
    exact Or.inl rfl

/-- The piece at the front of the queue is written, counted and announced. -/
theorem step_work {wrote : TorrentFileInfo → ℕ → ℕ}
    (hs : s.step sha1 human (.work wrote) = some s') :
    ∃ w ws fm size, s.fm.writeRequests = w :: ws ∧
      fm = { s.fm.processWrite wrote w with writeRequests := ws } ∧
      fm.pieceSize w.index = some size ∧ s' = { s with
        world := {
          torrent := { s.world.torrent with
            fileManager := fm
            downloadedBytes := s.world.torrent.downloadedBytes + size }
          peers := (s.world.withFileManager fm).announce w.from_ w.index }
        written := s.written ++ [w.index] } := by
  simp only [step] at hs
  obtain ⟨w, hw, hs⟩ := Option.bind_eq_some_iff.1 hs
  obtain ⟨fm, hwork, hs⟩ := Option.bind_eq_some_iff.1 hs
  obtain ⟨world, hworld, rfl⟩ := Option.map_eq_some_iff.1 hs
  obtain ⟨ws, hqueue⟩ := List.head?_eq_some_iff.1 hw
  rw [FileManager.work, hqueue] at hwork
  obtain ⟨size, hsize, rfl⟩ := Option.map_eq_some_iff.1 hworld
  exact ⟨w, ws, fm, size, hqueue, (Option.some.inj hwork).symm, hsize, rfl⟩

/-- What the steps other than `check`, `push` and `work` do to the call. -/
inductive CallStep (s : Swarm) : Option Call → Prop
  | keep : CallStep s s.call
  | return_ {c : Call} (h : s.callAt .selecting = some c) : CallStep s none
  | begin {id : ℕ} {piece : Peer.Piece} (h : s.call = none)
      (hdone : s.fm.pieceDone piece.index = false) : CallStep s (some ⟨id, piece, .checking⟩)

/-- A step that neither tests, nor pushes, nor writes. -/
theorem step_quiet {a : SwarmAction} (ha : a ≠ .check ∧ a ≠ .push ∧ ∀ wrote, a ≠ .work wrote)
    (hs : s.step sha1 human a = some s') :
    SameWrites s.world.torrent s'.world.torrent ∧ CallStep s s'.call ∧
      s'.accepted = s.accepted ∧ s'.written = s.written := by
  cases a with
  | check => exact absurd rfl ha.1
  | push => exact absurd rfl ha.2.1
  | work wrote => exact absurd rfl (ha.2.2 wrote)
  | other a =>
    obtain ⟨w, hother, hw, rfl⟩ := step_other hs
    exact ⟨.of_other hother hw, .keep, rfl, rfl⟩
  | message id type payload =>
    obtain ⟨p, hcall, -, -, ⟨r, hnone, hr, rfl⟩ | ⟨k, piece, hlast, rfl⟩⟩ := step_message hs
    · exact ⟨.of_message hnone hr, .keep, rfl, rfl⟩
    · exact ⟨.refl _, .begin hcall (Peer.lastBlock_eq_some hlast).2.1, rfl, rfl⟩
  | select =>
    obtain ⟨c, p, r, hc, -, -, hselected, rfl⟩ := step_select hs
    exact ⟨.of_selected hselected, .return_ hc, rfl, rfl⟩

/-- When a test lets a piece through, and what it does then. -/
theorem writeCheck_iff {fm fm' : FileManager} {index from_ : ℕ} {data : Bytes} {ok : Bool}
    (h : fm.writeCheck sha1 index from_ data = some (ok, fm')) :
    (ok = true ↔ index < fm.pieces.length ∧ fm.isWriteEligible sha1 index data = some true) ∧
      (ok = false → fm'.calls = fm.calls) ∧
      (ok = true → fm'.calls = fm.calls ++ [⟨index, from_, data⟩]) ∧
      fm'.metainfo = fm.metainfo ∧ fm'.pieces = fm.pieces ∧ fm'.pendingBits = fm.pendingBits ∧
      fm'.completedBits = fm.completedBits ∧ fm'.writeRequests = fm.writeRequests := by
  rw [FileManager.writeCheck] at h
  split_ifs at h with hin
  · cases h
    have hnot : ¬index < fm.pieces.length := by simpa [FileManager.intact] using hin
    exact ⟨iff_of_false Bool.false_ne_true fun hc => hnot hc.1, fun _ => rfl,
      fun hc => absurd hc Bool.false_ne_true, rfl, rfl, rfl, rfl, rfl⟩
  · have hlt : index < fm.pieces.length := by simpa [FileManager.intact] using hin
    rw [FileManager.check, Option.map_map] at h
    obtain ⟨ok', hok, he⟩ := Option.map_eq_some_iff.1 h
    rw [hok]
    cases ok' <;> cases hp : fm.pendingBits.test index <;>
      simp only [Function.comp_apply, hp, Bool.false_eq_true, if_false, if_true] at he <;>
      cases he <;> simp [hlt]

/-! ### Without a worker -/

/-- `writePieceBlock` is its test and its push. -/
theorem writePieceBlock_parts {fm fm' : FileManager} {index from_ : ℕ} {data : Bytes} {ok : Bool}
    (hcalls : fm.calls = []) (h : fm.writePieceBlock sha1 index from_ data = some (ok, fm')) :
    ∃ fm₁, fm.writeCheck sha1 index from_ data = some (ok, fm₁) ∧
      (ok = false → fm₁ = fm') ∧ (ok = true → fm₁.writePush 0 = some fm') := by
  rw [FileManager.writePieceBlock] at h
  rw [FileManager.writeCheck]
  split_ifs at h ⊢
  · cases h
    exact ⟨fm, rfl, fun _ => rfl, fun hc => absurd hc Bool.false_ne_true⟩
  · obtain ⟨⟨ok', fm₁⟩, hcheck, he⟩ := Option.map_eq_some_iff.1 h
    rw [hcheck]
    have hcalls₁ : fm₁.calls = [] := by
      rw [FileManager.check] at hcheck
      obtain ⟨b, -, hb⟩ := Option.map_eq_some_iff.1 hcheck
      cases hb
      split_ifs <;> exact hcalls
    cases ok' <;> cases he
    · exact ⟨fm₁, rfl, fun _ => rfl, fun hc => absurd hc Bool.false_ne_true⟩
    · refine ⟨_, rfl, fun hc => absurd hc.symm Bool.false_ne_true, fun _ => ?_⟩
      cases fm₁
      cases hcalls₁
      rfl

theorem message_eq {id k : ℕ} {type : UInt8} {payload : Bytes} {p : Peer} {piece : Peer.Piece}
    {r : Session} (hcall : s.call = none) (hp : s.world.peers[id]? = some p)
    (hconnected : p.connected = true)
    (hlast : Peer.lastBlock ⟨s.world.torrent, p⟩ type payload = some (k, piece))
    (hr : Peer.handOver (Peer.receive ⟨s.world.torrent, p⟩ type payload) k piece = r) :
    s.step sha1 human (.message id type payload) = some { s with
      world := { s.world with peers := s.world.peers.set id r.peer }
      call := some ⟨id, piece, .checking⟩ } := by
  simp [step, hcall, hp, hconnected, hlast, hr]

theorem check_eq {c : Call} {p : Peer} {ok : Bool} {fm : FileManager}
    (hc : s.callAt .checking = some c) (hp : s.world.peers[c.id]? = some p)
    (hw : s.fm.writeCheck sha1 c.piece.index p.ip.toNat c.piece.data = some (ok, fm)) :
    s.step sha1 human .check = some (if !ok then s.refuse c p fm
      else { s with
        world := s.world.withFileManager fm
        call := some { c with stage := .pushing }
        accepted := s.accepted ++ [c.piece.index] }) := by
  rw [step, hc, Option.bind_some, hp, Option.bind_some, hw, Option.map_some]

theorem push_eq {c : Call} {fm : FileManager} (hc : s.callAt .pushing = some c)
    (hw : s.fm.writePush 0 = some fm) :
    s.step sha1 human .push = some { s with
      world := s.world.withFileManager fm
      call := some { c with stage := .selecting } } := by
  rw [step, hc, Option.bind_some, hw, Option.map_some]

theorem select_eq {c : Call} {p : Peer} {r : Session} (hc : s.callAt .selecting = some c)
    (hp : s.world.peers[c.id]? = some p)
    (hr : (if !s.world.torrent.isFinished then Torrent.requestPiece ⟨s.world.torrent, p⟩
      else some ⟨s.world.torrent, p⟩) = some r) :
    s.step sha1 human .select = some { s with
      world := ⟨r.torrent, s.world.peers.set c.id r.peer⟩
      call := none } := by
  rw [step, hc, Option.bind_some, hp, Option.bind_some, hr, Option.map_some]

/-- **The parts make up the message.** When the worker takes no step, a message and the parts that
follow it have the effect of `handleMessage`. -/
theorem run_message (hcall : s.call = none) (hcalls : s.fm.calls = []) {id : ℕ} {type : UInt8}
    {payload : Bytes} {w : World}
    (h : s.world.step sha1 human (.message id type payload) = some w) :
    ∃ as s', (∀ a ∈ as, a = .check ∨ a = .push ∨ a = .select) ∧
      Runs.run (step sha1 human) s (.message id type payload :: as) = some s' ∧
      s'.world = w ∧ s'.call = none := by
  have hw := h
  simp only [World.step] at hw
  obtain ⟨p, r, hp, hconnected, hr, rfl⟩ := World.atPeer_eq_some hw
  cases hlast : Peer.lastBlock ⟨s.world.torrent, p⟩ type payload with
  | none =>
    refine ⟨[], { s with world := ⟨r.torrent, s.world.peers.set id r.peer⟩ }, by simp, ?_, rfl,
      hcall⟩
    rw [Runs.run_cons]
    simp [step, hcall, hp, hconnected, hlast, h]
  | some kp =>
    obtain ⟨k, piece⟩ := kp
    rw [Peer.handleMessage_of_lastBlock hlast, Torrent.handlePieceCompleted] at hr
    obtain ⟨⟨ok, s₁⟩, hcompleted, hr⟩ := Option.bind_eq_some_iff.1 hr
    obtain ⟨⟨ok', fm⟩, hwrite, he⟩ := Option.map_eq_some_iff.1 hcompleted
    obtain ⟨fm₁, hcheck, hfalse, htrue⟩ := writePieceBlock_parts (by exact hcalls) hwrite
    set r₀ := Peer.handOver (Peer.receive ⟨s.world.torrent, p⟩ type payload) k piece
    have hpeer : (s.world.peers.set id r₀.peer)[id]? = some r₀.peer := by
      have hlt := (List.getElem?_eq_some_iff.1 hp).1
      simp [hlt]
    have hmessage : s.step sha1 human (.message id type payload) = _ :=
      message_eq hcall hp hconnected hlast rfl
    set s₁ : Swarm := { s with
      world := { s.world with peers := s.world.peers.set id r₀.peer }
      call := some ⟨id, piece, .checking⟩ }
    have htest : s₁.step sha1 human .check = _ := check_eq rfl hpeer hcheck
    cases ok' with
    | false =>
      cases he
      cases hr
      obtain rfl := hfalse rfl
      refine ⟨[.check], s₁.refuse ⟨id, piece, .checking⟩ r₀.peer fm₁, by simp, ?_, ?_, rfl⟩
      · rw [Runs.run_cons, hmessage, Option.bind_some, Runs.run_cons, htest]
        rfl
      · simp only [refuse, s₁, List.set_set]
        rfl
    | true =>
      cases he
      simp only [Bool.not_true, Bool.false_eq_true, if_false] at hr htest
      set s₂ : Swarm := { s₁ with
        world := s₁.world.withFileManager fm₁
        call := some ⟨id, piece, .pushing⟩
        accepted := s₁.accepted ++ [piece.index] }
      have hpush : s₂.step sha1 human .push = _ := push_eq rfl (htrue rfl)
      set s₃ : Swarm := { s₂ with
        world := s₂.world.withFileManager fm
        call := some ⟨id, piece, .selecting⟩ }
      have hselect : s₃.step sha1 human .select = _ := select_eq rfl hpeer hr
      refine ⟨[.check, .push, .select], { s₃ with
        world := ⟨r.torrent, s₃.world.peers.set id r.peer⟩
        call := none }, by simp, ?_, ?_, rfl⟩
      · rw [Runs.run_cons, hmessage, Option.bind_some, Runs.run_cons, htest, Option.bind_some,
          Runs.run_cons, hpush, Option.bind_some, Runs.run_cons, hselect]
        rfl
      · simp only [s₁, s₂, s₃, World.withFileManager, List.set_set]

end Swarm

end CTorrent
