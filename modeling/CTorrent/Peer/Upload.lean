import CTorrent.Peer.World

/-!
# Serving blocks

A `Ledger` keeps the books of one connection from what passes over it: a Request is outstanding
once it was neither refused with a Choke nor answered by closing the connection, until it is
cancelled or answered. The ledgers follow the steps of the `World`; no function of the source
reads them.

* `Ledger`, `Uploads`: the books beside the world;
* `UploadSafe`: blocks answer outstanding Requests only, and `requestedBlocks` agrees;
* `uploadSafe_iff`: `UploadSafe` holds throughout a run exactly if no read ever comes back for an
  address in `m_peers`, since `onPieceReadComplete` sends the block without a look at
  `requestedBlocks` (`handlePieceBlockData` is never called).
-/

namespace CTorrent

open Peer

/-- The blocks among what passed over a connection. -/
def sentBlocks (wire : List Wire) : List PieceBlockInfo := wire.filterMap fun
  | .sent (.pieceBlock index begin block) => some ⟨index.toNat, begin.toNat, block.length⟩
  | _ => none

/-- The books of a connection: the accepted Requests that were neither cancelled nor answered, and
whether every block so far answered one of them while the peer was unchoked and interested. -/
structure Ledger where
  outstanding : List PieceBlockInfo := []
  sound : Bool := true

namespace Ledger

/-- A message was handled, which left the peer as `p`. -/
def receive (l : Ledger) (p : Peer) (type : UInt8) (payload : Bytes) : Ledger :=
  if type = 6 ∧ p.connected = true ∧ p.amChoked = false then
    { l with outstanding := l.outstanding ++ [infoOf payload] }
  else if type = 8 ∧ payload.length = 12 then
    { l with outstanding := l.outstanding.erase (infoOf payload) }
  else l

/-- A block was sent to the peer `p`. -/
def answer (p : Peer) (l : Ledger) (info : PieceBlockInfo) : Ledger where
  outstanding := l.outstanding.erase info
  sound := l.sound && l.outstanding.contains info && !p.amChoked && p.peerInterested

/-- The entry for a message, if the action is one for the peer at the position. -/
def note (a : Action) (id : ℕ) (p : Peer) (l : Ledger) : Ledger :=
  match a with
  | .message j type payload => if j = id then l.receive p type payload else l
  | _ => l

/-- The entries for what an action made of the peer at a position. -/
def next (w w' : World) (a : Action) (id : ℕ) (l : Ledger) : Ledger :=
  match w'.peers[id]? with
  | none => l
  | some p =>
      let before := (w.peers[id]?).elim [] Peer.wire
      (sentBlocks (p.wire.drop before.length)).foldl (answer p) (l.note a id p)

end Ledger

/-- The world and the books of all connections. -/
structure Uploads where
  world : World
  ledger : ℕ → Ledger

namespace Uploads

/-- No peer has connected yet. -/
def start (t : Torrent) : Uploads := ⟨⟨t, []⟩, fun _ => {}⟩

/-- One action. -/
def step (sha1 : Bytes → Sha1sum) (human : ℕ → String) (u : Uploads) (a : Action) :
    Option Uploads :=
  (u.world.step sha1 human a).map fun w =>
    ⟨w, fun id => Ledger.next u.world w a id (u.ledger id)⟩

end Uploads

/-- On every connection, each block that was sent answered an outstanding Request of an unchoked
and interested peer, and `requestedBlocks` holds the outstanding Requests. -/
def UploadSafe (u : Uploads) : Prop := ∀ id p, u.world.peers[id]? = some p →
  (u.ledger id).sound = true ∧ p.requestedBlocks.Perm (u.ledger id).outstanding

/-- A read that is complete was requested from an address that is no longer in `m_peers`. -/
def Unserved (u : Uploads) : Action → Prop
  | .readComplete _ => ∀ r, u.world.torrent.fileManager.readRequests.head? = some r →
      u.world.torrent.findPeer (UInt32.ofNat r.from_) = none
  | _ => True

/-! ### What is sent -/

theorem sentBlocks_append (wire wire' : List Wire) :
    sentBlocks (wire ++ wire') = sentBlocks wire ++ sentBlocks wire' :=
  List.filterMap_append

theorem sentBlocks_requests (index length : ℕ) : sentBlocks (requests index length) = [] := by
  unfold sentBlocks requests
  simp [List.filterMap_map]

theorem sentBlocks_cancels (index length : ℕ) : sentBlocks (cancels index length) = [] := by
  unfold sentBlocks cancels
  simp [List.filterMap_map]

/-- `wire` goes on without a block. -/
def NoBlocks (wire wire' : List Wire) : Prop := ∃ new, wire' = wire ++ new ∧ sentBlocks new = []

theorem NoBlocks.refl (wire : List Wire) : NoBlocks wire wire := ⟨[], by simp, rfl⟩

theorem NoBlocks.append {wire wire' new : List Wire} (h : NoBlocks wire wire')
    (hnew : sentBlocks new = []) : NoBlocks wire (wire' ++ new) := by
  obtain ⟨m, rfl, hm⟩ := h
  refine ⟨m ++ new, List.append_assoc _ _ _, ?_⟩
  rw [sentBlocks_append, hm, hnew]
  rfl

theorem NoBlocks.sentBlocks_drop {wire wire' : List Wire} (h : NoBlocks wire wire') :
    sentBlocks (wire'.drop wire.length) = [] := by
  obtain ⟨new, rfl, hnew⟩ := h
  rwa [List.drop_left]

namespace Peer

variable {sha1 : Bytes → Sha1sum} {human : ℕ → String} {s s' : Session} {payload : Bytes} {n : ℕ}

theorem Selected.noBlocks (h : Selected s s') :
    NoBlocks s.peer.wire s'.peer.wire ∧ s'.peer.requestedBlocks = s.peer.requestedBlocks := by
  obtain ⟨-, hpeer | ⟨index, length, -, -, hpeer⟩⟩ := h.cases
  · rw [hpeer]
    exact ⟨.refl _, rfl⟩
  · rw [hpeer]
    refine ⟨(NoBlocks.refl _).append ?_, rfl⟩
    split_ifs
    · rfl
    · exact sentBlocks_requests index length

/-- No message is answered with a block. -/
theorem Outcome.noBlocks (h : Outcome sha1 s payload n s') :
    NoBlocks s.peer.wire s'.peer.wire := by
  cases h with
  | unchoke h length hlength =>
    refine (NoBlocks.refl _).append ?_
    unfold sentBlocks
    rw [List.filterMap_flatMap]
    exact List.flatMap_eq_nil_iff.2 fun piece _ => sentBlocks_requests _ _
  | interested h =>
    dsimp only
    split_ifs
    · exact (NoBlocks.refl _).append rfl
    · exact .refl _
  | bitfield h hselect => exact hselect.noBlocks.1
  | refuse h fm hrequest => exact (NoBlocks.refl _).append rfl
  | done h hdone length hlength => exact (NoBlocks.refl _).append (sentBlocks_cancels _ _)
  | finish h hdone hlast hfinish =>
    obtain ⟨t, -, ⟨rfl, -⟩ | hselect⟩ := finishPiece_cases hfinish
    · exact (NoBlocks.refl _).append rfl
    · exact hselect.noBlocks.1
  | _ => exact .refl _

/-- What a message does to `requestedBlocks`. -/
theorem Outcome.requestedBlocks (h : Outcome sha1 s payload n s')
    (hconnected : s.peer.connected = true) :
    s'.peer.requestedBlocks =
      if n = 6 ∧ s'.peer.connected = true ∧ s'.peer.amChoked = false then
        s.peer.requestedBlocks ++ [infoOf payload]
      else if n = 8 ∧ payload.length = 12 then s.peer.requestedBlocks.erase (infoOf payload)
      else s.peer.requestedBlocks := by
  cases h with
  | error errmsg h =>
    rw [if_neg (by simp [handleError]), if_neg]
    · rfl
    · rintro ⟨rfl, h12⟩
      exact h h12
  | interested h =>
    dsimp only
    split_ifs <;> simp_all [sendUnchoke, send]
  | bitfield h hselect => simpa using hselect.noBlocks.2
  | refuse h fm hrequest => simp [sendChoke, send]
  | grant h fm hrequest =>
    have hchoke : s.peer.amChoked = false := by
      by_contra hno
      exact h (Or.inr (Or.inr (Or.inl (by simpa using hno))))
    simp [hconnected, hchoke]
  | finish h hdone hlast hfinish =>
    obtain ⟨t, -, ⟨rfl, -⟩ | hselect⟩ := finishPiece_cases hfinish
    · simp [sendChoke, send]
    · simpa using hselect.noBlocks.2
  | cancel h => simp [h]
  | unknown h => rw [if_neg (by omega), if_neg (by omega)]
  | _ => simp

end Peer

/-! ### Actions -/

section Safe

variable {sha1 : Bytes → Sha1sum} {human : ℕ → String} {u u' : Uploads} {w' : World} {a : Action}

/-- The books of a peer that did not exist. -/
def Fresh (u : Uploads) : Prop := ∀ id, u.world.peers[id]? = none → u.ledger id = {}

/-- The books after an action, where no connection was sent a block. -/
theorem uploadSafe_of (h : ∀ id p, w'.peers[id]? = some p →
    NoBlocks ((u.world.peers[id]?).elim [] Peer.wire) p.wire ∧
      ((u.ledger id).note a id p).sound = true ∧
      p.requestedBlocks.Perm ((u.ledger id).note a id p).outstanding) :
    UploadSafe ⟨w', fun id => Ledger.next u.world w' a id (u.ledger id)⟩ := by
  intro id p hp
  obtain ⟨hwire, hsound, hperm⟩ := h id p hp
  have hnext : Ledger.next u.world w' a id (u.ledger id) = (u.ledger id).note a id p := by
    unfold Ledger.next
    rw [hp]
    simp only [hwire.sentBlocks_drop, List.foldl_nil]
  simp only [hnext]
  exact ⟨hsound, hperm⟩

/-- A peer that an action does not touch. -/
theorem untouched (h : UploadSafe u) {id : ℕ} {p : Peer} (hp : u.world.peers[id]? = some p)
    (ha : (u.ledger id).note a id p = u.ledger id) :
    NoBlocks ((u.world.peers[id]?).elim [] Peer.wire) p.wire ∧
      ((u.ledger id).note a id p).sound = true ∧
      p.requestedBlocks.Perm ((u.ledger id).note a id p).outstanding := by
  rw [ha, hp]
  exact ⟨.refl _, h id p hp⟩

/-- A new connection. -/
theorem uploadSafe_register (h : UploadSafe u) (hfresh : Fresh u)
    (ha : ∀ id p l, Ledger.note a id p l = l) (t : Torrent) (ip : UInt32) (heap : ℤ → UInt8)
    (stack : ℕ → UInt8) :
    UploadSafe ⟨u.world.register t ip heap stack, fun id =>
      Ledger.next u.world (u.world.register t ip heap stack) a id (u.ledger id)⟩ := by
  apply uploadSafe_of
  intro id p hp
  unfold World.register at hp
  by_cases hid : id < u.world.peers.length
  · rw [List.getElem?_append_left hid] at hp
    exact untouched h hp (ha _ _ _)
  · have hnone : u.world.peers[id]? = none := List.getElem?_eq_none_iff.2 (by omega)
    rw [List.getElem?_append_right (by omega)] at hp
    have hnew := List.mem_singleton.1 (List.mem_of_getElem? hp)
    rw [ha, hnone, hfresh id hnone, hnew]
    unfold Torrent.sendBitfield
    split_ifs
    · exact ⟨.refl _, rfl, .refl _⟩
    · exact ⟨⟨_, rfl, rfl⟩, rfl, .refl _⟩

/-- An action on one peer that sends no block. -/
theorem uploadSafe_set (h : UploadSafe u) {id : ℕ} {p q : Peer}
    (hp : u.world.peers[id]? = some p) (t : Torrent) (hwire : NoBlocks p.wire q.wire)
    (hsound : ((u.ledger id).note a id q).sound = true)
    (hperm : q.requestedBlocks.Perm ((u.ledger id).note a id q).outstanding)
    (ha : ∀ j ≠ id, ∀ p l, Ledger.note a j p l = l) :
    UploadSafe ⟨⟨t, u.world.peers.set id q⟩, fun j =>
      Ledger.next u.world ⟨t, u.world.peers.set id q⟩ a j (u.ledger j)⟩ := by
  have hid : id < u.world.peers.length := (List.getElem?_eq_some_iff.1 hp).1
  apply uploadSafe_of
  intro j r hr
  dsimp only at hr
  by_cases hj : j = id
  · rw [hj, List.getElem?_set_self hid, Option.some.injEq] at hr
    subst hr hj
    rw [hp]
    exact ⟨hwire, hsound, hperm⟩
  · rw [List.getElem?_set_ne (Ne.symm hj)] at hr
    exact untouched h hr (ha j hj r _)

/-- A message. -/
theorem uploadSafe_message (h : UploadSafe u) {id : ℕ} {type : UInt8} {payload : Bytes}
    {p : Peer} {s : Session} (hp : u.world.peers[id]? = some p) (hc : p.connected = true)
    (hs : handleMessage sha1 human ⟨u.world.torrent, p⟩ type payload = some s) :
    UploadSafe ⟨⟨s.torrent, u.world.peers.set id s.peer⟩, fun j =>
      Ledger.next u.world ⟨s.torrent, u.world.peers.set id s.peer⟩
        (.message id type payload) j (u.ledger j)⟩ := by
  have houtcome := handleMessage_outcome hs
  obtain ⟨new, hwire, hnew⟩ := houtcome.noBlocks
  have hreq := houtcome.requestedBlocks hc
  obtain ⟨hsound, hperm⟩ := h id p hp
  have h6 : type.toNat = 6 ↔ type = 6 := UInt8.toNat_inj (b := 6)
  have h8 : type.toNat = 8 ↔ type = 8 := UInt8.toNat_inj (b := 8)
  simp only [h6, h8] at hreq
  have hnote : Ledger.note (.message id type payload) id s.peer (u.ledger id) =
      (u.ledger id).receive s.peer type payload := if_pos rfl
  apply uploadSafe_set h hp
  · refine ⟨.received type payload :: new, ?_, ?_⟩
    · rw [hwire, receive, List.append_assoc]
      rfl
    · exact hnew
  · rw [hnote, Ledger.receive]
    split_ifs <;> exact hsound
  · rw [hnote, hreq, Ledger.receive]
    split_ifs
    · exact hperm.append_right _
    · exact hperm.erase _
    · exact hperm
  · intro j hj q l
    exact if_neg (Ne.symm hj)

/-- A block is sent: it answers no outstanding Request, or `requestedBlocks` keeps it. -/
theorem not_uploadSafe_answer (h : UploadSafe u) {id : ℕ} {p : Peer}
    (hp : u.world.peers[id]? = some p) (t : Torrent) (ha : ∀ id p l, Ledger.note a id p l = l)
    (index begin : ℕ) (block : Bytes) :
    ¬ UploadSafe ⟨⟨t, u.world.peers.set id (p.sendPieceBlock index begin block)⟩, fun j =>
      Ledger.next u.world ⟨t, u.world.peers.set id (p.sendPieceBlock index begin block)⟩ a j
        (u.ledger j)⟩ := by
  intro h'
  have hid : id < u.world.peers.length := (List.getElem?_eq_some_iff.1 hp).1
  have hp' : (u.world.peers.set id (p.sendPieceBlock index begin block))[id]? =
      some (p.sendPieceBlock index begin block) := List.getElem?_set_self hid
  obtain ⟨hsound', hperm'⟩ := h' id _ hp'
  obtain ⟨-, hperm⟩ := h id p hp
  -- the entry for the block
  have hsent : sentBlocks ((p.sendPieceBlock index begin block).wire.drop p.wire.length) =
      [⟨(UInt32.ofNat index).toNat, (UInt32.ofNat begin).toNat, block.length⟩] := by
    show sentBlocks ((p.wire ++ [_]).drop p.wire.length) = _
    rw [List.drop_left]
    rfl
  generalize PieceBlockInfo.mk (UInt32.ofNat index).toNat (UInt32.ofNat begin).toNat
    block.length = info at hsent
  have hnext : Ledger.next u.world ⟨t, u.world.peers.set id (p.sendPieceBlock index begin block)⟩
      a id (u.ledger id) = (u.ledger id).answer (p.sendPieceBlock index begin block) info := by
    unfold Ledger.next
    simp only [hp', hp, ha, Option.elim_some, hsent, List.foldl_cons, List.foldl_nil]
  simp only [hnext] at hsound' hperm'
  have hmem : info ∈ (u.ledger id).outstanding := by
    unfold Ledger.answer at hsound'
    simp only [Bool.and_eq_true] at hsound'
    simpa using hsound'.1.1.2
  have hlen : p.requestedBlocks.length = ((u.ledger id).outstanding.erase info).length :=
    hperm'.length_eq
  rw [hperm.length_eq, List.length_erase_of_mem hmem] at hlen
  have hpos := List.length_pos_of_mem hmem
  omega

/-- **One action.** An action that leads from a safe state leads to a safe state if and only if it
is not the completion of a read for an address in `m_peers`. -/
theorem unserved_iff (hfresh : Fresh u) (h : UploadSafe u) (hs : u.step sha1 human a = some u') :
    Unserved u a ↔ UploadSafe u' := by
  unfold Uploads.step at hs
  obtain ⟨w', hw, rfl⟩ := Option.map_eq_some_iff.1 hs
  clear hs
  unfold World.step at hw
  cases a with
  | connect ip heap stack =>
    cases hw
    exact iff_of_true trivial (uploadSafe_register h hfresh (fun _ _ _ => rfl) _ ip heap stack)
  | accept ip heap stack =>
    cases hw
    exact iff_of_true trivial (uploadSafe_register h hfresh (fun _ _ _ => rfl) _ ip heap stack)
  | message id type payload =>
    obtain ⟨p, s, hp, hc, hs, rfl⟩ := World.atPeer_eq_some hw
    exact iff_of_true trivial (uploadSafe_message h hp hc hs)
  | sendChoke id =>
    obtain ⟨p, s, hp, -, hs, rfl⟩ := World.atPeer_eq_some hw
    cases hs
    obtain ⟨hsound, hperm⟩ := h id p hp
    exact iff_of_true trivial (uploadSafe_set h hp _ ((NoBlocks.refl _).append rfl) hsound hperm
      fun _ _ _ _ => rfl)
  | handleError id errmsg =>
    obtain ⟨p, s, hp, -, hs, rfl⟩ := World.atPeer_eq_some hw
    cases hs
    obtain ⟨hsound, hperm⟩ := h id p hp
    exact iff_of_true trivial (uploadSafe_set h hp _ (.refl _) hsound hperm fun _ _ _ _ => rfl)
  | readComplete block =>
    simp only at hw
    split at hw
    · cases hw
    · rename_i r rs hr
      split_ifs at hw
      unfold Unserved
      rw [hr]
      rcases World.onPieceReadComplete_eq_some hw with ⟨hnone, hpeers⟩ | ⟨id, p, hid, hp, hpeers⟩
      · refine iff_of_true ?_ (uploadSafe_of fun id p hp => ?_)
        · intro r' hr'
          cases hr'
          exact hnone
        · rw [hpeers] at hp
          exact untouched h hp rfl
      · refine iff_of_false ?_ ?_
        · intro hno
          exact absurd ((hno r rfl).symm.trans hid) (by simp)
        · obtain ⟨t, peers⟩ := w'
          dsimp only at hpeers
          rw [hpeers]
          exact not_uploadSafe_answer h hp t (fun _ _ _ => rfl) r.index r.begin block
  | fileManager fm =>
    cases hw
    exact iff_of_true trivial (uploadSafe_of fun id p hp => untouched h hp rfl)

theorem fresh_step (hfresh : Fresh u) (hs : u.step sha1 human a = some u') : Fresh u' := by
  unfold Uploads.step at hs
  obtain ⟨w', hw, rfl⟩ := Option.map_eq_some_iff.1 hs
  intro id hid
  have hlen : u.world.peers.length ≤ w'.peers.length := by
    clear hs hid
    unfold World.step at hw
    cases a with
    | connect ip heap stack =>
      cases hw
      simp [World.register]
    | accept ip heap stack =>
      cases hw
      simp [World.register]
    | readComplete block =>
      simp only at hw
      split at hw
      · cases hw
      · split_ifs at hw
        rcases World.onPieceReadComplete_eq_some hw with ⟨-, hpeers⟩ | ⟨id, p, -, -, hpeers⟩ <;>
          simp [hpeers]
    | fileManager fm =>
      cases hw
      exact le_rfl
    | _ =>
      obtain ⟨p, s, -, -, -, rfl⟩ := World.atPeer_eq_some hw
      simp
  have hnone : u.world.peers[id]? = none := by
    rw [List.getElem?_eq_none_iff] at hid ⊢
    exact hlen.trans hid
  show Ledger.next u.world w' a id (u.ledger id) = {}
  unfold Ledger.next
  rw [show w'.peers[id]? = none from hid]
  exact hfresh id hnone

/-- **When uploads are safe.** Over a run from a torrent without peers, every block answers an
outstanding Request of an unchoked and interested peer and `requestedBlocks` holds the outstanding
Requests throughout, if and only if no read comes back for an address that is in `m_peers`: that
is, if no block is ever sent. -/
theorem uploadSafe_iff (t : Torrent) {actions : List Action}
    (hrun : (Runs.run (Uploads.step sha1 human) (.start t) actions).isSome = true) :
    Runs.Always (Uploads.step sha1 human) UploadSafe (.start t) actions ↔
      Runs.Meets (Uploads.step sha1 human) Unserved (.start t) actions :=
  Runs.always_iff_meets (fun _ _ _ hfresh hs => fresh_step hfresh hs)
    (fun _ _ _ hfresh h hs => unserved_iff hfresh h hs) (fun _ _ => rfl)
    (fun _ _ hp => by cases hp) hrun

end Safe

/-- A peer requests the first byte and cancels the Request, and then the read comes back. -/
def cancelledRequest : List Action :=
  [.accept 1 (fun _ => 0) (fun _ => 0), .message 0 2 [],
    .message 0 6 (Message.request 0 0 1).payload, .message 0 8 (Message.cancel 0 0 1).payload,
    .readComplete [5]]

theorem uploadSafe_iff_cancelledRequest :
    Runs.Always (Uploads.step (fun _ _ => 0) toString) UploadSafe (.start twoBytesDone)
        cancelledRequest ↔
      Runs.Meets (Uploads.step (fun _ _ => 0) toString) Unserved (.start twoBytesDone)
        cancelledRequest :=
  uploadSafe_iff twoBytesDone (by decide +kernel)

/-- The block is sent although its Request was cancelled. -/
theorem not_uploadSafe_cancelledRequest :
    ¬ Runs.Always (Uploads.step (fun _ _ => 0) toString) UploadSafe (.start twoBytesDone)
      cancelledRequest := by
  intro h
  have hrun : (Runs.run (Uploads.step (fun _ _ => 0) toString) (.start twoBytesDone)
      cancelledRequest).any
      (fun u => u.world.peers[0]?.isSome && !(u.ledger 0).sound) = true := by
    decide +kernel
  obtain ⟨u, hu, hany⟩ := (Option.any_eq_true _ _).1 hrun
  simp only [Bool.and_eq_true, Bool.not_eq_true'] at hany
  obtain ⟨p, hp⟩ := Option.isSome_iff_exists.1 hany.1
  have hsound := (h.last hu 0 p hp).1
  rw [hany.2] at hsound
  cases hsound

end CTorrent
