import CTorrent.Peer.Blocks
import CTorrent.Peer.Queue

/-!
# An honest remote

A `Link` joins one of our peers with a remote that follows the protocol, by a channel in each
direction. The remote sends a PieceBlock only as the answer to a Request that it has received, and
a Request only when interested and not choked as far as it knows.

* `Remote`, `Remote.maySend`, `Remote.process`: the remote;
* `Link`, `Link.step`: the two parties and the channels;
* `Uncrossed`: no Choke of ours crosses a Request, and no piece leaves the queue while a block for
  it is on its way;
* `link_inv_step`: the invariant of a link;
* `honest_not_dropped`: over a run whose steps are `Uncrossed`, `handleError` is never called.
-/

namespace CTorrent

open Peer

/-- The index, begin and length of the block in the payload of a PieceBlock. -/
def blockInfo (payload : Bytes) : PieceBlockInfo :=
  ⟨indexOf payload, (readBE32 payload 4).toNat, payload.length - 8⟩

/-! ### The remote -/

/-- What the remote keeps: whether the last Choke or UnChoke it has processed was a Choke, whether
it has told us of its interest, and the Requests it has received, less those it has answered or
processed a Cancel for. -/
structure Remote where
  choked : Bool := true
  interested : Bool := false
  pending : List PieceBlockInfo := []

namespace Remote

variable (r : Remote)

/-- The messages that the protocol allows the remote to send. -/
def maySend (type : ℕ) (payload : Bytes) : Bool :=
  match type with
  | 0 | 1 | 2 | 3 => payload.length = 0
  | 4 => payload.length = 4
  | 5 => 1 ≤ payload.length
  | 6 => payload.length = 12 ∧ r.interested = true ∧ r.choked = false
  | 7 => 8 ≤ payload.length ∧ blockInfo payload ∈ r.pending
  | 8 => payload.length = 12
  | 9 => payload.length = 2
  | _ => true

/-- The remote has sent a message. -/
def afterSend (type : ℕ) (payload : Bytes) : Remote :=
  match type with
  | 2 => { r with interested := true }
  | 3 => { r with interested := false }
  | 7 => { r with pending := r.pending.erase (blockInfo payload) }
  | _ => r

/-- The remote processes a message of ours. -/
def process : Message → Remote
  | .choke => { r with choked := true }
  | .unchoke => { r with choked := false }
  | .request index begin length =>
      { r with pending := r.pending ++ [⟨index.toNat, begin.toNat, length.toNat⟩] }
  | .cancel index begin length =>
      { r with pending := r.pending.erase ⟨index.toNat, begin.toNat, length.toNat⟩ }
  | _ => r

end Remote

/-! ### The link -/

/-- A peer of ours, the remote, and what is on its way between them. -/
structure Link where
  session : Session
  toRemote : List Message := []
  toUs : List (UInt8 × Bytes) := []
  remote : Remote := {}

/-- A step of one of the parties. -/
inductive LinkAction where
  /-- The first message on its way to us arrives. -/
  | deliver
  /-- The remote processes the first message on its way to it. -/
  | process
  /-- The remote sends a message. -/
  | send (type : UInt8) (payload : Bytes)
  /-- We send something on our own account, or the torrent changes. -/
  | ours (e : Event)

/-- The messages among what passed over a connection that are ours. -/
def sentMessages (wire : List Wire) : List Message := wire.filterMap fun
  | .sent msg => some msg
  | .received _ _ => none

namespace Link

variable (sha1 : Bytes → Sha1sum) (human : ℕ → String) (l : Link)

/-- Our part of the link after an event of the session; what we sent is on its way. -/
def advance (e : Event) (toUs : List (UInt8 × Bytes)) : Option Link :=
  (l.session.step sha1 human e).map fun s =>
    { l with
      session := s
      toUs := toUs
      toRemote := l.toRemote ++ sentMessages (s.peer.wire.drop l.session.peer.wire.length) }

/-- One step. -/
def step : LinkAction → Option Link
  | .deliver =>
      match l.toUs with
      | [] => none
      | m :: rest => l.advance sha1 human (.message m.1 m.2) rest
  | .process =>
      match l.toRemote with
      | [] => none
      | m :: rest => some { l with toRemote := rest, remote := l.remote.process m }
  | .send type payload =>
      if l.remote.maySend type.toNat payload then
        some { l with
          toUs := l.toUs ++ [(type, payload)]
          remote := l.remote.afterSend type.toNat payload }
      else none
  | .ours (.message _ _) => none
  | .ours (.handleError _) => none
  | .ours e => l.advance sha1 human e l.toUs

/-- The handshake is complete. -/
def start (t : Torrent) (ip : UInt32) (heap : ℤ → UInt8) : Link where
  session := ⟨t, Peer.new ip heap t.fileManager.pieces.length⟩

end Link

/-! ### Crossing messages -/

/-- No Request among the messages on their way will meet a Choke: `choked` is our side of it now,
and an Interested is answered with an UnChoke. -/
def Served : Bool → List (UInt8 × Bytes) → Prop
  | _, [] => True
  | choked, m :: rest =>
      (m.1.toNat = 6 → choked = false) ∧ Served (choked && m.1.toNat ≠ 2) rest

/-- The message makes us send a Choke: it is a Request for a block that we do not have, or the last
block of a piece that fails its hash. -/
def Chokes (sha1 : Bytes → Sha1sum) (s : Session) (type : ℕ) (payload : Bytes) : Prop :=
  (type = 6 ∧ (s.torrent.fileManager.requestPieceBlock (infoOf payload).index s.peer.ip.toNat
    (infoOf payload).begin (infoOf payload).length).map Prod.fst = some false) ∨
  (type = 7 ∧ ∃ before piece behind, Delivers s payload before piece behind ∧
    piece.currentBlocks + 1 = piece.numBlocks ∧
    (s.torrent.fileManager.writePieceBlock sha1 piece.index s.peer.ip.toNat
      (piece.store (slotOf payload) (payload.drop 8)).data).map Prod.fst = some false)

/-- The message is the last block of its piece, or a block of a piece that we have, and there is no
other entry for the piece in the queue. -/
def Unqueues (s : Session) (type : ℕ) (payload : Bytes) : Prop :=
  type = 7 ∧ ∃ before piece behind, Delivers s payload before piece behind ∧
    (s.torrent.fileManager.pieceDone piece.index = true ∨
      piece.currentBlocks + 1 = piece.numBlocks) ∧
    ∀ p ∈ behind, p.index ≠ indexOf payload

/-- Messages do not cross: we do not send a Choke while a Request is on its way that it would meet,
and take no piece out of the queue while a block for it is on its way; the remote sends no Request
that would meet a Choke, or for more than `maxRequestSize` bytes, and no block for a piece that has
left the queue. -/
def Uncrossed (sha1 : Bytes → Sha1sum) (l : Link) : LinkAction → Prop
  | .deliver => ∀ m rest, l.toUs = m :: rest →
      (Chokes sha1 l.session m.1.toNat m.2 → Served true rest) ∧
      (Unqueues l.session m.1.toNat m.2 →
        ∀ m' ∈ rest, m'.1.toNat = 7 → indexOf m'.2 ≠ indexOf m.2)
  | .send type payload =>
      (type.toNat = 6 → (infoOf payload).length ≤ maxRequestSize ∧
        Served l.session.peer.amChoked (l.toUs ++ [(type, payload)])) ∧
      (type.toNat = 7 → ∃ piece ∈ l.session.peer.queue, piece.index = indexOf payload)
  | _ => True

/-! ### Requests and queued pieces -/

/-- A Request for a block of legal size that has a slot. -/
def Sound (size : ℕ → Option ℕ) (info : PieceBlockInfo) : Prop := ∃ length,
  size info.index = some length ∧ info.begin / maxRequestSize < (blocksOf length).length ∧
    1 ≤ info.length ∧ info.length ≤ maxRequestSize

/-- A queued piece has a slot for each of its blocks. -/
def Fitting (size : ℕ → Option ℕ) (piece : Peer.Piece) : Prop := piece.index < 2 ^ 32 ∧
  ∃ length, size piece.index = some length ∧ piece.numBlocks = (blocksOf length).length

/-- No piece is empty or too long for a `uint32_t`. -/
def Bounded (size : ℕ → Option ℕ) : Prop :=
  ∀ index length, size index = some length → 1 ≤ length ∧ length < 2 ^ 32

theorem sentMessages_append (wire wire' : List Wire) :
    sentMessages (wire ++ wire') = sentMessages wire ++ sentMessages wire' :=
  List.filterMap_append

theorem sentMessages_cons_sent (msg : Message) (wire : List Wire) :
    sentMessages (.sent msg :: wire) = msg :: sentMessages wire := rfl

/-- Every Request in the list is sound. -/
def SoundRequests (size : ℕ → Option ℕ) (msgs : List Message) : Prop :=
  ∀ index begin length, .request index begin length ∈ msgs →
    Sound size ⟨index.toNat, begin.toNat, length.toNat⟩

theorem SoundRequests.nil {size : ℕ → Option ℕ} : SoundRequests size [] :=
  fun _ _ _ h => absurd h List.not_mem_nil

theorem SoundRequests.append {size : ℕ → Option ℕ} {msgs msgs' : List Message}
    (h : SoundRequests size msgs) (h' : SoundRequests size msgs') :
    SoundRequests size (msgs ++ msgs') := by
  intro index begin length hm
  rcases List.mem_append.1 hm with hm | hm
  · exact h index begin length hm
  · exact h' index begin length hm

/-- The Requests that are sent for a piece are sound. -/
theorem soundRequests_requests {size : ℕ → Option ℕ} (hsize : Bounded size) {index length : ℕ}
    (hi : index < 2 ^ 32) (hl : size index = some length) :
    SoundRequests size (sentMessages (requests index length)) := by
  obtain ⟨hpos, h32⟩ := hsize index length hl
  intro i b n hm
  unfold sentMessages requests at hm
  rw [List.filterMap_map] at hm
  obtain ⟨block, hblock, heq⟩ := List.mem_filterMap.1 hm
  cases heq
  obtain ⟨hle1, hle⟩ := mem_blocksOf_le hpos block hblock
  have hbound := mem_blocksOf_bounds hblock
  have h1 : block.1 < 2 ^ 32 := by omega
  have h2 : block.2 < 2 ^ 32 := by omega
  have hindex : (UInt32.ofNat index).toNat = index := Nat.mod_eq_of_lt hi
  have hbegin : (UInt32.ofNat block.1).toNat = block.1 := Nat.mod_eq_of_lt h1
  have hlength : (UInt32.ofNat block.2).toNat = block.2 := Nat.mod_eq_of_lt h2
  unfold Sound
  rw [hindex, hbegin, hlength]
  exact ⟨length, hl, (List.getElem?_eq_some_iff.1 (getElem?_blocksOf_slot hblock)).1, hle1, hle⟩

theorem fitting_new {size : ℕ → Option ℕ} (hsize : Bounded size) {index length : ℕ}
    (hi : index < 2 ^ 32) (hl : size index = some length) :
    Fitting size (Peer.Piece.new index length) := by
  obtain ⟨hpos, h32⟩ := hsize index length hl
  exact ⟨hi, length, hl, numBlocks_new hpos h32 index⟩

/-! ### What a message changes -/

namespace Peer

variable {sha1 : Bytes → Sha1sum} {human : ℕ → String} {s s' : Session} {payload : Bytes} {n : ℕ}

/-- `wire` goes on, and the Requests that we send are sound. -/
def SendsSound (size : ℕ → Option ℕ) (wire wire' : List Wire) : Prop :=
  ∃ new, wire' = wire ++ new ∧ SoundRequests size (sentMessages new)

theorem SendsSound.refl {size : ℕ → Option ℕ} (wire : List Wire) : SendsSound size wire wire :=
  ⟨[], by simp, .nil⟩

theorem SendsSound.append {size : ℕ → Option ℕ} {wire wire' new : List Wire}
    (h : SendsSound size wire wire') (hnew : SoundRequests size (sentMessages new)) :
    SendsSound size wire (wire' ++ new) := by
  obtain ⟨m, rfl, hm⟩ := h
  refine ⟨m ++ new, List.append_assoc _ _ _, ?_⟩
  rw [sentMessages_append]
  exact hm.append hnew

/-- A message of ours that is no Request. -/
theorem SendsSound.send {size : ℕ → Option ℕ} {wire : List Wire} {p : Peer}
    (h : SendsSound size wire p.wire) {msg : Message} (hmsg : ∀ i b n, msg ≠ .request i b n) :
    SendsSound size wire (p.send msg).wire := by
  apply h.append
  intro i b n hm
  exact absurd (List.mem_singleton.1 hm).symm (hmsg i b n)

theorem Selected.sendsSound (h : Selected s s') {size : ℕ → Option ℕ}
    (hs : s.torrent.fileManager.pieceSize = size) (hsize : Bounded size) :
    SendsSound size s.peer.wire s'.peer.wire := by
  obtain ⟨-, hpeer | ⟨index, length, hi, hl, hpeer⟩⟩ := h.cases
  · rw [hpeer]
    exact .refl _
  · rw [hpeer]
    apply (SendsSound.refl _).append
    intro i b n hm
    rw [sentMessages_cons_sent] at hm
    rcases List.mem_cons.1 hm with hm | hm
    · cases hm
    · split_ifs at hm
      · cases hm
      · exact soundRequests_requests hsize hi (hs ▸ hl) i b n hm

/-- The Requests that a message makes us send are sound. -/
theorem Outcome.sendsSound (h : Outcome sha1 s payload n s') {size : ℕ → Option ℕ}
    (hs : s.torrent.fileManager.pieceSize = size) (hsize : Bounded size)
    (hqueue : ∀ piece ∈ s.peer.queue, piece.index < 2 ^ 32) :
    SendsSound size s.peer.wire s'.peer.wire := by
  cases h with
  | unchoke h length hlength =>
    apply (SendsSound.refl _).append
    intro i b n hm
    unfold sentMessages at hm
    rw [List.filterMap_flatMap] at hm
    obtain ⟨piece, hp, hm⟩ := List.mem_flatMap.1 hm
    exact soundRequests_requests hsize (hqueue piece hp) (hs ▸ hlength piece hp) i b n hm
  | interested h =>
    dsimp only
    split_ifs
    · exact (SendsSound.refl _).append fun i b n hm => by cases List.mem_singleton.1 hm
    · exact .refl _
  | bitfield h hselect => exact hselect.sendsSound hs hsize
  | refuse h fm hrequest => exact (SendsSound.refl _).send fun _ _ _ => by simp
  | done h hdone length hlength =>
    apply (SendsSound.refl _).append
    intro i b n hm
    unfold sentMessages cancels at hm
    rw [List.filterMap_map] at hm
    obtain ⟨block, -, heq⟩ := List.mem_filterMap.1 hm
    cases heq
  | finish h hdone hlast hfinish =>
    obtain ⟨t, ht, ⟨rfl, -⟩ | hselect⟩ := finishPiece_cases hfinish
    · exact (SendsSound.refl _).append fun i b n hm => by cases List.mem_singleton.1 hm
    · exact hselect.sendsSound (ht.pieceSize_eq.trans hs) hsize
  | _ => exact .refl _

theorem Selected.flags (h : Selected s s') :
    s'.peer.amChoked = s.peer.amChoked ∧ s'.peer.peerInterested = s.peer.peerInterested ∧
      s'.peer.errors = s.peer.errors := by
  obtain ⟨-, hpeer | ⟨index, length, -, -, hpeer⟩⟩ := h.cases <;> simp [hpeer]

/-- A message that is not rejected calls no `handleError`, and sets `peerInterested` if it is an
Interested and clears it if it is a NotInterested. -/
theorem Outcome.flags (h : Outcome sha1 s payload n s') (hno : ¬ Rejects s payload n) :
    s'.peer.errors = s.peer.errors ∧
      s'.peer.peerInterested =
        if n = 2 then true else if n = 3 then false else s.peer.peerInterested := by
  cases h with
  | error errmsg h => exact absurd h hno
  | interested h =>
    cases s.peer.amChoked <;> exact ⟨rfl, rfl⟩
  | bitfield h hselect =>
    obtain ⟨-, hinterested, herrors⟩ := hselect.flags
    exact ⟨herrors, hinterested⟩
  | finish h hdone hlast hfinish =>
    obtain ⟨t, -, ⟨rfl, -⟩ | hselect⟩ := finishPiece_cases hfinish
    · exact ⟨rfl, rfl⟩
    · obtain ⟨-, hinterested, herrors⟩ := hselect.flags
      exact ⟨herrors, hinterested⟩
  | unknown h => exact ⟨rfl, by rw [if_neg (by omega), if_neg (by omega)]⟩
  | _ => exact ⟨rfl, rfl⟩

/-- When we choke the remote after a message. -/
theorem Outcome.amChoked (h : Outcome sha1 s payload n s') (hno : ¬ Rejects s payload n)
    (hchoked : s'.peer.amChoked = true) :
    (s.peer.amChoked = true ∧ n ≠ 2) ∨ Chokes sha1 s n payload := by
  cases h with
  | error errmsg h => exact absurd h hno
  | interested h =>
    dsimp only at hchoked
    split_ifs at hchoked with hc
    · cases hchoked
    · exact absurd hchoked hc
  | bitfield h hselect => exact Or.inl ⟨hselect.flags.1 ▸ hchoked, by decide⟩
  | refuse h fm hrequest => exact Or.inr (Or.inl ⟨rfl, by rw [hrequest]; rfl⟩)
  | finish h hdone hlast hfinish =>
    obtain ⟨t, -, ⟨rfl, hw⟩ | hselect⟩ := finishPiece_cases hfinish
    · exact Or.inr (Or.inr ⟨rfl, _, _, _, h, hlast, hw⟩)
    · exact Or.inl ⟨hselect.flags.1 ▸ hchoked, by decide⟩
  | unknown h => exact Or.inl ⟨hchoked, by omega⟩
  | _ => exact Or.inl ⟨hchoked, by decide⟩

theorem Grown.subset {q q' : List Piece} (h : Grown s q q') : q ⊆ q' := by
  rcases h with rfl | ⟨_, _, -, -, rfl⟩
  · exact List.Subset.refl _
  · exact List.subset_append_left _ _

theorem Grown.fitting {q q' : List Piece} {size : ℕ → Option ℕ} (h : Grown s q q')
    (hs : s.torrent.fileManager.pieceSize = size) (hsize : Bounded size)
    (hq : ∀ piece ∈ q, Fitting size piece) : ∀ piece ∈ q', Fitting size piece := by
  rcases h with rfl | ⟨index, length, hi, hl, rfl⟩
  · exact hq
  · intro piece hp
    rcases List.mem_append.1 hp with hp | hp
    · exact hq piece hp
    · rw [List.mem_singleton.1 hp]
      exact fitting_new hsize hi (hs ▸ hl)

theorem QueueStep.fitting {queue handed : List Piece} {size : ℕ → Option ℕ}
    (h : QueueStep s payload n queue handed) (hs : s.torrent.fileManager.pieceSize = size)
    (hsize : Bounded size) (hq : ∀ piece ∈ s.peer.queue, Fitting size piece) :
    ∀ piece ∈ queue, Fitting size piece := by
  cases h with
  | keep hno hqueue => exact hqueue.fitting hs hsize hq
  | done h hdone => exact fun piece hp => hq piece (h.mem_of_rest hp)
  | @store before behind piece h hdone hmore =>
    intro p hp
    rcases List.mem_append.1 hp with hp | hp
    · exact hq p (h.mem_of_rest (List.mem_append_left _ hp))
    · rcases List.mem_cons.1 hp with rfl | hp
      · exact hq piece h.mem
      · exact hq p (h.mem_of_rest (List.mem_append_right _ hp))
  | finish h hdone hlast hqueue =>
    exact hqueue.fitting hs hsize fun piece hp => hq piece (h.mem_of_rest hp)

/-- A piece stays in the queue unless the message takes its last entry out. -/
theorem QueueStep.queued {queue handed : List Piece} (h : QueueStep s payload n queue handed)
    {index : ℕ} (hq : ∃ piece ∈ s.peer.queue, piece.index = index) :
    (∃ piece ∈ queue, piece.index = index) ∨ (Unqueues s n payload ∧ indexOf payload = index) := by
  obtain ⟨piece, hp, hi⟩ := hq
  have hrest : ∀ before piece₀ behind, Delivers s payload before piece₀ behind →
      (s.torrent.fileManager.pieceDone piece₀.index = true ∨
        piece₀.currentBlocks + 1 = piece₀.numBlocks) →
      (∃ piece ∈ before ++ behind, piece.index = index) ∨
        (Unqueues s 7 payload ∧ indexOf payload = index) := by
    intro before piece₀ behind hd hgone
    rw [hd.queue] at hp
    rcases List.mem_append.1 hp with hp | hp
    · exact Or.inl ⟨piece, List.mem_append_left _ hp, hi⟩
    · rcases List.mem_cons.1 hp with rfl | hp
      · -- the piece of the block: is there another entry?
        by_cases hother : ∃ p ∈ behind, p.index = indexOf payload
        · obtain ⟨p, hp, hpi⟩ := hother
          exact Or.inl ⟨p, List.mem_append_right _ hp, hpi.trans (hd.index.symm.trans hi)⟩
        · refine Or.inr ⟨⟨rfl, _, _, _, hd, hgone, fun p hp hpi => hother ⟨p, hp, hpi⟩⟩, ?_⟩
          exact hd.index.symm.trans hi
      · exact Or.inl ⟨piece, List.mem_append_right _ hp, hi⟩
  cases h with
  | keep hno hqueue => exact Or.inl ⟨piece, hqueue.subset hp, hi⟩
  | done h hdone => exact hrest _ _ _ h (Or.inl hdone)
  | @store before behind piece₀ h hdone hmore =>
    left
    rw [h.queue] at hp
    rcases List.mem_append.1 hp with hp | hp
    · exact ⟨piece, List.mem_append_left _ hp, hi⟩
    · rcases List.mem_cons.1 hp with rfl | hp
      · exact ⟨_, List.mem_append_right _ List.mem_cons_self, hi⟩
      · exact ⟨piece, List.mem_append_right _ (List.mem_cons_of_mem _ hp), hi⟩
  | finish h hdone hlast hqueue =>
    rcases hrest _ _ _ h (Or.inr hlast) with ⟨p, hp, hpi⟩ | hgone
    · exact Or.inl ⟨p, hqueue.subset hp, hpi⟩
    · exact Or.inr hgone

end Peer

/-! ### The invariant of a link -/

/-- Every Request among the messages on their way arrives while the remote's interest is known:
`interested` is what we know now, and `interested'` what the remote has told last. -/
def Shown : Bool → List (UInt8 × Bytes) → Bool → Prop
  | interested, [], interested' => interested = interested'
  | interested, m :: rest, interested' =>
      (m.1.toNat = 6 → interested = true) ∧
        Shown (if m.1.toNat = 2 then true else if m.1.toNat = 3 then false else interested) rest
          interested'

/-- A message other than a Request or a PieceBlock that is not rejected. -/
def Sized (type : ℕ) (payload : Bytes) : Prop :=
  type ≠ 6 → type ≠ 7 → ∀ s, ¬ Rejects s payload type

/-- What holds of a link with an honest remote. -/
structure LinkInv (size : ℕ → Option ℕ) (l : Link) : Prop where
  pieceSize : l.session.torrent.fileManager.pieceSize = size
  errors : l.session.peer.errors = []
  queue : ∀ piece ∈ l.session.peer.queue, Fitting size piece
  requests : SoundRequests size l.toRemote
  pending : ∀ info ∈ l.remote.pending, Sound size info
  blocks : ∀ m ∈ l.toUs, m.1.toNat = 7 → Sound size (blockInfo m.2) ∧
    ∃ piece ∈ l.session.peer.queue, piece.index = indexOf m.2
  lengths : ∀ m ∈ l.toUs, m.1.toNat = 6 →
    m.2.length = 12 ∧ (infoOf m.2).length ≤ maxRequestSize
  sized : ∀ m ∈ l.toUs, Sized m.1.toNat m.2
  served : Served l.session.peer.amChoked l.toUs
  shown : Shown l.session.peer.peerInterested l.toUs l.remote.interested

theorem Served.of_choked {choked : Bool} {msgs : List (UInt8 × Bytes)} (h : Served choked msgs) :
    Served false msgs := by
  induction msgs generalizing choked with
  | nil => trivial
  | cons m msgs ih =>
    refine ⟨fun _ => rfl, ?_⟩
    rw [Bool.false_and]
    exact ih h.2

theorem Served.append {choked : Bool} {msgs : List (UInt8 × Bytes)} (h : Served choked msgs)
    {m : UInt8 × Bytes} (hm : m.1.toNat ≠ 6) : Served choked (msgs ++ [m]) := by
  induction msgs generalizing choked with
  | nil => exact ⟨fun h6 => absurd h6 hm, trivial⟩
  | cons m' msgs ih => exact ⟨h.1, ih h.2⟩

theorem Shown.append {i r : Bool} {msgs : List (UInt8 × Bytes)} (h : Shown i msgs r)
    {m : UInt8 × Bytes} (hm : m.1.toNat = 6 → r = true) :
    Shown i (msgs ++ [m])
      (if m.1.toNat = 2 then true else if m.1.toNat = 3 then false else r) := by
  induction msgs generalizing i with
  | nil =>
    cases h
    exact ⟨hm, rfl⟩
  | cons m' msgs ih => exact ⟨h.1, ih h.2⟩

namespace Remote

variable {r : Remote} {type : ℕ} {payload : Bytes}

theorem interested_afterSend : (r.afterSend type payload).interested =
    if type = 2 then true else if type = 3 then false else r.interested := by
  unfold afterSend
  split <;> simp_all

theorem pending_afterSend : (r.afterSend type payload).pending ⊆ r.pending := by
  unfold afterSend
  split
  any_goals exact List.Subset.refl _
  exact List.erase_subset

/-- What the remote may send is well formed. -/
theorem sized_of_maySend (h : r.maySend type payload = true) : Sized type payload := by
  intro h6 h7 s hr
  unfold maySend at h
  split at h
  · exact hr (of_decide_eq_true h)
  · exact hr (of_decide_eq_true h)
  · exact hr (of_decide_eq_true h)
  · exact hr (of_decide_eq_true h)
  · exact hr (of_decide_eq_true h)
  · exact Nat.not_lt.2 (of_decide_eq_true h) hr
  · exact h6 rfl
  · exact h7 rfl
  · exact hr (of_decide_eq_true h)
  · exact hr (of_decide_eq_true h)
  · unfold Rejects at hr
    split at hr <;> contradiction

end Remote

section Inv

variable {sha1 : Bytes → Sha1sum} {human : ℕ → String} {size : ℕ → Option ℕ} {l l' : Link}

theorem Chokes.of_receive {s : Session} {type : UInt8} {payload : Bytes} {n : ℕ}
    (h : Chokes sha1 (receive s type payload) n payload) : Chokes sha1 s n payload := by
  rcases h with h | ⟨rfl, before, piece, behind, hd, hlast, hw⟩
  · exact Or.inl h
  · exact Or.inr ⟨rfl, before, piece, behind, hd.of_queue rfl, hlast, hw⟩

/-- The first message on its way to us leads to no error. -/
theorem LinkInv.not_rejects (h : LinkInv size l) {m : UInt8 × Bytes}
    {rest : List (UInt8 × Bytes)} (hm : l.toUs = m :: rest) :
    ¬ Rejects (receive l.session m.1 m.2) m.2 m.1.toNat := by
  have hmem : m ∈ l.toUs := hm ▸ List.mem_cons_self
  have hserved := h.served
  have hshown := h.shown
  rw [hm] at hserved hshown
  by_cases h6 : m.1.toNat = 6
  · obtain ⟨h12, hle⟩ := h.lengths m hmem h6
    rw [h6]
    rintro (hsize | hinterest | hchoke | hlen)
    · exact hsize h12
    · exact absurd ((hshown.1 h6).symm.trans hinterest) (by decide)
    · exact absurd ((hserved.1 h6).symm.trans hchoke) (by decide)
    · omega
  · by_cases h7 : m.1.toNat = 7
    · obtain ⟨⟨length, hl, hslot, hpos, hle⟩, piece, hp, hi⟩ := h.blocks m hmem h7
      have hlen : (blockInfo m.2).length = m.2.length - 8 := rfl
      rw [h7]
      rintro (hsize | hbig | hnone)
      · omega
      · omega
      · -- the first entry for the piece has a slot for the block
        obtain ⟨first, hfirst⟩ := Option.isSome_iff_exists.1
          (show (l.session.peer.queue.find? fun p => p.index = indexOf m.2).isSome = true from
            List.find?_isSome.2 ⟨piece, hp, decide_eq_true hi⟩)
        have hbad := hnone first hfirst
        have hindex := List.find?_some hfirst
        obtain ⟨-, length', hl', hnum⟩ := h.queue first (List.mem_of_find?_eq_some hfirst)
        rw [of_decide_eq_true hindex] at hl'
        cases hl.symm.trans hl'
        rw [hnum] at hbad
        exact absurd hslot (Nat.not_lt.2 hbad)
    · exact h.sized m hmem h6 h7 _

/-- A message of the remote arrives. -/
theorem LinkInv.deliver (hsize : Bounded size) (h : LinkInv size l)
    (hc : Uncrossed sha1 l .deliver) (hs : l.step sha1 human .deliver = some l') :
    LinkInv size l' := by
  unfold Link.step at hs
  cases hm : l.toUs with
  | nil =>
    rw [hm] at hs
    cases hs
  | cons m rest =>
    rw [hm] at hs
    unfold Link.advance at hs
    obtain ⟨s', hstep, rfl⟩ := Option.map_eq_some_iff.1 hs
    have hno := h.not_rejects hm
    obtain ⟨hchoke, hunqueue⟩ := hc m rest hm
    have hlayout := sameLayout_step hstep
    have houtcome : Peer.Outcome sha1 (receive l.session m.1 m.2) m.2 m.1.toNat s' := by
      rw [Session.step] at hstep
      split_ifs at hstep
      exact handleMessage_outcome hstep
    obtain ⟨herrors, hinterested⟩ := houtcome.flags hno
    have hqueue := houtcome.queueStep.of_receive
    have hserved := h.served
    have hshown := h.shown
    rw [hm] at hserved hshown
    have hin : ∀ m' ∈ rest, m' ∈ l.toUs := fun m' hm' => hm ▸ List.mem_cons_of_mem _ hm'
    constructor
    · exact hlayout.pieceSize_eq.trans h.pieceSize
    · exact herrors.trans h.errors
    · exact hqueue.fitting h.pieceSize hsize h.queue
    · apply h.requests.append
      obtain ⟨new, hwire, hnew⟩ := houtcome.sendsSound h.pieceSize hsize fun p hp => (h.queue p hp).1
      rw [hwire]
      unfold receive
      rw [List.append_assoc, List.drop_left]
      exact hnew
    · exact h.pending
    · intro m' hm' h7
      obtain ⟨hsound, hqueued⟩ := h.blocks m' (hin m' hm') h7
      refine ⟨hsound, ?_⟩
      rcases hqueue.queued hqueued with hstill | ⟨hgone, hindex⟩
      · exact hstill
      · exact absurd hindex.symm (hunqueue hgone m' hm' h7)
    · exact fun m' hm' => h.lengths m' (hin m' hm')
    · exact fun m' hm' => h.sized m' (hin m' hm')
    · show Served s'.peer.amChoked rest
      cases hchoked : s'.peer.amChoked with
      | false => exact hserved.2.of_choked
      | true =>
        rcases houtcome.amChoked hno hchoked with ⟨hbefore, h2⟩ | hmade
        · have hrest := hserved.2
          rwa [show l.session.peer.amChoked = true from hbefore, Bool.true_and,
            decide_eq_true h2] at hrest
        · exact hchoke hmade.of_receive
    · show Shown s'.peer.peerInterested rest l.remote.interested
      rw [hinterested]
      exact hshown.2

/-- The remote processes a message of ours. -/
theorem LinkInv.process (h : LinkInv size l) (hs : l.step sha1 human .process = some l') :
    LinkInv size l' := by
  unfold Link.step at hs
  cases hm : l.toRemote with
  | nil =>
    rw [hm] at hs
    cases hs
  | cons m rest =>
    rw [hm] at hs
    cases hs
    have hrequests := h.requests
    rw [hm] at hrequests
    have hinterested : (l.remote.process m).interested = l.remote.interested := by
      cases m <;> rfl
    refine { h with
      requests := fun i b n hin => hrequests i b n (List.mem_cons_of_mem _ hin)
      pending := ?_
      shown := by rw [hinterested]; exact h.shown }
    intro info hinfo
    cases m with
    | request index begin length =>
      rcases List.mem_append.1 hinfo with hinfo | hinfo
      · exact h.pending info hinfo
      · rw [List.mem_singleton.1 hinfo]
        exact hrequests index begin length List.mem_cons_self
    | cancel index begin length => exact h.pending info (List.mem_of_mem_erase hinfo)
    | _ => exact h.pending info hinfo

/-- The remote sends a message. -/
theorem LinkInv.send (h : LinkInv size l) {type : UInt8} {payload : Bytes}
    (hc : Uncrossed sha1 l (.send type payload))
    (hs : l.step sha1 human (.send type payload) = some l') : LinkInv size l' := by
  simp only [Link.step] at hs
  split_ifs at hs with hmay
  cases hs
  obtain ⟨h6, h7⟩ := hc
  have hnew : ∀ {P : UInt8 × Bytes → Prop}, (∀ m ∈ l.toUs, P m) → P (type, payload) →
      ∀ m ∈ l.toUs ++ [(type, payload)], P m := by
    intro P hold hlast m hm
    rcases List.mem_append.1 hm with hm | hm
    · exact hold m hm
    · rw [List.mem_singleton.1 hm]
      exact hlast
  refine { h with
    pending := fun info hinfo => h.pending info (Remote.pending_afterSend hinfo)
    blocks := hnew h.blocks fun h7' => ⟨h.pending _ ?_, h7 h7'⟩
    lengths := hnew h.lengths fun h6' => ⟨?_, (h6 h6').1⟩
    sized := hnew h.sized (Remote.sized_of_maySend hmay)
    served := ?_
    shown := ?_ }
  · unfold Remote.maySend at hmay
    rw [show type.toNat = 7 from h7'] at hmay
    simpa using (of_decide_eq_true hmay).2
  · unfold Remote.maySend at hmay
    rw [show type.toNat = 6 from h6'] at hmay
    exact (of_decide_eq_true hmay).1
  · by_cases h6' : type.toNat = 6
    · exact (h6 h6').2
    · exact h.served.append h6'
  · rw [Remote.interested_afterSend]
    apply h.shown.append
    intro h6'
    unfold Remote.maySend at hmay
    rw [show type.toNat = 6 from h6'] at hmay
    exact (of_decide_eq_true hmay).2.1

/-- What we send on our own account, and changes of the torrent, leave the peer's state alone. -/
theorem step_ours {s s' : Session} {e : Event} (hm : ∀ type payload, e ≠ .message type payload)
    (he : ∀ errmsg, e ≠ .handleError errmsg) (hs : s.step sha1 human e = some s') :
    SendsSound size s.peer.wire s'.peer.wire ∧ s'.peer.queue = s.peer.queue ∧
      s'.peer.errors = s.peer.errors ∧ s'.peer.amChoked = s.peer.amChoked ∧
      s'.peer.peerInterested = s.peer.peerInterested := by
  cases e with
  | message type payload => exact absurd rfl (hm type payload)
  | handleError errmsg => exact absurd rfl (he errmsg)
  | sendHave index =>
    cases hs
    dsimp only
    unfold sendHave
    split_ifs
    · exact ⟨.refl _, rfl, rfl, rfl, rfl⟩
    · exact ⟨(SendsSound.refl _).send fun _ _ _ => by simp, rfl, rfl, rfl, rfl⟩
  | sendPieceBlock index begin block =>
    cases hs
    exact ⟨(SendsSound.refl _).send fun _ _ _ => by simp, rfl, rfl, rfl, rfl⟩
  | sendBitfield stack =>
    cases hs
    dsimp only
    unfold Torrent.sendBitfield
    split_ifs
    · exact ⟨.refl _, rfl, rfl, rfl, rfl⟩
    · exact ⟨(SendsSound.refl _).send fun _ _ _ => by simp, rfl, rfl, rfl, rfl⟩
  | torrent t =>
    simp only [Session.step] at hs
    split_ifs at hs
    cases hs
    exact ⟨.refl _, rfl, rfl, rfl, rfl⟩

/-- We send something, or the torrent changes. -/
theorem LinkInv.ours (h : LinkInv size l) {e : Event}
    (hs : l.step sha1 human (.ours e) = some l') : LinkInv size l' := by
  have hm : ∀ type payload, e ≠ .message type payload := by
    rintro type payload rfl
    cases hs
  have he : ∀ errmsg, e ≠ .handleError errmsg := by
    rintro errmsg rfl
    cases hs
  have hadvance : l.advance sha1 human e l.toUs = some l' := by
    cases e with
    | message type payload => exact absurd rfl (hm type payload)
    | handleError errmsg => exact absurd rfl (he errmsg)
    | _ => exact hs
  unfold Link.advance at hadvance
  obtain ⟨s', hstep, rfl⟩ := Option.map_eq_some_iff.1 hadvance
  obtain ⟨⟨new, hwire, hnew⟩, hqueue, herrors, hchoked, hinterested⟩ := step_ours hm he hstep
  refine { h with
    pieceSize := (sameLayout_step hstep).pieceSize_eq.trans h.pieceSize
    errors := herrors.trans h.errors
    queue := by rw [hqueue]; exact h.queue
    requests := h.requests.append ?_
    blocks := by rw [hqueue]; exact h.blocks
    served := by rw [hchoked]; exact h.served
    shown := by rw [hinterested]; exact h.shown }
  rw [hwire, List.drop_left]
  exact hnew

/-- **One step of a link.** -/
theorem link_inv_step (hsize : Bounded size) (h : LinkInv size l) {a : LinkAction}
    (hc : Uncrossed sha1 l a) (hs : l.step sha1 human a = some l') : LinkInv size l' := by
  cases a with
  | deliver => exact h.deliver hsize hc hs
  | process => exact h.process hs
  | send type payload => exact h.send hc hs
  | ours e => exact h.ours hs

theorem link_inv_start (t : Torrent) (ip : UInt32) (heap : ℤ → UInt8) :
    LinkInv t.fileManager.pieceSize (Link.start t ip heap) where
  pieceSize := rfl
  errors := rfl
  queue _ hp := absurd hp List.not_mem_nil
  requests := .nil
  pending _ hp := absurd hp List.not_mem_nil
  blocks _ hm := absurd hm List.not_mem_nil
  lengths _ hm := absurd hm List.not_mem_nil
  sized _ hm := absurd hm List.not_mem_nil
  served := trivial
  shown := rfl

/-- **Honest peers are not dropped, as long as messages do not cross.** In a torrent whose pieces
are neither empty nor longer than a `uint32_t` can say, over a run of a link with an honest remote
whose steps are all `Uncrossed`, `handleError` is never called. -/
theorem honest_not_dropped (t : Torrent) (ip : UInt32) (heap : ℤ → UInt8)
    (hsize : Bounded t.fileManager.pieceSize) {actions : List LinkAction}
    (hm : Runs.Meets (Link.step sha1 human) (Uncrossed sha1) (.start t ip heap) actions) :
    Runs.Always (Link.step sha1 human) (fun l => l.session.peer.errors = [])
      (.start t ip heap) actions :=
  (Runs.always_of_inv (fun _ _ _ h hc hs => link_inv_step hsize h hc hs)
    (link_inv_start t ip heap) hm).mono fun _ h => h.errors

end Inv

/-- The remote is interested, learns that it is unchoked, and requests two blocks of a piece that
we do not have. -/
def twoRequests : List LinkAction :=
  [.send 2 [], .deliver, .process, .send 6 (Message.request 0 0 1).payload,
    .send 6 (Message.request 0 1 1).payload, .deliver, .deliver]

/-- The remote has the piece of two bytes and unchokes us, we request the piece, and the remote
answers the Request with the block. -/
def requestAnswered : List LinkAction :=
  [.send 5 [128], .deliver, .send 1 [], .deliver, .process, .process,
    .send 7 (Message.pieceBlock 0 0 [5, 6]).payload, .deliver]

theorem bounded_twoBytes : Bounded (onePiece 2).fileManager.pieceSize := by
  have hsize : ∀ index, (onePiece 2).fileManager.pieceSize index = some 2 := by
    intro index
    unfold FileManager.pieceSize FileManager.pieceLength
    split_ifs <;> decide +kernel
  intro index length h
  rw [hsize, Option.some.injEq] at h
  subst h
  decide

/-- A message that is alone on its way crosses nothing. -/
theorem uncrossed_of_single {sha1 : Bytes → Sha1sum} {l : Link} {m : UInt8 × Bytes}
    (h : l.toUs = [m]) : Uncrossed sha1 l .deliver := by
  intro m' rest hm
  rw [h] at hm
  cases hm
  exact ⟨fun _ => trivial, fun _ m' hm' => absurd hm' List.not_mem_nil⟩

/-- The block arrives, and the piece is handed over. -/
theorem honest_not_dropped_requestAnswered :
    (Runs.run (Link.step (fun _ _ => 0) toString) (.start (onePiece 2) 1 fun _ => 0)
      requestAnswered).map (fun l => l.session.peer.handed.length) = some 1 ∧
    Runs.Always (Link.step (fun _ _ => 0) toString) (fun l => l.session.peer.errors = [])
      (.start (onePiece 2) 1 fun _ => 0) requestAnswered := by
  refine ⟨by decide +kernel, honest_not_dropped (onePiece 2) 1 (fun _ => 0) bounded_twoBytes ?_⟩
  refine ⟨⟨fun h => absurd h (by decide), fun h => absurd h (by decide)⟩, fun l hl => ?_⟩
  cases hl
  refine ⟨uncrossed_of_single rfl, fun l hl => ?_⟩
  cases hl
  refine ⟨⟨fun h => absurd h (by decide), fun h => absurd h (by decide)⟩, fun l hl => ?_⟩
  cases hl
  refine ⟨uncrossed_of_single rfl, fun l hl => ?_⟩
  cases hl
  refine ⟨trivial, fun l hl => ⟨trivial, fun l' hl' => ?_⟩⟩
  cases hl
  cases hl'
  -- the piece is in the queue as long as its block is on its way
  refine ⟨⟨fun h => absurd h (by decide), fun _ => ⟨_, List.mem_cons_self, by decide +kernel⟩⟩,
    fun l hl => ?_⟩
  cases hl
  exact ⟨uncrossed_of_single rfl, fun _ _ => trivial⟩

/-- The first Request is refused with a Choke, which crosses the second. -/
theorem dropped_twoRequests :
    ¬ Runs.Always (Link.step (fun _ _ => 0) toString) (fun l => l.session.peer.errors = [])
      (.start (onePiece 2) 1 fun _ => 0) twoRequests := by
  intro h
  have hrun : (Runs.run (Link.step (fun _ _ => 0) toString) (.start (onePiece 2) 1 fun _ => 0)
      twoRequests).any
      (fun l => l.session.peer.errors == ["peer requested piece while choked"]) = true := by
    decide +kernel
  obtain ⟨l, hl, herrors⟩ := (Option.any_eq_true _ _).1 hrun
  rw [h.last hl] at herrors
  cases herrors

end CTorrent
