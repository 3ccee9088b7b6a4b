import CTorrent.Peer.Queue

/-!
# What has been requested

Every entry of `m_queue` is tracked with the time at which it was queued; time is the number of
messages that have passed over the connection. Pieces are chosen by the handlers and, at any time,
by calls of `Torrent::requestPiece`.

* `Tracked`, `Tracked.step`: a session and its entries;
* `chokedAfter`, `lastUnchoke`: what the messages received so far say;
* `Requested`: the entries, and the Requests on the connection; its lemmas say what quiet messages,
  a Choke, an UnChoke and a new entry make of it;
* `Settles`, `Outcome.settles`: what a handler does before it chooses a piece;
* `queued_requested`: while the peer does not choke us, every block of every entry has been
  requested, and no Request is sent while it does.
-/

namespace CTorrent

open Peer

/-! ### Entries and times -/

/-- The peer has been told to choke us by the messages received, as at first. -/
def chokedAfter (wire : List Wire) : Bool :=
  wire.foldl (fun choked w =>
    match w with
    | .received type _ => if type.toNat = 0 then true else if type.toNat = 1 then false else choked
    | .sent _ => choked) true

/-- An UnChoke arrives. -/
def isUnchoke : Wire → Bool
  | .received type _ => type.toNat = 1
  | .sent _ => false

/-- The time behind the most recent UnChoke. -/
def lastUnchoke (wire : List Wire) : ℕ :=
  wire.length - (wire.reverse.takeWhile fun w => !isUnchoke w).length

/-- A session, and for each entry of `m_queue` its index and the time at which it was queued. -/
structure Tracked where
  session : Session
  queued : List (ℕ × ℕ) := []

/-- The place in `m_queue` of the entry that a message of the given type removes: that of the piece
of a block, if we have the piece or this is its last block. -/
def Peer.takenAt (s : Session) (payload : Bytes) : ℕ → Option ℕ
  | 7 =>
      let k := s.peer.queue.findIdx fun piece => piece.index = indexOf payload
      (s.peer.queue[k]?).bind fun piece =>
        if s.torrent.fileManager.pieceDone piece.index = true ∨
          piece.currentBlocks + 1 = piece.numBlocks then some k else none
  | _ => none

/-- The place of the entry that an event removes. -/
def Peer.takenBy (s : Session) : Event → Option ℕ
  | .message type payload => takenAt s payload type.toNat
  | _ => none

/-- The entries without the one that was taken. -/
def Tracked.keep {α : Type} (queued : List α) : Option ℕ → List α
  | some k => queued.eraseIdx k
  | none => queued

/-- What happens to the session. -/
inductive TrackedAction where
  | event (e : Event)
  /-- A piece is chosen. -/
  | select
  /-- We choke the peer. -/
  | sendChoke

namespace Tracked

variable (sha1 : Bytes → Sha1sum) (human : ℕ → String) (t : Tracked)

/-- The session has come to `s`; new entries were queued at the time `now`. A step on which
`handleError` is called is no step here. -/
def advance (s : Session) (now : ℕ) (taken : Option ℕ) : Option Tracked :=
  if s.peer.connected then
    some ⟨s, keep t.queued taken ++
      (s.peer.queue.drop (keep t.queued taken).length).map fun piece => (piece.index, now)⟩
  else none

/-- The time at which a handler of the event chooses pieces. -/
def now : Event → ℕ
  | .message _ _ => t.session.peer.wire.length + 1
  | _ => t.session.peer.wire.length

/-- One step. -/
def step : TrackedAction → Option Tracked
  | .event e =>
      (t.session.step sha1 human e).bind fun s => t.advance s (t.now e) (takenBy t.session e)
  | .select =>
      (Torrent.requestPiece t.session).bind fun s =>
        t.advance s t.session.peer.wire.length none
  | .sendChoke =>
      t.advance { t.session with peer := t.session.peer.sendChoke } t.session.peer.wire.length none

/-- A new connection. -/
def start (torrent : Torrent) (ip : UInt32) (heap : ℤ → UInt8) : Tracked where
  session := ⟨torrent, Peer.new ip heap torrent.fileManager.pieces.length⟩

end Tracked

/-! ### The most recent UnChoke -/

theorem chokedAfter_append (wire new : List Wire) :
    chokedAfter (wire ++ new) = new.foldl (fun choked w =>
      match w with
      | .received type _ =>
          if type.toNat = 0 then true else if type.toNat = 1 then false else choked
      | .sent _ => choked) (chokedAfter wire) := List.foldl_append

theorem lastUnchoke_le (wire : List Wire) : lastUnchoke wire ≤ wire.length := Nat.sub_le _ _

/-- The message neither chokes us nor takes a Choke back. -/
def Wire.Calm : Wire → Prop
  | .received type _ => type.toNat ≠ 0 ∧ type.toNat ≠ 1
  | .sent _ => True

theorem Wire.Calm.isUnchoke {w : Wire} (h : w.Calm) : isUnchoke w = false := by
  cases w with
  | received type payload => simpa [CTorrent.isUnchoke] using h.2
  | sent msg => rfl

theorem chokedAfter_of_calm {wire new : List Wire} (h : ∀ w ∈ new, w.Calm) :
    chokedAfter (wire ++ new) = chokedAfter wire := by
  rw [chokedAfter_append]
  generalize chokedAfter wire = c
  induction new with
  | nil => rfl
  | cons w new ih =>
    rw [List.foldl_cons]
    have hw := h w List.mem_cons_self
    have hrest := ih fun w' hw' => h w' (List.mem_cons_of_mem w hw')
    cases w with
    | received type payload =>
      simp only [if_neg hw.1, if_neg hw.2]
      exact hrest
    | sent msg => exact hrest

theorem lastUnchoke_of_calm {wire new : List Wire} (h : ∀ w ∈ new, w.Calm) :
    lastUnchoke (wire ++ new) = lastUnchoke wire := by
  unfold lastUnchoke
  rw [List.reverse_append, List.takeWhile_append_of_pos]
  · simp only [List.length_append, List.length_reverse]
    omega
  · intro w hw
    simp [(h w (List.mem_reverse.1 hw)).isUnchoke]

theorem lastUnchoke_unchoke {wire new : List Wire} {type : UInt8} {payload : Bytes}
    (ht : type.toNat = 1) (h : ∀ w ∈ new, w.Calm) :
    lastUnchoke (wire ++ .received type payload :: new) = wire.length + 1 := by
  have hsplit : wire ++ .received type payload :: new = (wire ++ [.received type payload]) ++ new := by
    simp
  rw [hsplit, lastUnchoke_of_calm h, lastUnchoke]
  simp [isUnchoke, ht]

/-! ### Entries and Requests -/

/-- The entries and what has passed over the connection: every time lies in the past; while the peer
does not choke us, every block of an entry has been requested since it was queued and since the most
recent UnChoke; and every Request was sent while the peer did not choke us. -/
structure Requested (size : ℕ → Option ℕ) (choked : Bool) (wire : List Wire)
    (queued : List (ℕ × ℕ)) : Prop where
  past : ∀ e ∈ queued, e.2 ≤ wire.length
  choked_eq : chokedAfter wire = choked
  requested : choked = false → ∀ e ∈ queued, ∃ length, size e.1 = some length ∧
    ∀ r ∈ requests e.1 length, r ∈ wire.drop (max e.2 (lastUnchoke wire))
  silent : ∀ pre post i b n, wire = pre ++ .sent (.request i b n) :: post →
    chokedAfter pre = false

namespace Requested

variable {size : ℕ → Option ℕ} {choked : Bool} {wire new : List Wire} {queued : List (ℕ × ℕ)}

theorem subset (h : Requested size choked wire queued) {queued' : List (ℕ × ℕ)}
    (hsub : ∀ e ∈ queued', e ∈ queued) : Requested size choked wire queued' where
  past := fun e he => h.past e (hsub e he)
  choked_eq := h.choked_eq
  requested := fun hc e he => h.requested hc e (hsub e he)
  silent := h.silent

/-- A Request among the messages of `wire ++ new` is one of `wire`, or one of `new`. -/
theorem split_request {pre post : List Wire} {i b n : UInt32}
    (h : wire ++ new = pre ++ .sent (.request i b n) :: post) :
    (∃ post', wire = pre ++ .sent (.request i b n) :: post') ∨
      ∃ mid, pre = wire ++ mid ∧ new = mid ++ .sent (.request i b n) :: post := by
  rcases List.append_eq_append_iff.1 h with ⟨mid, hpre, hnew⟩ | ⟨mid, hwire, hrest⟩
  · exact Or.inr ⟨mid, hpre, hnew⟩
  · cases mid with
    | nil => exact Or.inr ⟨[], by simpa using hwire.symm, by simpa using hrest.symm⟩
    | cons w mid =>
      rw [List.cons_append] at hrest
      obtain ⟨rfl, -⟩ := List.cons.inj hrest
      exact Or.inl ⟨mid, hwire⟩

/-- Messages that are no Choke and no UnChoke; Requests among them only if we are not choked. -/
theorem calm (h : Requested size choked wire queued) (hnew : ∀ w ∈ new, w.Calm)
    (hreq : choked = true → ∀ i b n, .sent (.request i b n) ∉ new) :
    Requested size choked (wire ++ new) queued where
  past := fun e he => by
    have := h.past e he
    rw [List.length_append]
    omega
  choked_eq := by rw [chokedAfter_of_calm hnew, h.choked_eq]
  requested := by
    intro hc e he
    obtain ⟨length, hl, hall⟩ := h.requested hc e he
    refine ⟨length, hl, fun r hr => ?_⟩
    have hpast := h.past e he
    have hle := lastUnchoke_le wire
    rw [lastUnchoke_of_calm hnew, List.drop_append_of_le_length (by omega)]
    exact List.mem_append_left _ (hall r hr)
  silent := by
    intro pre post i b n heq
    rcases split_request heq with ⟨post', hwire⟩ | ⟨mid, hpre, hmid⟩
    · exact h.silent pre post' i b n hwire
    · have hcalm : ∀ w ∈ mid, w.Calm := fun w hw => hnew w (hmid ▸ List.mem_append_left _ hw)
      rw [hpre, chokedAfter_of_calm hcalm, h.choked_eq]
      by_contra hc
      refine hreq (by simpa using hc) i b n ?_
      rw [hmid]
      exact List.mem_append_right _ List.mem_cons_self

/-- A Choke arrives. -/
theorem choke (h : Requested size choked wire queued) {type : UInt8} {payload : Bytes}
    (ht : type.toNat = 0) : Requested size true (wire ++ [.received type payload]) queued where
  past := fun e he => by
    have := h.past e he
    rw [List.length_append]
    omega
  choked_eq := by
    rw [chokedAfter_append]
    simp [ht]
  requested := fun hc => by cases hc
  silent := by
    intro pre post i b n heq
    rcases split_request heq with ⟨post', hwire⟩ | ⟨mid, -, hmid⟩
    · exact h.silent pre post' i b n hwire
    · have hmem : Wire.sent (.request i b n) ∈ [Wire.received type payload] := by
        rw [hmid]
        exact List.mem_append_right _ List.mem_cons_self
      cases List.mem_singleton.1 hmem

theorem calm_requests (index length : ℕ) : ∀ w ∈ requests index length, w.Calm := by
  intro w hw
  obtain ⟨b, -, rfl⟩ := List.mem_map.1 hw
  trivial

/-- An UnChoke arrives, and all entries are requested. -/
theorem unchoke (h : Requested size choked wire queued) {type : UInt8} (payload : Bytes)
    (ht : type.toNat = 1) (length : ℕ → ℕ)
    (hlength : ∀ e ∈ queued, size e.1 = some (length e.1)) :
    Requested size false (wire ++ .received type payload ::
      queued.flatMap fun e => requests e.1 (length e.1)) queued := by
  have hcalm : ∀ w ∈ queued.flatMap (fun e => requests e.1 (length e.1)), w.Calm := by
    intro w hw
    obtain ⟨e, -, hw⟩ := List.mem_flatMap.1 hw
    exact calm_requests _ _ w hw
  have hsplit : wire ++ .received type payload ::
      queued.flatMap (fun e => requests e.1 (length e.1)) =
      (wire ++ [.received type payload]) ++ queued.flatMap fun e => requests e.1 (length e.1) := by
    simp
  have hunchoked : ∀ mid : List Wire, (∀ w ∈ mid, w.Calm) →
      chokedAfter ((wire ++ [.received type payload]) ++ mid) = false := by
    intro mid hmid
    rw [chokedAfter_of_calm hmid, chokedAfter_append]
    simp [ht]
  refine ⟨?_, ?_, ?_, ?_⟩
  · intro e he
    have := h.past e he
    rw [List.length_append]
    omega
  · rw [hsplit]
    exact hunchoked _ hcalm
  · intro _ e he
    refine ⟨length e.1, hlength e he, fun r hr => ?_⟩
    have hpast := h.past e he
    rw [lastUnchoke_unchoke ht hcalm, hsplit,
      show max e.2 (wire.length + 1) = (wire ++ [Wire.received type payload]).length by
        rw [List.length_append, List.length_singleton]
        omega,
      List.drop_left]
    exact List.mem_flatMap.2 ⟨e, he, hr⟩
  · intro pre post i b n heq
    rw [hsplit] at heq
    rcases split_request heq with ⟨post', hwire⟩ | ⟨mid, rfl, hmid⟩
    · rcases split_request hwire with ⟨post', hwire⟩ | ⟨mid, -, hmid⟩
      · exact h.silent pre post' i b n hwire
      · have hmem : Wire.sent (.request i b n) ∈ [Wire.received type payload] := by
          rw [hmid]
          exact List.mem_append_right _ List.mem_cons_self
        cases List.mem_singleton.1 hmem
    · exact hunchoked mid fun w hw => hcalm w (hmid ▸ List.mem_append_left _ hw)

/-- A piece is queued, and requested unless the peer chokes us. -/
theorem select (h : Requested size choked wire queued) {index length time : ℕ}
    (hl : size index = some length) (htime : time ≤ wire.length) :
    Requested size choked
      (wire ++ .sent .interested :: if choked then [] else requests index length)
      (queued ++ [(index, time)]) := by
  have hcalm : ∀ w ∈ .sent .interested :: (if choked then [] else requests index length),
      w.Calm := by
    intro w hw
    rcases List.mem_cons.1 hw with rfl | hw
    · trivial
    · split_ifs at hw
      · cases hw
      · exact calm_requests _ _ w hw
  have hold := h.calm hcalm (by rintro rfl i b n; simp)
  refine ⟨?_, hold.choked_eq, ?_, hold.silent⟩
  · intro e he
    rcases List.mem_append.1 he with he | he
    · exact hold.past e he
    · rw [List.mem_singleton.1 he, List.length_append]
      exact Nat.le_add_right_of_le htime
  · intro hc e he
    rcases List.mem_append.1 he with he | he
    · exact hold.requested hc e he
    · rw [List.mem_singleton.1 he]
      refine ⟨length, hl, fun r hr => ?_⟩
      have hle := lastUnchoke_le wire
      rw [lastUnchoke_of_calm hcalm, List.drop_append_of_le_length (Nat.max_le.2 ⟨htime, hle⟩), hc]
      exact List.mem_append_right _ (List.mem_cons_of_mem _ hr)

end Requested

/-! ### What a handler does before it chooses a piece -/

/-- The message is no Choke and no UnChoke, and not a Request of ours. -/
def Wire.Quiet (w : Wire) : Prop := w.Calm ∧ ∀ i b n, w ≠ .sent (.request i b n)

/-- Between `s` and `s₁` no Request was sent and the flag stayed, and the entry at the place `taken`
was removed. -/
structure Settles (s s₁ : Session) (taken : Option ℕ) : Prop where
  wire : ∃ quiet, (∀ w ∈ quiet, w.Quiet) ∧ s₁.peer.wire = s.peer.wire ++ quiet
  choked : s₁.peer.peerChoked = s.peer.peerChoked
  queue : s₁.peer.queue.map Piece.index = Tracked.keep (s.peer.queue.map Piece.index) taken
  layout : FileManager.SameLayout s.torrent.fileManager s₁.torrent.fileManager

namespace Peer

variable {sha1 : Bytes → Sha1sum} {human : ℕ → String} {s s' : Session} {payload : Bytes} {n : ℕ}

theorem settles_refl (h : FileManager.SameLayout s.torrent.fileManager s'.torrent.fileManager)
    (hpeer : s'.peer.wire = s.peer.wire ∧ s'.peer.peerChoked = s.peer.peerChoked ∧
      s'.peer.queue.map Piece.index = s.peer.queue.map Piece.index) : Settles s s' none :=
  ⟨⟨[], by simp, by simpa using hpeer.1⟩, hpeer.2.1, hpeer.2.2, h⟩

/-- One message is sent that is no Request. -/
theorem settles_send (msg : Message)
    (h : FileManager.SameLayout s.torrent.fileManager s'.torrent.fileManager)
    (hmsg : ∀ i b n, msg ≠ .request i b n)
    (hpeer : s'.peer.wire = s.peer.wire ++ [.sent msg] ∧
      s'.peer.peerChoked = s.peer.peerChoked ∧ s'.peer.queue = s.peer.queue) :
    Settles s s' none := by
  refine ⟨⟨[.sent msg], ?_, hpeer.1⟩, hpeer.2.1, congrArg _ hpeer.2.2, h⟩
  intro w hw
  rw [List.mem_singleton.1 hw]
  exact ⟨trivial, fun i b n heq => hmsg i b n (Wire.sent.inj heq)⟩

theorem Delivers.takenAt {before behind : List Piece} {piece : Piece}
    (h : Delivers s payload before piece behind) :
    takenAt s payload 7 = if s.torrent.fileManager.pieceDone piece.index = true ∨
      piece.currentBlocks + 1 = piece.numBlocks then some before.length else none := by
  have hk : s.peer.queue.findIdx (fun p => p.index = indexOf payload) = before.length := by
    rw [h.queue, List.findIdx_append, List.findIdx_eq_length_of_false (by simpa using h.first)]
    simp [List.findIdx_cons, h.index]
  have hget : s.peer.queue[before.length]? = some piece := by
    rw [h.queue]
    simp
  simp only [Peer.takenAt, hk, hget, Option.bind_some]

theorem Delivers.keep {before behind : List Piece} {piece : Piece}
    (h : Delivers s payload before piece behind) :
    Tracked.keep (s.peer.queue.map Piece.index) (some before.length) =
      (before ++ behind).map Piece.index := by
  rw [h.queue, List.map_append, List.map_cons, Tracked.keep,
    List.eraseIdx_append_of_length_le (by simp)]
  simp

/-- A message other than a Choke and an UnChoke: the handler settles, and may then choose a piece. -/
theorem Outcome.settles (h : Outcome sha1 s payload n s') (hc : s'.peer.connected = true)
    (h0 : n ≠ 0) (h1 : n ≠ 1) : ∃ s₁, Settles s s₁ (takenAt s payload n) ∧ Selected s₁ s' := by
  cases h with
  | error errmsg _ => cases hc
  | choke _ => exact absurd rfl h0
  | unchoke _ _ _ => exact absurd rfl h1
  | interested _ =>
    refine ⟨_, ?_, Or.inl rfl⟩
    dsimp only
    split_ifs
    · exact settles_send .unchoke (.refl _) (fun _ _ _ h => by cases h) ⟨rfl, rfl, rfl⟩
    · exact settles_refl (.refl _) ⟨rfl, rfl, rfl⟩
  | bitfield _ hselect =>
    refine ⟨_, ?_, hselect⟩
    exact settles_refl (.refl _) ⟨rfl, rfl, rfl⟩
  | refuse _ fm hr =>
    refine ⟨_, ?_, Or.inl rfl⟩
    exact settles_send .choke (FileManager.sameLayout_requestPieceBlock _ hr)
      (fun _ _ _ h => by cases h) ⟨rfl, rfl, rfl⟩
  | grant _ fm hr =>
    refine ⟨_, ?_, Or.inl rfl⟩
    exact settles_refl (FileManager.sameLayout_requestPieceBlock _ hr) ⟨rfl, rfl, rfl⟩
  | done hd hdone length _ =>
    refine ⟨_, ?_, Or.inl rfl⟩
    refine ⟨⟨_, ?_, rfl⟩, rfl, ?_, .refl _⟩
    · intro w hw
      obtain ⟨b, -, rfl⟩ := List.mem_map.1 hw
      exact ⟨trivial, fun _ _ _ h => by cases h⟩
    · rw [hd.takenAt, if_pos (Or.inl hdone), hd.keep]
  | store hd hdone hmore =>
    refine ⟨_, ?_, Or.inl rfl⟩
    rw [hd.takenAt, if_neg (by simp [hdone, hmore])]
    refine settles_refl (.refl _) ⟨rfl, rfl, ?_⟩
    rw [hd.queue]
    simp [Piece.store]
  | @finish before behind piece hd hdone hlast _ hfinish =>
    have htaken : takenAt s payload 7 = some before.length := by
      rw [hd.takenAt, if_pos (Or.inr hlast)]
    obtain ⟨t, ht, ⟨rfl, -⟩ | hselect⟩ := finishPiece_cases hfinish
    · refine ⟨_, ?_, Or.inl rfl⟩
      refine ⟨⟨[.sent .choke], ?_, rfl⟩, rfl, ?_, ht⟩
      · intro w hw
        rw [List.mem_singleton.1 hw]
        exact ⟨trivial, fun _ _ _ h => by cases h⟩
      · rw [htaken, hd.keep]
        rfl
    · refine ⟨_, ?_, hselect⟩
      refine ⟨⟨[], by simp, by simp⟩, rfl, ?_, ht⟩
      rw [htaken, hd.keep]
  | unknown hn =>
    refine ⟨_, ?_, Or.inl rfl⟩
    have htaken : takenAt s payload n = none := by
      unfold Peer.takenAt
      split
      · omega
      · rfl
    rw [htaken]
    exact settles_refl (.refl _) ⟨rfl, rfl, rfl⟩
  | _ =>
    refine ⟨_, ?_, Or.inl rfl⟩
    exact settles_refl (.refl _) ⟨rfl, rfl, rfl⟩

/-- An event other than a message. -/
theorem settles_event {e : Event} (h : s.step sha1 human e = some s')
    (hc : s'.peer.connected = true) (hno : ∀ type payload, e ≠ .message type payload) :
    Settles s s' none := by
  cases e with
  | message type payload => exact absurd rfl (hno type payload)
  | torrent t =>
    have hlayout := sameLayout_step h
    simp only [Session.step] at h
    split_ifs at h
    cases h
    exact settles_refl hlayout ⟨rfl, rfl, rfl⟩
  | sendHave index =>
    cases h
    unfold sendHave
    split_ifs
    · exact settles_refl (.refl _) ⟨rfl, rfl, rfl⟩
    · exact settles_send (.have_ _) (.refl _) (fun _ _ _ h => by cases h) ⟨rfl, rfl, rfl⟩
  | sendBitfield stack =>
    cases h
    unfold Torrent.sendBitfield
    split_ifs
    · exact settles_refl (.refl _) ⟨rfl, rfl, rfl⟩
    · exact settles_send (.bitfield _) (.refl _) (fun _ _ _ h => by cases h) ⟨rfl, rfl, rfl⟩
  | sendPieceBlock index begin block =>
    cases h
    exact settles_send (.pieceBlock _ _ _) (.refl _) (fun _ _ _ h => by cases h) ⟨rfl, rfl, rfl⟩
  | handleError errmsg =>
    cases h
    cases hc

theorem Outcome.choke_eq (h : Outcome sha1 s payload 0 s') (hc : s'.peer.connected = true) :
    s' = { s with peer := { s.peer with peerChoked := true } } := by
  cases h with
  | error errmsg _ => cases hc
  | choke _ => rfl
  | unknown hn => exact absurd hn (by decide)

theorem Outcome.unchoke_eq (h : Outcome sha1 s payload 1 s') (hc : s'.peer.connected = true) :
    ∃ length : ℕ → ℕ, (∀ piece ∈ s.peer.queue,
        s.torrent.fileManager.pieceSize piece.index = some (length piece.index)) ∧
      s' = { s with peer := { s.peer with
        peerChoked := false
        wire := s.peer.wire ++
          s.peer.queue.flatMap (fun piece => requests piece.index (length piece.index)) } } := by
  cases h with
  | error errmsg _ => cases hc
  | unchoke _ length hlength => exact ⟨length, hlength, rfl⟩
  | unknown hn => exact absurd hn (by decide)

end Peer

/-! ### Every run -/

namespace Tracked

variable {sha1 : Bytes → Sha1sum} {human : ℕ → String} {t t' : Tracked} {s s₁ : Session}

theorem map_keep {α β : Type} (f : α → β) (l : List α) (taken : Option ℕ) :
    (keep l taken).map f = keep (l.map f) taken := by
  cases taken with
  | none => rfl
  | some k => simp only [keep, List.eraseIdx_eq_take_drop_succ, List.map_append, List.map_take,
      List.map_drop]

theorem mem_of_keep {α : Type} {l : List α} {taken : Option ℕ} {e : α} (h : e ∈ keep l taken) :
    e ∈ l := by
  cases taken with
  | none => exact h
  | some k => exact List.mem_of_mem_eraseIdx h

/-- The entries are those of `m_queue`, and have been requested. -/
structure Inv (s : Session) (queued : List (ℕ × ℕ)) : Prop where
  entries : queued.map Prod.fst = s.peer.queue.map Piece.index
  requested : Requested s.torrent.fileManager.pieceSize s.peer.peerChoked s.peer.wire queued

theorem Inv.length_eq {queued : List (ℕ × ℕ)} (h : Inv s queued) :
    queued.length = s.peer.queue.length := by
  simpa using congrArg List.length h.entries

/-- A handler that settles keeps the invariant of the remaining entries. -/
theorem Inv.settles {queued : List (ℕ × ℕ)} (h : Inv s queued) {taken : Option ℕ}
    (hsettles : Settles s s₁ taken) : Inv s₁ (keep queued taken) := by
  refine ⟨?_, ?_⟩
  · rw [map_keep, h.entries, hsettles.queue]
  · obtain ⟨quiet, hquiet, hwire⟩ := hsettles.wire
    rw [hsettles.choked, hwire, hsettles.layout.pieceSize_eq]
    refine (h.requested.subset fun e he => mem_of_keep he).calm (fun w hw => (hquiet w hw).1) ?_
    intro _ i b n hmem
    exact (hquiet _ hmem).2 i b n rfl

/-- A piece may be chosen, and the new entry is noted. -/
theorem Inv.advance {now : ℕ} {taken : Option ℕ} (h : Inv s₁ (keep t.queued taken))
    (hnow : now ≤ s₁.peer.wire.length) (hselect : Selected s₁ s)
    (hadvance : t.advance s now taken = some t') : Inv t'.session t'.queued := by
  unfold Tracked.advance at hadvance
  split_ifs at hadvance
  cases hadvance
  dsimp only
  obtain ⟨hlayout, hpeer | ⟨index, length, -, hlength, hpeer⟩⟩ := hselect.cases
  · rw [List.drop_eq_nil_of_le (by rw [hpeer, h.length_eq]), List.map_nil, List.append_nil]
    refine ⟨by rw [hpeer, h.entries], ?_⟩
    rw [hpeer, hlayout.pieceSize_eq]
    exact h.requested
  · have hdrop : s.peer.queue.drop (keep t.queued taken).length = [Piece.new index length] := by
      rw [hpeer, h.length_eq]
      exact List.drop_left
    rw [hdrop]
    refine ⟨?_, ?_⟩
    · rw [hpeer, List.map_append, h.entries, List.map_append]
      rfl
    · rw [hpeer, hlayout.pieceSize_eq]
      exact h.requested.select hlength hnow

/-- A Choke, an UnChoke, or a message after which the handler settles. -/
theorem Inv.message {type : UInt8} {payload : Bytes} (h : Inv t.session t.queued)
    (hmessage : handleMessage sha1 human t.session type payload = some s)
    (hc : s.peer.connected = true) :
    ∃ s₁, Inv s₁ (keep t.queued (takenAt t.session payload type.toNat)) ∧
      t.session.peer.wire.length + 1 ≤ s₁.peer.wire.length ∧ Selected s₁ s := by
  have hout := handleMessage_outcome hmessage
  by_cases h0 : type.toNat = 0
  · rw [h0] at hout ⊢
    refine ⟨s, ?_, ?_, Or.inl rfl⟩
    · rw [hout.choke_eq hc]
      exact ⟨h.entries, h.requested.choke h0⟩
    · rw [hout.choke_eq hc]
      simp [receive]
  by_cases h1 : type.toNat = 1
  · rw [h1] at hout ⊢
    obtain ⟨length, hlength, hs⟩ := hout.unchoke_eq hc
    refine ⟨s, ?_, ?_, Or.inl rfl⟩
    · have hall : ∀ e ∈ t.queued,
          t.session.torrent.fileManager.pieceSize e.1 = some (length e.1) := by
        intro e he
        have hmem : e.1 ∈ t.session.peer.queue.map Piece.index :=
          h.entries ▸ List.mem_map_of_mem he
        obtain ⟨piece, hpiece, heq⟩ := List.mem_map.1 hmem
        rw [← heq]
        exact hlength piece hpiece
      have hwire : (t.queued.flatMap fun e => requests e.1 (length e.1)) =
          t.session.peer.queue.flatMap fun piece => requests piece.index (length piece.index) := by
        rw [← List.flatMap_map Prod.fst (fun i => requests i (length i)), h.entries,
          List.flatMap_map]
      have hrequested := h.requested.unchoke payload h1 length hall
      rw [hwire] at hrequested
      have hassoc : t.session.peer.wire ++ [.received type payload] ++
          t.session.peer.queue.flatMap (fun piece => requests piece.index (length piece.index)) =
          t.session.peer.wire ++ .received type payload ::
            t.session.peer.queue.flatMap fun piece =>
              requests piece.index (length piece.index) := by simp
      rw [← hassoc] at hrequested
      rw [hs]
      exact ⟨h.entries, hrequested⟩
    · rw [hs]
      simp only [receive, List.length_append, List.length_singleton]
      omega
  · obtain ⟨s₁, hsettles, hselect⟩ := hout.settles hc h0 h1
    refine ⟨s₁, ?_, ?_, hselect⟩
    · refine Inv.settles (s := receive t.session type payload) ⟨h.entries, ?_⟩ hsettles
      refine h.requested.calm ?_ ?_
      · intro w hw
        rw [List.mem_singleton.1 hw]
        exact ⟨h0, h1⟩
      · intro _ i b n hmem
        cases List.mem_singleton.1 hmem
    · obtain ⟨quiet, -, hwire⟩ := hsettles.wire
      rw [hwire]
      simp only [receive, List.length_append, List.length_singleton]
      omega

theorem inv_step {act : TrackedAction} (h : Inv t.session t.queued)
    (hs : t.step sha1 human act = some t') : Inv t'.session t'.queued := by
  cases act with
  | event e =>
    obtain ⟨s, hstep, hadvance⟩ := Option.bind_eq_some_iff.1 hs
    have hc : s.peer.connected = true := by
      unfold Tracked.advance at hadvance
      split_ifs at hadvance with hc
      exact hc
    by_cases hmessage : ∃ type payload, e = .message type payload
    · obtain ⟨type, payload, rfl⟩ := hmessage
      simp only [Session.step] at hstep
      split_ifs at hstep
      obtain ⟨s₁, hinv, hnow, hselect⟩ := h.message hstep hc
      exact hinv.advance hnow hselect hadvance
    · have hno : ∀ type payload, e ≠ .message type payload :=
        fun type payload he => hmessage ⟨type, payload, he⟩
      have hsettles := settles_event hstep hc hno
      have htaken : takenBy t.session e = none := by
        cases e <;> first | rfl | exact absurd rfl (hno _ _)
      have hnow : t.now e ≤ s.peer.wire.length := by
        obtain ⟨quiet, -, hwire⟩ := hsettles.wire
        rw [hwire, List.length_append]
        cases e <;> first | exact Nat.le_add_right _ _ | exact absurd rfl (hno _ _)
      rw [htaken] at hadvance
      exact (h.settles hsettles).advance hnow (Or.inl rfl) hadvance
  | select =>
    obtain ⟨s, hselect, hadvance⟩ := Option.bind_eq_some_iff.1 hs
    exact Inv.advance h le_rfl (Or.inr hselect) hadvance
  | sendChoke =>
    have hsettles : Settles t.session
        { t.session with peer := t.session.peer.sendChoke } none :=
      settles_send .choke (.refl _) (fun _ _ _ h => by cases h) ⟨rfl, rfl, rfl⟩
    refine (h.settles hsettles).advance ?_ (Or.inl rfl) hs
    simp [Peer.sendChoke, Peer.send]

theorem inv_start (torrent : Torrent) (ip : UInt32) (heap : ℤ → UInt8) :
    Inv (start torrent ip heap).session (start torrent ip heap).queued where
  entries := rfl
  requested := {
    past := by simp [start]
    choked_eq := rfl
    requested := by simp [start]
    silent := by simp [start, Peer.new] }

/-- **Everything queued has been requested.** In every state that a connection reaches without an
error, whatever messages arrive and whenever pieces are chosen: unless the peer chokes us, every
block of every entry of `m_queue` has been requested since the most recent UnChoke or since the
piece was queued, whichever is later; and no Request was sent while the peer choked us. -/
theorem queued_requested (sha1 : Bytes → Sha1sum) (human : ℕ → String) (torrent : Torrent)
    (ip : UInt32) (heap : ℤ → UInt8) (acts : List TrackedAction)
    (h : Runs.run (step sha1 human) (start torrent ip heap) acts = some t) :
    t.queued.map Prod.fst = t.session.peer.queue.map Piece.index ∧
    (t.session.peer.peerChoked = false → ∀ e ∈ t.queued, ∃ length,
      t.session.torrent.fileManager.pieceSize e.1 = some length ∧
      ∀ b ∈ blocksOf length,
        .sent (.request (UInt32.ofNat e.1) (UInt32.ofNat b.1) (UInt32.ofNat b.2)) ∈
          t.session.peer.wire.drop (max e.2 (lastUnchoke t.session.peer.wire))) ∧
    chokedAfter t.session.peer.wire = t.session.peer.peerChoked ∧
    ∀ pre post i b n, t.session.peer.wire = pre ++ .sent (.request i b n) :: post →
      chokedAfter pre = false := by
  have hinv : Inv t.session t.queued :=
    Runs.inv_run_of_step (I := fun t => Inv t.session t.queued)
      (fun _ _ _ ht hs => inv_step ht hs) (inv_start torrent ip heap) h
  refine ⟨hinv.entries, ?_, hinv.requested.choked_eq, hinv.requested.silent⟩
  intro hc e he
  obtain ⟨length, hlength, hall⟩ := hinv.requested.requested hc e he
  exact ⟨length, hlength, fun b hb => hall _ (List.mem_map_of_mem hb)⟩

/-- A piece is chosen while the peer chokes us, and requested after each of two UnChokes. -/
def twiceUnchoked : List TrackedAction :=
  [.event (.message 5 [128]), .event (.message 1 []), .event (.message 0 []),
    .event (.message 1 [])]

theorem queued_requested_twiceUnchoked : ∃ t, Runs.run (step (fun _ _ => 0) fun _ => "")
      (start (onePiece 2) 1 fun _ => 0) twiceUnchoked = some t ∧
    (t.session.peer.peerChoked = false ∧ t.queued = [(0, 1)]) ∧
    (t.queued.map Prod.fst = t.session.peer.queue.map Piece.index ∧
      (t.session.peer.peerChoked = false → ∀ e ∈ t.queued, ∃ length,
        t.session.torrent.fileManager.pieceSize e.1 = some length ∧
        ∀ b ∈ blocksOf length,
          .sent (.request (UInt32.ofNat e.1) (UInt32.ofNat b.1) (UInt32.ofNat b.2)) ∈
            t.session.peer.wire.drop (max e.2 (lastUnchoke t.session.peer.wire))) ∧
      chokedAfter t.session.peer.wire = t.session.peer.peerChoked ∧
      ∀ pre post i b n, t.session.peer.wire = pre ++ .sent (.request i b n) :: post →
        chokedAfter pre = false) := by
  have hany : ((Runs.run (step (fun _ _ => 0) fun _ => "")
      (start (onePiece 2) 1 fun _ => 0) twiceUnchoked).any fun t =>
        t.session.peer.peerChoked = false ∧ t.queued = [(0, 1)]) = true := by decide +kernel
  obtain ⟨t, ht, hp⟩ := (Option.any_eq_true _ _).1 hany
  exact ⟨t, ht, of_decide_eq_true hp, queued_requested _ _ _ _ _ _ ht⟩

end Tracked

end CTorrent
