import CTorrent.Lib.Mirror
import CTorrent.Peer.Honest

/-!
# Two peers and their flags

A `Duplex` joins two instances of `Peer`, each with a torrent of its own, by a channel in each
direction. A party changes its own flags when it writes and the other's copy when it reads, and a
handler may send replies on the way.

* `Flags`, `Flags.apply`: the two flags that a party announces, and what a message makes of a copy;
* `Duplex`, `OwnSend`, `Duplex.step`: the parties, what each may send on its own account, the
  interleavings;
* `Outcome.announces`, `OwnSend.announces`: what is sent says how the own flags change;
* `flags_agree`: the Choke, UnChoke and Interested messages in flight make up the difference.
-/

namespace CTorrent

open Peer Mirror

/-- Whether a party chokes the other, and whether it is interested. -/
structure Flags where
  choked : Bool
  interested : Bool
  deriving DecidableEq

/-- What the other side makes of its copy of the flags when the message arrives. -/
def Flags.apply (f : Flags) : Message → Flags
  | .choke => { f with choked := true }
  | .unchoke => { f with choked := false }
  | .interested => { f with interested := true }
  | _ => f

/-- `PS_AmChoked` and `PS_AmInterested`. -/
def Peer.ownFlags (p : Peer) : Flags := ⟨p.amChoked, p.amInterested⟩

/-- `PS_PeerChoked` and `PS_PeerInterested`. -/
def Peer.copiedFlags (p : Peer) : Flags := ⟨p.peerChoked, p.peerInterested⟩

/-! ### The two parties -/

/-- What a party does on its own account: any of its senders, for any reason, or a change of its
torrent. -/
inductive OwnSend where
  | keepAlive
  | choke
  | unchoke
  | interested
  | have_ (index : ℕ)
  | bitfield (bits : Bytes)
  | completed (stack : ℕ → UInt8)
  | pieceBlock (index begin : ℕ) (block : Bytes)
  | request (index begin length : ℕ)
  | cancel (index begin length : ℕ)
  | pieceRequest (index : ℕ)
  | requestPiece (index : ℕ)
  | cancelPiece (piece : Peer.Piece)
  | selectPiece
  | torrent (t : Torrent)

/-- The sender that is called. -/
def OwnSend.run (s : Session) : OwnSend → Option Session
  | .keepAlive => some { s with peer := s.peer.sendKeepAlive }
  | .choke => some { s with peer := s.peer.sendChoke }
  | .unchoke => some { s with peer := s.peer.sendUnchoke }
  | .interested => some { s with peer := s.peer.sendInterested }
  | .have_ index => some { s with peer := s.peer.sendHave index }
  | .bitfield bits => some { s with peer := s.peer.sendBitfield bits }
  | .completed stack => some { s with peer := s.torrent.sendBitfield stack s.peer }
  | .pieceBlock index begin block =>
      some { s with peer := s.peer.sendPieceBlock index begin block }
  | .request index begin length => some { s with peer := s.peer.sendRequest index begin length }
  | .cancel index begin length => some { s with peer := s.peer.sendCancel index begin length }
  | .pieceRequest index => Peer.sendPieceRequest s index
  | .requestPiece index => Peer.requestPiece s index
  | .cancelPiece piece => Peer.cancelPiece s piece
  | .selectPiece => Torrent.requestPiece s
  | .torrent t => some { s with torrent := t }

/-- The two parties, and what is in flight to each of them. -/
structure Duplex where
  a : Session
  b : Session
  toA : List Message := []
  toB : List Message := []

/-- A step of the party `a` or, with `swap`, of the party `b`. -/
inductive DuplexAction where
  /-- The first message in flight arrives. -/
  | receive
  | send (o : OwnSend)

namespace Duplex

variable (sha1 : Bytes → Sha1sum) (human : ℕ → String) (d : Duplex)

/-- The parties exchanged. -/
def swap : Duplex := ⟨d.b, d.a, d.toB, d.toA⟩

/-- The party `a` has come to the state `s`, and what it sent is in flight. A step on which
`handleError` is called ends the connection, and is no step here. -/
def advance (s : Session) (toA : List Message) : Option Duplex :=
  if s.peer.connected then
    some ⟨s, d.b, toA, d.toB ++ sentMessages (s.peer.wire.drop d.a.peer.wire.length)⟩
  else none

/-- A step of the party `a`. `handle` reads on behind a keep-alive. -/
def stepA : DuplexAction → Option Duplex
  | .receive =>
      match d.toA with
      | [] => none
      | m :: rest =>
          match m.type with
          | none => d.advance d.a rest
          | some type =>
              (Peer.handleMessage sha1 human d.a type m.payload).bind fun s => d.advance s rest
  | .send o => (o.run d.a).bind fun s => d.advance s d.toA

/-- One step: `true` stands for the party `a`. -/
def step : Bool × DuplexAction → Option Duplex
  | (true, act) => d.stepA sha1 human act
  | (false, act) => (d.swap.stepA sha1 human act).map swap

/-- Both parties are as the constructor leaves them. -/
def start (ta tb : Torrent) (ipA ipB : UInt32) (heapA heapB : ℤ → UInt8) : Duplex where
  a := ⟨ta, Peer.new ipB heapA ta.fileManager.pieces.length⟩
  b := ⟨tb, Peer.new ipA heapB tb.fileManager.pieces.length⟩

end Duplex

/-! ### What is sent says how the flags change -/

namespace Peer

variable {sha1 : Bytes → Sha1sum} {human : ℕ → String} {s s' : Session} {payload : Bytes} {n : ℕ}

/-- What the peer has sent on the way from `p` to `p'` says how its flags have changed. -/
def Announces (p p' : Peer) : Prop :=
  ∃ new, p'.wire = p.wire ++ new ∧
    Mirror.Agrees Flags.apply p.ownFlags (sentMessages new) p'.ownFlags

theorem Announces.refl (p : Peer) : Announces p p := ⟨[], by simp, rfl⟩

/-- One message more. -/
theorem announces_send {p p' : Peer} {msg : Message} (hwire : p'.wire = p.wire ++ [.sent msg])
    (hflags : p.ownFlags.apply msg = p'.ownFlags) : Announces p p' := ⟨_, hwire, hflags⟩

/-- Messages that are none of the three leave the flags as they are. -/
theorem announces_neutral {p p' : Peer} {new : List Wire} (hwire : p'.wire = p.wire ++ new)
    (hnew : Neutral Flags.apply (sentMessages new)) (hflags : p'.ownFlags = p.ownFlags) :
    Announces p p' := ⟨new, hwire, hflags ▸ hnew.agrees _⟩

theorem neutral_requests (index length : ℕ) :
    Neutral Flags.apply (sentMessages (requests index length)) := by
  intro m hm f
  unfold sentMessages requests at hm
  rw [List.filterMap_map] at hm
  obtain ⟨block, -, heq⟩ := List.mem_filterMap.1 hm
  cases heq
  rfl

theorem neutral_cancels (index length : ℕ) :
    Neutral Flags.apply (sentMessages (cancels index length)) := by
  intro m hm f
  unfold sentMessages cancels at hm
  rw [List.filterMap_map] at hm
  obtain ⟨block, -, heq⟩ := List.mem_filterMap.1 hm
  cases heq
  rfl

/-- What queueing a piece sends: an Interested, and Requests unless the peer chokes us. -/
theorem announces_pieceRequest {p : Peer} {index length : ℕ} {queue : List Piece} :
    Announces p { p with
      amInterested := true
      queue := queue
      wire := p.wire ++ .sent .interested ::
        if p.peerChoked then [] else requests index length } := by
  refine ⟨_, rfl, ?_⟩
  have hneutral : Neutral Flags.apply
      (sentMessages (if p.peerChoked then [] else requests index length)) := by
    split_ifs
    · exact fun m hm => absurd hm List.not_mem_nil
    · exact neutral_requests index length
  exact hneutral.agrees _

theorem Selected.announces (h : Selected s s') : Announces s.peer s'.peer := by
  obtain ⟨-, hpeer | ⟨index, length, -, -, hpeer⟩⟩ := h.cases
  · rw [hpeer]
    exact .refl _
  · rw [hpeer]
    exact announces_pieceRequest

theorem Outcome.announces (h : Outcome sha1 s payload n s') : Announces s.peer s'.peer := by
  cases h with
  | unchoke h length hlength =>
    refine announces_neutral rfl (fun m hm f => ?_) rfl
    unfold sentMessages at hm
    rw [List.filterMap_flatMap] at hm
    obtain ⟨piece, -, hm⟩ := List.mem_flatMap.1 hm
    exact neutral_requests piece.index _ m hm f
  | interested h =>
    dsimp only
    split_ifs
    · exact announces_send rfl rfl
    · exact .refl _
  | bitfield h hselect => exact hselect.announces
  | refuse h fm hrequest => exact announces_send rfl rfl
  | done h hdone length hlength => exact announces_neutral rfl (neutral_cancels _ _) rfl
  | finish h hdone hlast hfinish =>
    obtain ⟨t, ht, ⟨rfl, -⟩ | hselect⟩ := finishPiece_cases hfinish
    · exact announces_send rfl rfl
    · exact hselect.announces
  | _ => exact .refl _

/-- What a message of the given type makes of the copied flags. -/
theorem Outcome.copiedFlags (h : Outcome sha1 s payload n s') (hs : s'.peer.connected = true) :
    s'.peer.peerChoked = (if n = 0 then true else if n = 1 then false else s.peer.peerChoked) ∧
      s'.peer.peerInterested =
        if n = 2 then true else if n = 3 then false else s.peer.peerInterested := by
  cases h with
  | error errmsg h => cases hs
  | interested h =>
    by_cases hc : s.peer.amChoked = true <;> simp [hc, sendUnchoke, send]
  | bitfield h hselect =>
    obtain ⟨-, hpeer | ⟨index, length, -, -, hpeer⟩⟩ := hselect.cases <;> simp [hpeer]
  | finish h hdone hlast hfinish =>
    obtain ⟨t, ht, ⟨rfl, -⟩ | hselect⟩ := finishPiece_cases hfinish
    · exact ⟨rfl, rfl⟩
    · obtain ⟨-, hpeer | ⟨index, length, -, -, hpeer⟩⟩ := hselect.cases <;> simp [hpeer]
  | unknown h =>
    rw [if_neg (by omega), if_neg (by omega), if_neg (by omega), if_neg (by omega)]
    exact ⟨rfl, rfl⟩
  | _ => exact ⟨rfl, rfl⟩

/-- A message of a peer is applied to the copied flags, and what it makes us send says how our own
flags change. -/
theorem handleMessage_flags {m : Message} {type : UInt8} (hm : m.type = some type)
    (h : handleMessage sha1 human s type m.payload = some s') (hs : s'.peer.connected = true) :
    Announces s.peer s'.peer ∧ s'.peer.copiedFlags = s.peer.copiedFlags.apply m := by
  have hout := handleMessage_outcome h
  obtain ⟨new, hwire, hagrees⟩ := hout.announces
  refine ⟨⟨.received type m.payload :: new, ?_, hagrees⟩, ?_⟩
  · rw [hwire, receive, List.append_assoc, List.singleton_append]
  · obtain ⟨hc, hi⟩ := hout.copiedFlags hs
    unfold copiedFlags
    rw [hc, hi]
    cases m <;> cases hm <;> rfl

end Peer

/-- A sender leaves the copied flags alone, and what is sent says how the own flags change. -/
theorem OwnSend.announces {o : OwnSend} {s s' : Session} (h : o.run s = some s')
    (hs : s'.peer.connected = true) :
    s.peer.Announces s'.peer ∧ s'.peer.copiedFlags = s.peer.copiedFlags := by
  cases o with
  | have_ index =>
    cases h
    dsimp only [sendHave]
    split_ifs
    · exact ⟨.refl _, rfl⟩
    · exact ⟨announces_send rfl rfl, rfl⟩
  | completed stack =>
    cases h
    dsimp only [Torrent.sendBitfield]
    split_ifs
    · exact ⟨.refl _, rfl⟩
    · exact ⟨announces_send rfl rfl, rfl⟩
  | pieceRequest index =>
    change Peer.sendPieceRequest s index = some s' at h
    rw [sendPieceRequest_eq] at h
    obtain ⟨length, -, rfl⟩ := Option.map_eq_some_iff.1 h
    exact ⟨announces_pieceRequest, rfl⟩
  | requestPiece index =>
    change Peer.requestPiece s index = some s' at h
    by_cases hc : s.peer.peerChoked = true
    · rw [Peer.requestPiece, if_pos hc] at h
      cases h
      cases hs
    · rw [requestPiece_eq (by simpa using hc)] at h
      obtain ⟨length, -, rfl⟩ := Option.map_eq_some_iff.1 h
      exact ⟨announces_neutral rfl (neutral_requests _ _) rfl, rfl⟩
  | cancelPiece piece =>
    change Peer.cancelPiece s piece = some s' at h
    rw [cancelPiece_eq] at h
    obtain ⟨length, -, rfl⟩ := Option.map_eq_some_iff.1 h
    exact ⟨announces_neutral rfl (neutral_cancels _ _) rfl, rfl⟩
  | selectPiece =>
    have hselect : Selected s s' := Or.inr h
    refine ⟨hselect.announces, ?_⟩
    obtain ⟨-, hpeer | ⟨index, length, -, -, hpeer⟩⟩ := hselect.cases
    · rw [hpeer]
    · rw [hpeer]
      rfl
  | torrent t =>
    cases h
    exact ⟨.refl _, rfl⟩
  | _ =>
    cases h
    exact ⟨announces_send rfl rfl, rfl⟩

/-! ### Runs -/

namespace Duplex

variable {sha1 : Bytes → Sha1sum} {human : ℕ → String} {d d' : Duplex}

/-- What is in flight to `b` leads from its copies to the flags of `a`, and the other way round. -/
structure FlagsAgree (d : Duplex) : Prop where
  toB : Mirror.Agrees Flags.apply d.b.peer.copiedFlags d.toB d.a.peer.ownFlags
  toA : Mirror.Agrees Flags.apply d.a.peer.copiedFlags d.toA d.b.peer.ownFlags

theorem FlagsAgree.swap (h : d.FlagsAgree) : d.swap.FlagsAgree := ⟨h.toA, h.toB⟩

/-- The party `a` moves on. -/
theorem FlagsAgree.advance (h : d.FlagsAgree) {s : Session} {toA : List Message}
    (hd : d.advance s toA = some d') (hannounces : d.a.peer.Announces s.peer)
    (htoA : Mirror.Agrees Flags.apply s.peer.copiedFlags toA d.b.peer.ownFlags) :
    d'.FlagsAgree := by
  unfold Duplex.advance at hd
  split_ifs at hd
  cases hd
  obtain ⟨new, hwire, hagrees⟩ := hannounces
  refine ⟨?_, htoA⟩
  dsimp only
  rw [hwire, List.drop_left]
  exact h.toB.send hagrees

theorem connected_of_advance {s : Session} {toA : List Message}
    (hd : d.advance s toA = some d') : s.peer.connected = true := by
  unfold Duplex.advance at hd
  split_ifs at hd with hc
  exact hc

theorem FlagsAgree.stepA (h : d.FlagsAgree) {act : DuplexAction}
    (hd : d.stepA sha1 human act = some d') : d'.FlagsAgree := by
  cases act with
  | receive =>
    have htoA := h.toA
    unfold Duplex.stepA at hd
    cases hq : d.toA with
    | nil => simp [hq] at hd
    | cons m rest =>
      rw [hq] at htoA
      simp only [hq] at hd
      cases hm : m.type with
      | none =>
        simp only [hm] at hd
        refine h.advance hd (.refl _) ?_
        have hsame : d.a.peer.copiedFlags.apply m = d.a.peer.copiedFlags := by
          cases m <;> cases hm
          rfl
        exact hsame ▸ htoA.receive
      | some type =>
        simp only [hm] at hd
        obtain ⟨s, hs, hadv⟩ := Option.bind_eq_some_iff.1 hd
        obtain ⟨hannounces, hcopy⟩ := handleMessage_flags hm hs (connected_of_advance hadv)
        refine h.advance hadv hannounces ?_
        rw [hcopy]
        exact htoA.receive
  | send o =>
    unfold Duplex.stepA at hd
    obtain ⟨s, hs, hadv⟩ := Option.bind_eq_some_iff.1 hd
    obtain ⟨hannounces, hcopy⟩ := OwnSend.announces hs (connected_of_advance hadv)
    refine h.advance hadv hannounces ?_
    rw [hcopy]
    exact h.toA

theorem FlagsAgree.step (h : d.FlagsAgree) {act : Bool × DuplexAction}
    (hd : d.step sha1 human act = some d') : d'.FlagsAgree := by
  obtain ⟨side, act⟩ := act
  cases side with
  | true => exact h.stepA hd
  | false =>
    obtain ⟨e, he, rfl⟩ := Option.map_eq_some_iff.1 hd
    exact (h.swap.stepA he).swap

/-- **Choke and interest flags agree.** In every state that two peers reach from their constructors,
applying the messages in flight, in order, to the copies of either side gives the flags of the
other. -/
theorem flags_agree (ta tb : Torrent) (ipA ipB : UInt32) (heapA heapB : ℤ → UInt8)
    {acts : List (Bool × DuplexAction)}
    (h : Runs.run (step sha1 human) (start ta tb ipA ipB heapA heapB) acts = some d) :
    d.toB.foldl Flags.apply ⟨d.b.peer.peerChoked, d.b.peer.peerInterested⟩ =
        ⟨d.a.peer.amChoked, d.a.peer.amInterested⟩ ∧
      d.toA.foldl Flags.apply ⟨d.a.peer.peerChoked, d.a.peer.peerInterested⟩ =
        ⟨d.b.peer.amChoked, d.b.peer.amInterested⟩ := by
  have hstart : (start ta tb ipA ipB heapA heapB).FlagsAgree := ⟨rfl, rfl⟩
  have hinv : d.FlagsAgree :=
    Runs.inv_run_of_step (fun _ _ _ hd hs => FlagsAgree.step hd hs) hstart h
  exact ⟨hinv.toB, hinv.toA⟩

/-- The party `b` sends a bitfield, `a` chooses a piece of it, and `b` answers the Interested with an
UnChoke that is still in flight at the end. -/
def oneExchange : List (Bool × DuplexAction) :=
  [(false, .send (.bitfield [128])), (true, .receive), (false, .receive)]

theorem flags_agree_oneExchange : ∃ d, Runs.run (step (fun _ _ => 0) fun _ => "")
      (start (onePiece 2) twoBytesDone 1 2 (fun _ => 0) fun _ => 0) oneExchange = some d ∧
    d.toA = [.unchoke] ∧
    d.toB.foldl Flags.apply ⟨d.b.peer.peerChoked, d.b.peer.peerInterested⟩ =
        ⟨d.a.peer.amChoked, d.a.peer.amInterested⟩ ∧
      d.toA.foldl Flags.apply ⟨d.a.peer.peerChoked, d.a.peer.peerInterested⟩ =
        ⟨d.b.peer.amChoked, d.b.peer.amInterested⟩ := by
  have hany : ((Runs.run (step (fun _ _ => 0) fun _ => "")
      (start (onePiece 2) twoBytesDone 1 2 (fun _ => 0) fun _ => 0) oneExchange).any
      fun d => d.toA = [.unchoke]) = true := by decide +kernel
  obtain ⟨d, hd, htoA⟩ := (Option.any_eq_true _ _).1 hany
  exact ⟨d, hd, of_decide_eq_true htoA, flags_agree _ _ _ _ _ _ hd⟩

end Duplex

end CTorrent
