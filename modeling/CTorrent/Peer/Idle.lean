import CTorrent.Peer.Bitfield
import CTorrent.Peer.OneEntry
import CTorrent.Peer.Requested

/-!
# Idle peers

A handler that returns leaves something in `m_queue`, or it should have nothing left to ask the peer
for. Only a bitfield and the end of an accepted piece call `Torrent::requestPiece`; a Have, a block
of a piece that has been completed meanwhile, and a refused piece do not.

* `Torrent.Wants`: the torrent is unfinished, and the peer has a piece that nobody has delivered;
* `Swarm.Busy`: the peer that was served is not idle;
* `Swarm.Provides`: an entry is left in its queue, or the handler asks for another piece;
* `busy_iff`: the runs in which no useful peer is left idle.
-/

namespace CTorrent

open Peer

/-- The torrent is unfinished, and among the pieces with a bit is one that is neither completed nor
pending. -/
def Torrent.Wants (t : Torrent) (bits : Bitset) : Prop :=
  t.isFinished = false ∧ ∃ i < t.fileManager.pieces.length, t.fileManager.Wanted bits.test i

/-- There is a piece that comes next for the peer. -/
def Session.HasNext (s : Session) : Prop :=
  ∃ i, s.torrent.fileManager.Next s.peer.bitset.test i ∧ i ≠ 2 ^ 64 - 1

/-- What a message of the given type makes of the bitset of a peer. -/
def Peer.told (p : Peer) (totalPieces : ℕ) (payload : Bytes) : ℕ → Bitset
  | 4 => if indexOf payload < p.bitset.size then p.bitset.set (indexOf payload) else p.bitset
  | 5 => receiveBits payload totalPieces p.bitset
  | _ => p.bitset

namespace Swarm

/-- The peer whose handler returns with the step from `s` to `s'`. -/
def served (s s' : Swarm) : SwarmAction → Option ℕ
  | .message id _ _ => if s'.call.isNone then some id else none
  | .check => if s'.call.isNone then s.call.map Call.id else none
  | .select => s.call.map Call.id
  | _ => none

/-- A peer whose handler returns without `handleError` has an entry in its queue, if it has a piece
that we want. -/
def Busy (s : Swarm) (a : SwarmAction) (s' : Swarm) : Prop :=
  ∀ id p, s.served s' a = some id → s'.world.peers[id]? = some p → p.connected = true →
    s'.world.torrent.Wants p.bitset → p.queue ≠ []

/-- If the peer has a piece that we want, then an entry is left in its queue, or the handler asks for
a piece and there is one that comes next. -/
def Provides (sha1 : Bytes → Sha1sum) (s : Swarm) : SwarmAction → Prop
  | .message id type payload => ∀ p, s.world.peers[id]? = some p →
      let t := s.world.torrent
      let bits := p.told s.fm.pieces.length payload type.toNat
      lastBlock ⟨t, p⟩ type payload = none → ¬Rejects ⟨t, p⟩ payload type.toNat → t.Wants bits →
        Tracked.keep p.queue (takenAt ⟨t, p⟩ payload type.toNat) ≠ [] ∨
          type.toNat = 5 ∧ Session.HasNext ⟨t, { p with bitset := bits }⟩
  | .check => ∀ c p, s.callAt .checking = some c → s.world.peers[c.id]? = some p →
      p.connected = true →
        ¬(c.piece.index < s.fm.pieces.length ∧
          s.fm.isWriteEligible sha1 c.piece.index c.piece.data = some true) →
        s.world.torrent.Wants p.bitset → p.queue ≠ []
  | .select => ∀ c p, s.callAt .selecting = some c → s.world.peers[c.id]? = some p →
      p.connected = true → s.world.torrent.Wants p.bitset →
        p.queue ≠ [] ∨ Session.HasNext ⟨s.world.torrent, p⟩
  | _ => True

end Swarm

/-! ### What a message leaves -/

/-- Which pieces are wanted depends on the bits and the number of pieces. -/
theorem SameWrites.wants_iff {t t' : Torrent} (h : SameWrites t t') (bits : Bitset) :
    t'.Wants bits ↔ t.Wants bits := by
  simp only [Torrent.Wants, Torrent.isFinished, FileManager.Wanted, h.completed, h.pending,
    h.layout.length]

namespace Peer

variable {sha1 : Bytes → Sha1sum} {human : ℕ → String} {s s' : Session} {type : UInt8}
  {payload : Bytes} {n : ℕ}

theorem Selected.connected (h : Selected s s') : s'.peer.connected = s.peer.connected := by
  obtain ⟨-, hpeer | ⟨index, length, -, -, hpeer⟩⟩ := h.cases <;> rw [hpeer]

/-- A message is rejected, or its handler returns over a connection that stays open. -/
theorem Outcome.connected_iff (h : Outcome sha1 s payload n s') (hc : s.peer.connected = true) :
    s'.peer.connected = true ↔ ¬Rejects s payload n := by
  cases h with
  | error errmsg h => exact iff_of_false Bool.false_ne_true (not_not.2 h)
  | choke h => exact iff_of_true hc (not_not.2 h)
  | unchoke h _ _ => exact iff_of_true hc (not_not.2 h)
  | interested h =>
    refine iff_of_true ?_ (not_not.2 h)
    dsimp only
    split_ifs <;> exact hc
  | notInterested h => exact iff_of_true hc (not_not.2 h)
  | have_ h _ _ => exact iff_of_true hc (not_not.2 h)
  | bitfield h hselect => exact iff_of_true (hselect.connected.trans hc) (Nat.not_lt.2 h)
  | refuse h _ _ => exact iff_of_true hc h
  | grant h _ _ => exact iff_of_true hc h
  | done hd _ _ _ => exact iff_of_true hc hd.not_rejects
  | store hd _ _ => exact iff_of_true hc hd.not_rejects
  | finish hd _ _ hfinish =>
    refine iff_of_true ?_ hd.not_rejects
    obtain ⟨t, -, ⟨rfl, -⟩ | hselect⟩ := finishPiece_cases hfinish
    · exact hc
    · exact hselect.connected.trans hc
  | cancel h => exact iff_of_true hc (not_not.2 h)
  | port h => exact iff_of_true hc (not_not.2 h)
  | unknown hn =>
    refine iff_of_true hc ?_
    unfold Rejects
    split
    all_goals first | omega | exact not_false

theorem Outcome.bitset (h : Outcome sha1 s payload n s') (hc : s'.peer.connected = true) :
    s'.peer.bitset = s.peer.told s.torrent.fileManager.pieces.length payload n := by
  cases h with
  | error errmsg _ => cases hc
  | interested _ =>
    dsimp only
    split_ifs <;> rfl
  | have_ _ bitset hbitset => exact hbitset
  | bitfield _ hselect => exact hselect.bitset
  | finish _ _ _ hfinish =>
    obtain ⟨t, -, ⟨rfl, -⟩ | hselect⟩ := finishPiece_cases hfinish
    · rfl
    · exact hselect.bitset
  | unknown hn =>
    unfold told
    split
    · omega
    · omega
    · rfl
  | _ => rfl

/-- The queue behind a message that is no bitfield and completes no piece. -/
theorem queue_message (h5 : type.toNat ≠ 5) (hnone : lastBlock s type payload = none)
    (h : handleMessage sha1 human s type payload = some s') (hc : s'.peer.connected = true) :
    s'.peer.queue.map Piece.index =
      (Tracked.keep s.peer.queue (takenAt s payload type.toNat)).map Piece.index := by
  have hout := handleMessage_outcome h
  have hreceive : Tracked.keep s.peer.queue (takenAt s payload type.toNat) =
      Tracked.keep (receive s type payload).peer.queue
        (takenAt (receive s type payload) payload type.toNat) := by
    cases type.toNat <;> rfl
  have hlast := more_of_lastBlock hnone
  rw [hreceive, Tracked.map_keep]
  generalize receive s type payload = r at hout hlast ⊢
  generalize type.toNat = n at hout hlast h5 ⊢
  cases hout with
  | error errmsg _ => cases hc
  | interested _ =>
    dsimp only
    split_ifs <;> rfl
  | bitfield _ _ => exact absurd rfl h5
  | done hd hdone _ _ => rw [hd.takenAt, if_pos (Or.inl hdone), hd.keep]
  | store hd hdone hmore =>
    rw [hd.takenAt, if_neg (by simp [hdone, hmore]), hd.queue]
    simp [Piece.store, Tracked.keep]
  | finish hd hdone hend _ => exact absurd hend (hlast _ _ _ hd rfl hdone)
  | unknown hn =>
    have htaken : takenAt s' payload n = none := by
      unfold takenAt
      split
      · omega
      · rfl
    rw [htaken]
    rfl
  | _ => rfl

/-- Choosing a piece leaves the queue empty only if it was, and no piece comes next. -/
theorem queue_ne_nil_of_requestPiece (h : Torrent.requestPiece s = some s') :
    s'.peer.queue ≠ [] ↔ s.peer.queue ≠ [] ∨ s.HasNext := by
  rcases requestPiece_queue h with ⟨i, hi, hne, hqueue⟩ | ⟨hnone, hqueue⟩
  · refine iff_of_true ?_ (Or.inr ⟨i, hi, hne⟩)
    rintro hnil
    rw [hnil] at hqueue
    simp at hqueue
  · rw [hqueue]
    constructor
    · exact Or.inl
    · rintro (hqueue | ⟨i, hi, hne⟩)
      · exact hqueue
      · exact absurd (hnone i hi) hne

/-- The queue behind a bitfield for an unfinished torrent. -/
theorem queue_bitfield (h5 : type.toNat = 5) (h : handleMessage sha1 human s type payload = some s')
    (hc : s'.peer.connected = true) (hfinished : s.torrent.isFinished = false) :
    s'.peer.queue ≠ [] ↔ s.peer.queue ≠ [] ∨ Session.HasNext ⟨s.torrent, { s.peer with
      bitset := receiveBits payload s.torrent.fileManager.pieces.length s.peer.bitset }⟩ := by
  rw [handleMessage] at h
  simp only [h5] at h
  rw [handleBitfield] at h
  dsimp only at h
  split_ifs at h with hempty hunfinished
  · cases h
    cases hc
  · exact queue_ne_nil_of_requestPiece h
  · refine absurd ?_ hunfinished
    rw [Bool.not_eq_true']
    exact hfinished

end Peer

/-- What a message that is not rejected leaves in the queue. -/
theorem Peer.queue_ne_nil {sha1 : Bytes → Sha1sum} {human : ℕ → String} {s s' : Session}
    {type : UInt8} {payload : Bytes} (hnone : lastBlock s type payload = none)
    (h : handleMessage sha1 human s type payload = some s') (hc : s'.peer.connected = true)
    (hfinished : s.torrent.isFinished = false) :
    s'.peer.queue ≠ [] ↔ Tracked.keep s.peer.queue (takenAt s payload type.toNat) ≠ [] ∨
      type.toNat = 5 ∧ Session.HasNext ⟨s.torrent, { s.peer with
        bitset := s.peer.told s.torrent.fileManager.pieces.length payload type.toNat }⟩ := by
  by_cases h5 : type.toNat = 5
  · rw [queue_bitfield h5 h hc hfinished, h5]
    simp only [true_and]
    rfl
  · have hqueue := queue_message h5 hnone h hc
    have hiff : s'.peer.queue ≠ [] ↔
        Tracked.keep s.peer.queue (takenAt s payload type.toNat) ≠ [] := by
      rw [ne_eq, ← List.map_eq_nil_iff, hqueue, List.map_eq_nil_iff]
    rw [hiff]
    exact ⟨Or.inl, fun h => h.resolve_right fun hb => h5 hb.1⟩

/-! ### Every step -/

namespace Swarm

variable {sha1 : Bytes → Sha1sum} {human : ℕ → String} {s s' : Swarm}

/-- A peer is served, and is the one at its position. -/
theorem busy_of_served {a : SwarmAction} {id : ℕ} {p q : Peer}
    (hserved : s.served s' a = some id) (hp : s.world.peers[id]? = some p)
    (hpeers : s'.world.peers = s.world.peers.set id q) :
    s.Busy a s' ↔ (q.connected = true → s'.world.torrent.Wants q.bitset → q.queue ≠ []) := by
  have hq : s'.world.peers[id]? = some q := by
    rw [hpeers, List.getElem?_set_self (List.getElem?_eq_some_iff.1 hp).1]
  constructor
  · exact fun h => h id q hserved hq
  · intro h id' p' hserved' hp'
    obtain rfl := Option.some.inj (hserved.symm.trans hserved')
    obtain rfl := Option.some.inj (hq.symm.trans hp')
    exact h

theorem busy_of_none {a : SwarmAction} (h : s.served s' a = none) : s.Busy a s' := by
  intro id p hserved
  cases h.symm.trans hserved

/-- A message whose handler returns. -/
theorem provides_message {id : ℕ} {type : UInt8} {payload : Bytes}
    (hs : s.step sha1 human (.message id type payload) = some s') :
    s.Provides sha1 (.message id type payload) ↔ s.Busy (.message id type payload) s' := by
  obtain ⟨p, hcall, hp, hc, hend⟩ := step_message hs
  have hone : s.Provides sha1 (.message id type payload) ↔
      (lastBlock ⟨s.world.torrent, p⟩ type payload = none →
        ¬Rejects ⟨s.world.torrent, p⟩ payload type.toNat →
          s.world.torrent.Wants (p.told s.fm.pieces.length payload type.toNat) →
          Tracked.keep p.queue (takenAt ⟨s.world.torrent, p⟩ payload type.toNat) ≠ [] ∨
            type.toNat = 5 ∧ Session.HasNext ⟨s.world.torrent, { p with
              bitset := p.told s.fm.pieces.length payload type.toNat }⟩) := by
    constructor
    · exact fun h => h p hp
    · intro h q hq
      obtain rfl := Option.some.inj (hp.symm.trans hq)
      exact h
  rw [hone]
  rcases hend with ⟨r, hnone, hr, rfl⟩ | ⟨k, piece, hlast, rfl⟩
  · have hserved : s.served { s with world := ⟨r.torrent, s.world.peers.set id r.peer⟩ }
        (.message id type payload) = some id := by
      simp only [served]
      rw [if_pos (by rw [hcall]; rfl)]
    rw [busy_of_served hserved hp rfl]
    have hout := handleMessage_outcome hr
    have hiff := hout.connected_iff hc
    by_cases hrejects : Rejects ⟨s.world.torrent, p⟩ payload type.toNat
    · refine iff_of_true (fun _ hno => absurd hrejects hno) fun hopen => ?_
      exact absurd hrejects (hiff.1 hopen)
    · have hopen := hiff.2 hrejects
      have hwants : r.torrent.Wants r.peer.bitset ↔ s.world.torrent.Wants
          (p.told s.fm.pieces.length payload type.toNat) := by
        rw [hout.bitset hopen]
        exact (SameWrites.of_message hnone hr).wants_iff _
      constructor
      · intro h _ hwant
        have hwant' := hwants.1 hwant
        exact (queue_ne_nil hnone hr hopen hwant'.1).2 (h hnone hrejects hwant')
      · intro h _ _ hwant
        exact (queue_ne_nil hnone hr hopen hwant.1).1 (h hopen (hwants.2 hwant))
  · refine iff_of_true (fun hnone => ?_) (busy_of_none rfl)
    cases hnone.symm.trans hlast

theorem provides_check (hs : s.step sha1 human .check = some s') :
    s.Provides sha1 .check ↔ s.Busy .check s' := by
  obtain ⟨c, p, ok, fm, hc, hp, hw, hend⟩ := step_check hs
  obtain ⟨hok, -, -, hmeta, hpieces, hpending, hcompleted, -⟩ := writeCheck_iff hw
  rcases hend with ⟨rfl, rfl⟩ | ⟨rfl, rfl⟩
  · have hserved : s.served (s.refuse c p fm) .check = some c.id := by
      rw [served, (callAt_eq_some.1 hc).1]
      rfl
    have hwants : (s.refuse c p fm).world.torrent.Wants p.bitset ↔
        s.world.torrent.Wants p.bitset := by
      simp only [Torrent.Wants, Torrent.isFinished, FileManager.Wanted, refuse, hpieces, hpending,
        hcompleted]
      rfl
    rw [busy_of_served hserved hp rfl]
    constructor
    · exact fun h hconnected hwant =>
        h c p hc hp hconnected (fun hall => by cases hok.2 hall) (hwants.1 hwant)
    · intro h c' p' hc' hp' hconnected _ hwant
      obtain rfl := Option.some.inj (hc.symm.trans hc')
      obtain rfl := Option.some.inj (hp.symm.trans hp')
      exact h hconnected (hwants.2 hwant)
  · refine iff_of_true ?_ (busy_of_none rfl)
    intro c' p' hc' _ _ hnot
    obtain rfl := Option.some.inj (hc.symm.trans hc')
    exact absurd (hok.1 rfl) hnot

theorem provides_select (hs : s.step sha1 human .select = some s') :
    s.Provides sha1 .select ↔ s.Busy .select s' := by
  obtain ⟨c, p, r, hc, hp, hr, hselected, rfl⟩ := step_select hs
  have hserved : s.served { s with
      world := ⟨r.torrent, s.world.peers.set c.id r.peer⟩, call := none } .select = some c.id := by
    rw [served, (callAt_eq_some.1 hc).1]
    rfl
  have hwants : r.torrent.Wants r.peer.bitset ↔ s.world.torrent.Wants p.bitset := by
    rw [hselected.bitset]
    exact (SameWrites.of_selected hselected).wants_iff _
  have hqueue : s.world.torrent.Wants p.bitset →
      (r.peer.queue ≠ [] ↔ p.queue ≠ [] ∨ Session.HasNext ⟨s.world.torrent, p⟩) := by
    intro hwant
    rw [hwant.1] at hr
    exact queue_ne_nil_of_requestPiece hr
  rw [busy_of_served hserved hp rfl]
  constructor
  · intro h hconnected hwant
    have hwant' := hwants.1 hwant
    exact (hqueue hwant').2 (h c p hc hp (hselected.connected ▸ hconnected) hwant')
  · intro h c' p' hc' hp' hconnected hwant
    obtain rfl := Option.some.inj (hc.symm.trans hc')
    obtain rfl := Option.some.inj (hp.symm.trans hp')
    exact (hqueue hwant).1 (h (hselected.connected.trans hconnected) (hwants.2 hwant))

/-- **No idle useful peer.** In a run of a torrent, whatever its peers send, every peer that has been
served has an entry in its queue if it has a piece that we want, exactly if at the end of every
handler an entry is left there or the handler asks for a piece and there is one that comes next. -/
theorem busy_iff (sha1 : Bytes → Sha1sum) (human : ℕ → String) (fm : FileManager)
    (as : List SwarmAction) (hrun : (Runs.run (step sha1 human) (start fm) as).isSome = true) :
    Runs.Meets (step sha1 human) (fun s a => ∀ s', s.step sha1 human a = some s' → s.Busy a s')
        (start fm) as ↔
      Runs.Meets (step sha1 human) (Provides sha1) (start fm) as := by
  have hstep : ∀ (s : Swarm) (a : SwarmAction) (s' : Swarm), s.step sha1 human a = some s' →
      (s.Provides sha1 a ↔ s.Busy a s') := by
    intro s a s' hs
    cases a with
    | message id type payload => exact provides_message hs
    | check => exact provides_check hs
    | select => exact provides_select hs
    | _ => exact iff_of_true trivial (busy_of_none rfl)
  refine Runs.meets_congr (I := fun _ => True) (fun _ _ _ _ _ => trivial) ?_ trivial hrun
  intro s a s' _ hs
  rw [hstep s a s' hs]
  constructor
  · exact fun hall => hall s' hs
  · intro hbusy s'' hs''
    cases hs.symm.trans hs''
    exact hbusy

theorem busy_iff_oneBitfield :
    Runs.Meets (step (fun _ _ => 0) fun _ => "")
        (fun s a => ∀ s', s.step (fun _ _ => 0) (fun _ => "") a = some s' → s.Busy a s')
        (start (onePiece 2).fileManager) oneBitfield ↔
      Runs.Meets (step (fun _ _ => 0) fun _ => "") (Provides fun _ _ => 0)
        (start (onePiece 2).fileManager) oneBitfield :=
  busy_iff _ _ _ _ (by decide +kernel)

/-- A peer says in a Have that it has the one piece, and is not asked for it. -/
theorem not_busy_have : ∃ s s',
    Runs.run (step (fun _ _ => 0) fun _ => "") (start (onePiece 2).fileManager)
      [.other (.accept 1 (fun _ => 0) (fun _ => 0))] = some s ∧
    s.step (fun _ _ => 0) (fun _ => "") (.message 0 4 [0, 0, 0, 0]) = some s' ∧
      ¬s.Busy (.message 0 4 [0, 0, 0, 0]) s' := by
  have hany : ((Runs.run (step (fun _ _ => 0) fun _ => "") (start (onePiece 2).fileManager)
      [.other (.accept 1 (fun _ => 0) (fun _ => 0))]).any fun s =>
        (s.step (fun _ _ => 0) (fun _ => "") (.message 0 4 [0, 0, 0, 0])).any fun s' =>
          s'.call.isNone && (s'.world.peers[0]?).any fun p =>
            p.connected && p.queue.isEmpty && !s'.world.torrent.isFinished &&
              (0 < s'.fm.pieces.length && !s'.fm.completedBits.test 0 &&
                !s'.fm.pendingBits.test 0 && p.bitset.test 0)) = true := by decide +kernel
  obtain ⟨s, hs, hany⟩ := (Option.any_eq_true _ _).1 hany
  obtain ⟨s', hs', hany⟩ := (Option.any_eq_true _ _).1 hany
  rw [Bool.and_eq_true] at hany
  obtain ⟨hcall, hany⟩ := hany
  obtain ⟨p, hp, hall⟩ := (Option.any_eq_true _ _).1 hany
  simp only [Bool.and_eq_true, Bool.not_eq_true', List.isEmpty_iff, decide_eq_true_eq] at hall
  obtain ⟨⟨⟨hconnected, hqueue⟩, hfinished⟩, ⟨⟨hlt, hcompleted⟩, hpending⟩, htest⟩ := hall
  refine ⟨s, s', hs, hs', fun h => ?_⟩
  have hserved : s.served s' (.message 0 4 [0, 0, 0, 0]) = some 0 := by
    simp only [served]
    rw [if_pos hcall]
  exact h 0 p hserved hp hconnected
    ⟨hfinished, 0, hlt, hcompleted, hpending, htest⟩ hqueue

end Swarm

end CTorrent
