import CTorrent.FileManager.NextPiece
import CTorrent.Peer.Swarm

/-!
# One entry for each piece

`handleMessage` puts a block into the first entry of `m_queue` with its index. The index of a new
entry comes from `get_next_piece`, which knows the bits and priorities of the torrent and the
bitset of the peer, but not its queue.

* `Session.OneEntry`: the entry that is found is the only one;
* `Session.Unqueued`: the piece that comes next is not in the queue of the peer;
* `requestPiece_queue`: what `Torrent::requestPiece` adds to the queue;
* `oneEntry_iff`: the runs in which no queue ever has two entries for a piece.
-/

namespace CTorrent

open Peer

/-- No two entries of the queue have the same index, and the entry that a block goes to is the only
one with its index. -/
structure Session.OneEntry (s : Session) : Prop where
  nodup : (s.peer.queue.map Piece.index).Nodup
  only : ∀ payload before piece behind, Delivers s payload before piece behind →
    ∀ p ∈ before ++ behind, p.index ≠ piece.index

/-- The piece that comes next for the peer is not in its queue. -/
def Session.Unqueued (s : Session) : Prop :=
  ∀ i, s.torrent.fileManager.Next s.peer.bitset.test i → i ≠ 2 ^ 64 - 1 →
    i % 2 ^ 32 ∉ s.peer.queue.map Piece.index

/-- The entry of a block is the only one, for every peer. -/
def Swarm.OneEntry (s : Swarm) : Prop :=
  ∀ p ∈ s.world.peers, Session.OneEntry ⟨s.world.torrent, p⟩

/-- Where a handler chooses a piece, behind a bitfield or behind an accepted piece, the one that
comes next is not in the queue of the peer. -/
def Swarm.Unqueued (s : Swarm) : SwarmAction → Prop
  | .message id type payload => type.toNat = 5 → payload ≠ [] →
      s.world.torrent.isFinished = false → ∀ p, s.world.peers[id]? = some p →
        Session.Unqueued ⟨s.world.torrent, { p with
          bitset := receiveBits payload s.fm.pieces.length p.bitset }⟩
  | .select => s.world.torrent.isFinished = false → ∀ c p, s.callAt .selecting = some c →
      s.world.peers[c.id]? = some p → Session.Unqueued ⟨s.world.torrent, p⟩
  | _ => True

namespace Peer

variable {sha1 : Bytes → Sha1sum} {human : ℕ → String} {s s' : Session} {type : UInt8}
  {payload : Bytes}

theorem oneEntry_of_nodup (h : (s.peer.queue.map Piece.index).Nodup) : s.OneEntry where
  nodup := h
  only := by
    intro payload before piece behind hd p hp
    rw [hd.queue, List.map_append, List.map_cons, List.nodup_middle, List.nodup_cons] at h
    rintro heq
    refine h.1 ?_
    rw [← heq, ← List.map_append]
    exact List.mem_map_of_mem hp

/-! ### What is chosen -/

/-- **What `Torrent::requestPiece` adds to the queue.** -/
theorem requestPiece_queue (h : Torrent.requestPiece s = some s') :
    (∃ i, s.torrent.fileManager.Next s.peer.bitset.test i ∧ i ≠ 2 ^ 64 - 1 ∧
        s'.peer.queue.map Piece.index = s.peer.queue.map Piece.index ++ [i % 2 ^ 32]) ∨
      ((∀ i, s.torrent.fileManager.Next s.peer.bitset.test i → i = 2 ^ 64 - 1) ∧
        s'.peer.queue = s.peer.queue) := by
  have hnext := s.torrent.fileManager.getNextPiece_fst s.peer.bitset.test
  rw [Torrent.requestPiece] at h
  dsimp only at h
  split_ifs at h with hindex
  · refine Or.inl ⟨_, ?_, hindex, ?_⟩
    · exact hnext.resolve_right fun hnone => hindex hnone.2
    · rw [sendPieceRequest_eq] at h
      obtain ⟨length, -, rfl⟩ := Option.map_eq_some_iff.1 h
      simp [Piece.new]
  · cases h
    rw [not_not] at hindex
    refine Or.inr ⟨fun i hi => ?_, rfl⟩
    rcases hnext with hnext | ⟨hnone, -⟩
    · rw [hi.unique hnext, hindex]
    · exact absurd hi (hnone i)

theorem nodup_requestPiece (hnd : (s.peer.queue.map Piece.index).Nodup)
    (h : Torrent.requestPiece s = some s') :
    s.Unqueued ↔ (s'.peer.queue.map Piece.index).Nodup := by
  rcases requestPiece_queue h with ⟨i, hi, hne, hqueue⟩ | ⟨hnone, hqueue⟩
  · rw [hqueue, List.nodup_append_comm, List.singleton_append, List.nodup_cons]
    constructor
    · exact fun hun => ⟨hun i hi hne, hnd⟩
    · intro hnew j hj _
      rw [hj.unique hi]
      exact hnew.1
  · rw [hqueue]
    exact iff_of_true (fun i hi hne => absurd (hnone i hi) hne) hnd

/-! ### Messages -/

/-- A bitfield chooses a piece unless the torrent is finished. -/
theorem nodup_bitfield (h5 : type.toNat = 5) (hnd : (s.peer.queue.map Piece.index).Nodup)
    (h : handleMessage sha1 human s type payload = some s') :
    (payload ≠ [] → s.torrent.isFinished = false → Session.Unqueued ⟨s.torrent, { s.peer with
        bitset := receiveBits payload s.torrent.fileManager.pieces.length s.peer.bitset }⟩) ↔
      (s'.peer.queue.map Piece.index).Nodup := by
  rw [handleMessage] at h
  simp only [h5] at h
  rw [handleBitfield] at h
  dsimp only at h
  split_ifs at h with hempty hfinished
  · cases h
    have hnil : payload = [] := List.length_eq_zero_iff.1 (by omega)
    exact iff_of_true (fun hne => absurd hnil hne) hnd
  · have hne : payload ≠ [] := fun hnil => hempty (by rw [hnil]; decide)
    rw [← nodup_requestPiece (by exact hnd) h]
    have hunfinished : s.torrent.isFinished = false := by
      rw [Bool.not_eq_true'] at hfinished
      exact hfinished
    exact ⟨fun hun => hun hne hunfinished, fun hun _ _ => hun⟩
  · cases h
    have hfin : s.torrent.isFinished = true := by
      rw [Bool.not_eq_true', Bool.not_eq_false] at hfinished
      exact hfinished
    exact iff_of_true (fun _ hun => by rw [hfin] at hun; cases hun) hnd

/-- Any other message that completes no piece adds nothing. -/
theorem sublist_message (h5 : type.toNat ≠ 5) (hnone : lastBlock s type payload = none)
    (h : handleMessage sha1 human s type payload = some s') :
    (s'.peer.queue.map Piece.index).Sublist (s.peer.queue.map Piece.index) := by
  have hout := handleMessage_outcome h
  have hqueue : s.peer.queue = (receive s type payload).peer.queue := rfl
  have hlast := more_of_lastBlock hnone
  rw [hqueue]
  generalize receive s type payload = r at hout hlast
  generalize type.toNat = n at hout hlast h5
  cases hout with
  | interested _ =>
    dsimp only
    split_ifs <;> exact .refl _
  | bitfield _ _ => exact absurd rfl h5
  | done hd _ _ _ =>
    rw [hd.queue]
    simp
  | store hd _ _ =>
    rw [hd.queue]
    simp [Piece.store]
  | finish hd hdone hend _ => exact absurd hend (hlast _ _ _ hd rfl hdone)
  | _ => exact .refl _

end Peer

/-! ### Every step -/

/-- Every queue of `w'` is empty or one of `w`. -/
def World.KeepsQueues (w w' : World) : Prop :=
  ∀ p' ∈ w'.peers, p'.queue = [] ∨ ∃ p ∈ w.peers, p'.queue = p.queue

namespace World

variable {sha1 : Bytes → Sha1sum} {human : ℕ → String} {w w' : World}

theorem keepsQueues_of_peers (h : w'.peers = w.peers) : KeepsQueues w w' :=
  fun p hp => Or.inr ⟨p, h ▸ hp, rfl⟩

theorem keepsQueues_set {id : ℕ} {p q : Peer} (hp : w.peers[id]? = some p)
    (hpeers : w'.peers = w.peers.set id q) (hq : q.queue = p.queue) : KeepsQueues w w' := by
  intro p' hp'
  rw [hpeers] at hp'
  rcases List.mem_or_eq_of_mem_set hp' with hmem | rfl
  · exact Or.inr ⟨p', hmem, rfl⟩
  · exact Or.inr ⟨p, List.mem_of_getElem? hp, hq⟩

theorem keepsQueues_register {t : Torrent} {ip : UInt32} {heap : ℤ → UInt8} {stack : ℕ → UInt8} :
    KeepsQueues w (w.register t ip heap stack) := by
  intro p hp
  rcases List.mem_append.1 hp with hp | hp
  · exact Or.inr ⟨p, hp, rfl⟩
  · rw [List.mem_singleton.1 hp, Torrent.sendBitfield]
    refine Or.inl ?_
    split_ifs <;> rfl

theorem keepsQueues_other {a : Action} (ha : a.isOther = true) (h : w.step sha1 human a = some w') :
    KeepsQueues w w' := by
  cases a with
  | message id type payload => cases ha
  | fileManager fm => cases ha
  | connect ip heap stack =>
    cases h
    exact keepsQueues_register
  | accept ip heap stack =>
    cases h
    exact keepsQueues_register
  | sendChoke id =>
    simp only [step] at h
    obtain ⟨p, s, hp, -, hs, rfl⟩ := atPeer_eq_some h
    cases hs
    exact keepsQueues_set hp rfl rfl
  | handleError id errmsg =>
    simp only [step] at h
    obtain ⟨p, s, hp, -, hs, rfl⟩ := atPeer_eq_some h
    cases hs
    exact keepsQueues_set hp rfl rfl
  | readComplete block =>
    simp only [step] at h
    split at h
    · cases h
    · split_ifs at h
      rcases onPieceReadComplete_eq_some h with ⟨-, hpeers⟩ | ⟨id, p, -, hp, hpeers⟩
      · exact keepsQueues_of_peers hpeers
      · exact keepsQueues_set hp hpeers rfl

theorem queue_sendHave (p : Peer) (index : ℕ) : (p.sendHave index).queue = p.queue := by
  unfold Peer.sendHave
  split_ifs <;> rfl

theorem keepsQueues_announce {t : Torrent} (from_ index : ℕ) :
    KeepsQueues w ⟨t, w.announce from_ index⟩ := by
  intro p' hp'
  have hmem : p'.queue ∈ w.peers.map Peer.queue := by
    rw [← w.map_announce from_ index Peer.queue fun p => queue_sendHave p index]
    exact List.mem_map_of_mem hp'
  obtain ⟨p, hp, heq⟩ := List.mem_map.1 hmem
  exact Or.inr ⟨p, hp, heq.symm⟩

end World

namespace Swarm

variable {sha1 : Bytes → Sha1sum} {human : ℕ → String} {s s' : Swarm}

theorem oneEntry_iff_nodup :
    s.OneEntry ↔ ∀ p ∈ s.world.peers, (p.queue.map Piece.index).Nodup :=
  ⟨fun h p hp => (h p hp).nodup, fun h p hp => oneEntry_of_nodup (h p hp)⟩

theorem oneEntry_of_keeps (h : s.OneEntry) (hkeeps : World.KeepsQueues s.world s'.world) :
    s'.OneEntry := by
  rw [oneEntry_iff_nodup] at h ⊢
  intro p' hp'
  rcases hkeeps p' hp' with hnil | ⟨p, hp, heq⟩
  · rw [hnil]
    exact List.nodup_nil
  · rw [heq]
    exact h p hp

/-- A step that changes the queue of one peer. -/
theorem oneEntry_set (h : s.OneEntry) {id : ℕ} {p q : Peer} (hp : s.world.peers[id]? = some p)
    (hpeers : s'.world.peers = s.world.peers.set id q) :
    s'.OneEntry ↔ (q.queue.map Piece.index).Nodup := by
  rw [oneEntry_iff_nodup] at h ⊢
  rw [hpeers]
  constructor
  · exact fun hall => hall q (List.mem_set (List.getElem?_eq_some_iff.1 hp).1 q)
  · intro hq p' hp'
    rcases List.mem_or_eq_of_mem_set hp' with hmem | rfl
    · exact h p' hmem
    · exact hq

/-- The steps that choose no piece. -/
theorem keepsQueues_step {a : SwarmAction} (ha : (∀ id type payload, a ≠ .message id type payload) ∧
    a ≠ .select) (hs : s.step sha1 human a = some s') : World.KeepsQueues s.world s'.world := by
  cases a with
  | message id type payload => exact absurd rfl (ha.1 id type payload)
  | select => exact absurd rfl ha.2
  | other a =>
    obtain ⟨w, hother, hw, rfl⟩ := step_other hs
    exact World.keepsQueues_other hother hw
  | check =>
    obtain ⟨c, p, ok, fm, -, hp, -, ⟨-, rfl⟩ | ⟨-, rfl⟩⟩ := step_check hs
    · exact World.keepsQueues_set hp rfl rfl
    · exact World.keepsQueues_of_peers rfl
  | push =>
    obtain ⟨c, w, -, -, rfl⟩ := step_push hs
    exact World.keepsQueues_of_peers rfl
  | work wrote =>
    obtain ⟨w, ws, fm, size, -, -, -, rfl⟩ := step_work hs
    exact World.keepsQueues_announce (w := s.world.withFileManager fm) _ _

/-- What a message does to the queues. -/
theorem unqueued_message {id : ℕ} {type : UInt8} {payload : Bytes} (h : s.OneEntry)
    (hs : s.step sha1 human (.message id type payload) = some s') :
    s.Unqueued (.message id type payload) ↔ s'.OneEntry := by
  obtain ⟨p, -, hp, -, hend⟩ := step_message hs
  have hnd := (h p (List.mem_of_getElem? hp)).nodup
  rcases hend with ⟨r, hnone, hr, rfl⟩ | ⟨k, piece, hlast, rfl⟩
  · rw [oneEntry_set h hp rfl]
    by_cases h5 : type.toNat = 5
    · rw [← nodup_bitfield h5 hnd hr]
      constructor
      · exact fun hun hne hunfinished => hun h5 hne hunfinished p hp
      · intro hun _ hne hunfinished q hq
        obtain rfl := Option.some.inj (hp.symm.trans hq)
        exact hun hne hunfinished
    · exact iff_of_true (fun h5' => absurd h5' h5) (hnd.sublist (sublist_message h5 hnone hr))
  · rw [oneEntry_set h hp rfl]
    refine iff_of_true (fun h5 => ?_) ?_
    · exact absurd ((lastBlock_eq_some hlast).1.symm.trans h5) (by decide)
    · exact hnd.sublist ((List.eraseIdx_sublist p.queue k).map Piece.index)

/-- What the end of a handler does to the queues. -/
theorem unqueued_select (h : s.OneEntry) (hs : s.step sha1 human .select = some s') :
    s.Unqueued .select ↔ s'.OneEntry := by
  obtain ⟨c, p, r, hc, hp, hr, -, rfl⟩ := step_select hs
  have hnd := (h p (List.mem_of_getElem? hp)).nodup
  rw [oneEntry_set h hp rfl]
  split_ifs at hr with hfinished
  · rw [Bool.not_eq_true'] at hfinished
    rw [← nodup_requestPiece (by exact hnd) hr]
    constructor
    · exact fun hun => hun hfinished c p hc hp
    · intro hun _ c' p' hc' hp'
      obtain rfl := Option.some.inj (hc.symm.trans hc')
      obtain rfl := Option.some.inj (hp.symm.trans hp')
      exact hun
  · cases hr
    rw [Bool.not_eq_true', Bool.not_eq_false] at hfinished
    exact iff_of_true (fun hun => absurd (hfinished.symm.trans hun) (by decide)) hnd

/-- **One queue entry for each piece.** In a run of a torrent, whatever its peers send and whichever
pieces are chosen for them, no queue ever has two entries for one piece exactly if the piece that
comes next is not in the queue of the peer whenever one is chosen. -/
theorem oneEntry_iff (sha1 : Bytes → Sha1sum) (human : ℕ → String) (fm : FileManager)
    (as : List SwarmAction) (hrun : (Runs.run (step sha1 human) (start fm) as).isSome = true) :
    Runs.Always (step sha1 human) OneEntry (start fm) as ↔
      Runs.Meets (step sha1 human) Unqueued (start fm) as := by
  have hstart : (start fm).OneEntry := fun p hp => by cases hp
  refine Runs.always_iff_meets (I := fun _ => True) (fun _ _ _ _ _ => trivial) ?_ trivial hstart hrun
  intro s a s' _ h hs
  by_cases hmessage : ∃ id type payload, a = .message id type payload
  · obtain ⟨id, type, payload, rfl⟩ := hmessage
    exact unqueued_message h hs
  by_cases hselect : a = .select
  · rw [hselect] at hs ⊢
    exact unqueued_select h hs
  have hkeeps := keepsQueues_step ⟨fun id type payload ha => hmessage ⟨id, type, payload, ha⟩,
    hselect⟩ hs
  refine iff_of_true ?_ (oneEntry_of_keeps h hkeeps)
  cases a with
  | message id type payload => exact absurd ⟨id, type, payload, rfl⟩ hmessage
  | select => exact absurd rfl hselect
  | _ => trivial

/-- A peer that has the one piece says so. -/
def oneBitfield : List SwarmAction :=
  [.other (.accept 1 (fun _ => 0) (fun _ => 0)), .message 0 5 [128]]

theorem oneEntry_iff_oneBitfield :
    Runs.Always (step (fun _ _ => 0) fun _ => "") OneEntry (start (onePiece 2).fileManager)
        oneBitfield ↔
      Runs.Meets (step (fun _ _ => 0) fun _ => "") Unqueued (start (onePiece 2).fileManager)
        oneBitfield :=
  oneEntry_iff _ _ _ _ (by decide +kernel)

/-- It says so twice, and the only piece is queued twice. -/
theorem not_oneEntry_twoBitfields : ∃ s,
    Runs.run (step (fun _ _ => 0) fun _ => "") (start (onePiece 2).fileManager)
      (oneBitfield ++ [.message 0 5 [128]]) = some s ∧ ¬s.OneEntry := by
  have hany : ((Runs.run (step (fun _ _ => 0) fun _ => "") (start (onePiece 2).fileManager)
      (oneBitfield ++ [.message 0 5 [128]])).any fun s =>
        ∃ p ∈ s.world.peers, p.queue.map Piece.index = [0, 0]) = true := by decide +kernel
  obtain ⟨s, hs, hp⟩ := (Option.any_eq_true _ _).1 hany
  obtain ⟨p, hp, hqueue⟩ := of_decide_eq_true hp
  refine ⟨s, hs, fun h => ?_⟩
  have hnd := (h p hp).nodup
  rw [hqueue] at hnd
  exact absurd hnd (by decide)

end Swarm

end CTorrent
