import CTorrent.Lib.Runs
import CTorrent.Peer.Outcome

/-!
# A connection over a run of events

The state of a peer changes when a message arrives, when the torrent sends something over the
connection, and when the connection fails. Between these events the torrent changes on behalf of
other peers and of the worker, but keeps its metainfo and its number of pieces.

* `Event`, `Session.step`;
* `sameLayout_step`: the lengths of the pieces stay the same;
* `QueueStep`, `step_queue`: what an event does to the queue and to the pieces handed over.
-/

namespace CTorrent

/-- What happens to a connection. -/
inductive Event where
  /-- A message arrives. -/
  | message (type : UInt8) (payload : Bytes)
  /-- `onPieceWriteComplete` announces a piece. -/
  | sendHave (index : ℕ)
  /-- `onPieceReadComplete` delivers a block. -/
  | sendPieceBlock (index begin : ℕ) (block : Bytes)
  /-- The handshake is complete. -/
  | sendBitfield (stack : ℕ → UInt8)
  /-- The connection fails. -/
  | handleError (errmsg : String)
  /-- The torrent has changed. -/
  | torrent (t : Torrent)

section Step

variable (sha1 : Bytes → Sha1sum) (human : ℕ → String)

/-- One event. Messages are read only from a connection that is open. -/
def Session.step (s : Session) : Event → Option Session
  | .message type payload =>
      if s.peer.connected then Peer.handleMessage sha1 human s type payload else none
  | .sendHave index => some { s with peer := s.peer.sendHave index }
  | .sendPieceBlock index begin block =>
      some { s with peer := s.peer.sendPieceBlock index begin block }
  | .sendBitfield stack => some { s with peer := s.torrent.sendBitfield stack s.peer }
  | .handleError errmsg => some (Peer.handleError s errmsg)
  | .torrent t =>
      if t.fileManager.pieces.length = s.torrent.fileManager.pieces.length then
        some { s with torrent := { t with
          fileManager := { t.fileManager with metainfo := s.torrent.fileManager.metainfo } } }
      else none

end Step

namespace Peer

variable {sha1 : Bytes → Sha1sum} {human : ℕ → String} {s s' : Session} {payload : Bytes} {n : ℕ}

/-! ### The layout of the torrent -/

theorem Outcome.sameLayout (h : Outcome sha1 s payload n s') :
    FileManager.SameLayout s.torrent.fileManager s'.torrent.fileManager := by
  cases h with
  | bitfield _ hselect => exact hselect.cases.1
  | refuse _ fm hr => exact FileManager.sameLayout_requestPieceBlock _ hr
  | grant _ fm hr => exact FileManager.sameLayout_requestPieceBlock _ hr
  | finish _ _ _ hfinish =>
    obtain ⟨t, ht, ⟨rfl, -⟩ | hselect⟩ := finishPiece_cases hfinish
    · exact ht
    · exact ht.trans hselect.cases.1
  | _ => exact .refl _

theorem sameLayout_step {e : Event} (h : s.step sha1 human e = some s') :
    FileManager.SameLayout s.torrent.fileManager s'.torrent.fileManager := by
  cases e with
  | message type payload =>
    simp only [Session.step] at h
    split_ifs at h
    exact (handleMessage_outcome h).sameLayout
  | torrent t =>
    simp only [Session.step] at h
    split_ifs at h with hlength
    cases h
    exact ⟨rfl, hlength⟩
  | _ =>
    cases h
    exact .refl _

theorem sameLayout_run {events : List Event}
    (h : Runs.run (Session.step sha1 human) s events = some s') :
    FileManager.SameLayout s.torrent.fileManager s'.torrent.fileManager :=
  Runs.inv_run_of_step
    (I := fun t => FileManager.SameLayout s.torrent.fileManager t.torrent.fileManager)
    (fun _ _ _ ht hs => ht.trans (sameLayout_step hs)) (.refl _) h

/-! ### No message gets stuck -/

section Total

variable (h : s.torrent.fileManager.metainfo.pieceLength ≠ 0)
include h

theorem isSome_requestPiece (index : ℕ) : (requestPiece s index).isSome = true := by
  unfold requestPiece
  split_ifs
  · rfl
  · rw [Option.isSome_map]
    exact FileManager.isSome_pieceSize h index

theorem isSome_torrent_requestPiece : (Torrent.requestPiece s).isSome = true := by
  obtain ⟨pieces, hfm, -⟩ := s.torrent.fileManager.getNextPiece_frame s.peer.bitset.test
  unfold Torrent.requestPiece
  simp only [hfm]
  split
  · rw [sendPieceRequest_eq, Option.isSome_map]
    exact FileManager.isSome_pieceSize (by exact h) _
  · rfl

theorem isSome_foldlM_requestPiece (pieces : List Piece) :
    (pieces.foldlM (fun s piece => requestPiece s piece.index) s).isSome = true := by
  induction pieces generalizing s with
  | nil => rfl
  | cons piece pieces ih =>
    obtain ⟨s₁, h₁⟩ := Option.isSome_iff_exists.1 (isSome_requestPiece h piece.index)
    rw [List.foldlM_cons, h₁]
    apply ih
    unfold requestPiece at h₁
    split_ifs at h₁
    · cases h₁
      exact h
    · obtain ⟨length, -, rfl⟩ := Option.map_eq_some_iff.1 h₁
      exact h

theorem isSome_finishPiece (piece : Piece) : (finishPiece sha1 s piece).isSome = true := by
  unfold finishPiece Torrent.handlePieceCompleted
  obtain ⟨⟨ok, fm⟩, hw⟩ := Option.isSome_iff_exists.1
    (FileManager.isSome_writePieceBlock sha1 s.torrent.fileManager piece.index s.peer.ip.toNat
      piece.data)
  have hlayout := FileManager.sameLayout_writePieceBlock sha1 _ hw
  simp only [hw, Option.map_some, Option.bind_some]
  cases ok with
  | false => rfl
  | true =>
    simp only [Bool.not_true, Bool.false_eq_true, if_false, if_true]
    split_ifs
    · exact isSome_torrent_requestPiece (hlayout.metainfo ▸ h)
    · rfl

/-- **Every message is handled.** With a piece length other than zero `handleMessage` returns. -/
theorem isSome_handleMessage (type : UInt8) (payload : Bytes) :
    (handleMessage sha1 human s type payload).isSome = true := by
  unfold handleMessage
  simp only
  split
  · unfold handleChoke
    split_ifs <;> rfl
  · unfold handleUnchoke
    split_ifs
    · rfl
    · apply isSome_foldlM_requestPiece
      exact h
  · unfold handleInterested
    split_ifs <;> rfl
  · unfold handleNotInterested
    split_ifs <;> rfl
  · unfold handleHave
    simp only
    split_ifs <;> rfl
  · unfold handleBitfield
    simp only
    split_ifs
    · rfl
    · exact isSome_torrent_requestPiece h
    · rfl
  · unfold handleRequest Torrent.handleRequestBlock
    simp only
    split_ifs
    any_goals rfl
    rw [Option.isSome_map, Option.isSome_map]
    exact FileManager.isSome_requestPieceBlock h _ _ _ _
  · unfold handlePieceBlock
    simp only
    split_ifs
    any_goals rfl
    split
    · rfl
    · split_ifs
      · rfl
      · unfold acceptBlock
        simp only
        split_ifs
        · rw [Option.isSome_map, cancelPiece, Option.isSome_map]
          exact FileManager.isSome_pieceSize h _
        · apply isSome_finishPiece
          exact h
        · rfl
  · unfold handleCancel
    simp only
    split_ifs <;> rfl
  · unfold handlePort
    split_ifs <;> rfl
  · rfl

end Total

/-! ### The queue -/

/-- The queue `q`, with a new piece at its end if one was chosen. -/
def Grown (s : Session) (q q' : List Piece) : Prop :=
  q' = q ∨ ∃ index length, index < 2 ^ 32 ∧
    s.torrent.fileManager.pieceSize index = some length ∧ q' = q ++ [Piece.new index length]

/-- What a message of the given type makes of the queue and of the pieces handed over. -/
inductive QueueStep (s : Session) (payload : Bytes) : ℕ → List Piece → List Piece → Prop
  | keep {n : ℕ} {queue : List Piece}
      (hno : n = 7 → ∀ before piece behind, ¬ Delivers s payload before piece behind)
      (hqueue : Grown s s.peer.queue queue) : QueueStep s payload n queue s.peer.handed
  | done {before behind : List Piece} {piece : Piece} (h : Delivers s payload before piece behind)
      (hdone : s.torrent.fileManager.pieceDone piece.index = true) :
      QueueStep s payload 7 (before ++ behind) s.peer.handed
  | store {before behind : List Piece} {piece : Piece} (h : Delivers s payload before piece behind)
      (hdone : s.torrent.fileManager.pieceDone piece.index = false)
      (hmore : piece.currentBlocks + 1 ≠ piece.numBlocks) :
      QueueStep s payload 7
        (before ++ piece.store (slotOf payload) (payload.drop 8) :: behind) s.peer.handed
  | finish {before behind queue : List Piece} {piece : Piece}
      (h : Delivers s payload before piece behind)
      (hdone : s.torrent.fileManager.pieceDone piece.index = false)
      (hlast : piece.currentBlocks + 1 = piece.numBlocks)
      (hqueue : Grown s (before ++ behind) queue) :
      QueueStep s payload 7 queue
        (s.peer.handed ++ [piece.store (slotOf payload) (payload.drop 8)])

theorem Delivers.find? {before behind : List Piece} {piece : Piece}
    (h : Delivers s payload before piece behind) :
    s.peer.queue.find? (fun p => p.index = indexOf payload) = some piece := by
  rw [List.find?_eq_some_iff_append]
  refine ⟨by simpa using h.index, before, behind, h.queue, ?_⟩
  simpa using h.first

theorem Delivers.not_rejects {before behind : List Piece} {piece : Piece}
    (h : Delivers s payload before piece behind) : ¬ Rejects s payload 7 := by
  rintro (h9 | hle | hslot)
  · exact absurd h.size (by omega)
  · exact absurd h.le (by omega)
  · exact absurd h.slot (Nat.not_lt.2 (hslot piece h.find?))

theorem Delivers.mem {before behind : List Piece} {piece : Piece}
    (h : Delivers s payload before piece behind) : piece ∈ s.peer.queue := by
  rw [h.queue]
  exact List.mem_append_right _ List.mem_cons_self

theorem Delivers.mem_of_rest {before behind : List Piece} {piece p : Piece}
    (h : Delivers s payload before piece behind) (hp : p ∈ before ++ behind) :
    p ∈ s.peer.queue := by
  rw [h.queue]
  rcases List.mem_append.1 hp with hp | hp
  · exact List.mem_append_left _ hp
  · exact List.mem_append_right _ (List.mem_cons_of_mem _ hp)

/-- The piece for a block is unique. -/
theorem Delivers.unique {before behind before' behind' : List Piece} {piece piece' : Piece}
    (h : Delivers s payload before piece behind) (h' : Delivers s payload before' piece' behind') :
    piece' = piece :=
  Option.some.inj (h'.find?.symm.trans h.find?)

theorem Selected.grown (h : Selected s s') :
    Grown s s.peer.queue s'.peer.queue ∧ s'.peer.handed = s.peer.handed := by
  obtain ⟨-, hpeer | ⟨index, length, hi, hl, hpeer⟩⟩ := h.cases
  · rw [hpeer]
    exact ⟨Or.inl rfl, rfl⟩
  · rw [hpeer]
    exact ⟨Or.inr ⟨index, length, hi, hl, rfl⟩, rfl⟩

theorem Outcome.queueStep (h : Outcome sha1 s payload n s') :
    QueueStep s payload n s'.peer.queue s'.peer.handed := by
  cases h with
  | error errmsg h =>
    refine .keep ?_ (Or.inl rfl)
    rintro rfl before piece behind hd
    exact hd.not_rejects h
  | interested _ =>
    dsimp only
    split_ifs <;> exact .keep (fun h => by cases h) (Or.inl rfl)
  | bitfield _ hselect =>
    obtain ⟨hgrown, hhanded⟩ := hselect.grown
    rw [hhanded]
    exact .keep (fun h => by cases h) hgrown
  | done h hdone length hlength => exact .done h hdone
  | store h hdone hmore => exact .store h hdone hmore
  | finish h hdone hlast hfinish =>
    obtain ⟨t, ht, ⟨rfl, -⟩ | hselect⟩ := finishPiece_cases hfinish
    · exact .finish h hdone hlast (Or.inl rfl)
    · obtain ⟨hgrown, hhanded⟩ := hselect.grown
      rw [hhanded]
      refine .finish h hdone hlast ?_
      unfold Grown at hgrown ⊢
      rwa [ht.pieceSize_eq] at hgrown
  | unknown hn => exact .keep (fun h => by omega) (Or.inl rfl)
  | _ => exact .keep (fun h => by cases h) (Or.inl rfl)

theorem Delivers.of_queue {before behind : List Piece} {piece : Piece}
    (h : Delivers s payload before piece behind) (hq : s'.peer.queue = s.peer.queue) :
    Delivers s' payload before piece behind :=
  ⟨h.size, h.le, hq.trans h.queue, h.first, h.index, h.slot⟩

theorem QueueStep.of_receive {type : UInt8} {queue handed : List Piece}
    (h : QueueStep (receive s type payload) payload n queue handed) :
    QueueStep s payload n queue handed := by
  cases h with
  | keep hno hqueue =>
    exact .keep (fun hn before piece behind hd => hno hn before piece behind (hd.of_queue rfl)) hqueue
  | done h hdone => exact .done (h.of_queue rfl) hdone
  | store h hdone hmore => exact .store (h.of_queue rfl) hdone hmore
  | finish h hdone hlast hqueue => exact .finish (h.of_queue rfl) hdone hlast hqueue

/-- An event other than a message leaves the queue and the pieces handed over alone. -/
theorem step_queue {e : Event} (h : s.step sha1 human e = some s') :
    (∃ type payload, e = .message type payload ∧
      QueueStep s payload type.toNat s'.peer.queue s'.peer.handed) ∨
    ((∀ type payload, e ≠ .message type payload) ∧
      s'.peer.queue = s.peer.queue ∧ s'.peer.handed = s.peer.handed) := by
  cases e with
  | message type payload =>
    simp only [Session.step] at h
    split_ifs at h
    exact Or.inl ⟨type, payload, rfl, (handleMessage_outcome h).queueStep.of_receive⟩
  | torrent t =>
    simp only [Session.step] at h
    split_ifs at h
    cases h
    exact Or.inr ⟨by simp, rfl, rfl⟩
  | sendHave index =>
    cases h
    refine Or.inr ⟨by simp, ?_⟩
    unfold sendHave
    split_ifs <;> exact ⟨rfl, rfl⟩
  | sendBitfield stack =>
    cases h
    refine Or.inr ⟨by simp, ?_⟩
    unfold Torrent.sendBitfield
    split_ifs <;> exact ⟨rfl, rfl⟩
  | sendPieceBlock index begin block =>
    cases h
    exact Or.inr ⟨by simp, rfl, rfl⟩
  | handleError errmsg =>
    cases h
    exact Or.inr ⟨by simp, rfl, rfl⟩

end Peer

end CTorrent
