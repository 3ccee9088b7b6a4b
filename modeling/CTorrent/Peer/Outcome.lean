import CTorrent.Peer.Handle

/-!
# What a message does

`Outcome` lists the ways through the switch of `handleMessage`, each with its guards and with the
session it leaves. Invariants of a peer are proved by cases on it.

* `Rejects`: the message leads to `handleError`;
* `Delivers`: the message is a block for a slot of a queued piece;
* `Selected`: `Torrent::requestPiece` may have been called at the end;
* `handleMessage_outcome`: every call of `handleMessage` has one of the outcomes.
-/

namespace CTorrent

namespace Peer

/-- The index, begin and length in the payload of a Request or a Cancel. -/
def infoOf (payload : Bytes) : PieceBlockInfo :=
  ⟨(readBE32 payload 0).toNat, (readBE32 payload 4).toNat, (readBE32 payload 8).toNat⟩

/-- The piece index in the payload of a Have or a PieceBlock. -/
def indexOf (payload : Bytes) : ℕ := (readBE32 payload 0).toNat

/-- The slot in the payload of a PieceBlock. -/
def slotOf (payload : Bytes) : ℕ := (readBE32 payload 4).toNat / maxRequestSize

theorem indexOf_pieceBlock (index begin : UInt32) (block : Bytes) :
    indexOf (Message.pieceBlock index begin block).payload = index.toNat := by
  have h := readBE32_writeBE32 index [] (writeBE32 begin ++ block)
  rw [List.nil_append, ← List.append_assoc] at h
  unfold indexOf Message.payload
  exact congrArg UInt32.toNat h

theorem slotOf_pieceBlock (index begin : UInt32) (block : Bytes) :
    slotOf (Message.pieceBlock index begin block).payload = begin.toNat / maxRequestSize := by
  have h := readBE32_writeBE32 begin (writeBE32 index) block
  unfold slotOf Message.payload
  exact congrArg (fun w => w.toNat / maxRequestSize) h

theorem drop_pieceBlock (index begin : UInt32) (block : Bytes) :
    (Message.pieceBlock index begin block).payload.drop 8 = block := rfl

/-- The message of the given type leads to `handleError`. -/
def Rejects (s : Session) (payload : Bytes) : ℕ → Prop
  | 0 | 1 | 2 | 3 => payload.length ≠ 0
  | 4 => payload.length ≠ 4
  | 5 => payload.length < 1
  | 6 => payload.length ≠ 12 ∨ s.peer.peerInterested = false ∨ s.peer.amChoked = true ∨
      maxRequestSize < (infoOf payload).length
  | 7 => payload.length < 9 ∨ maxRequestSize < payload.length - 8 ∨
      ∀ piece, s.peer.queue.find? (fun p => p.index = indexOf payload) = some piece →
        piece.numBlocks ≤ slotOf payload
  | 8 => payload.length ≠ 12
  | 9 => payload.length ≠ 2
  | _ => False

/-- The payload is a block for a slot of `piece`, the first with its index in the queue. -/
structure Delivers (s : Session) (payload : Bytes) (before : List Piece) (piece : Piece)
    (behind : List Piece) : Prop where
  size : 9 ≤ payload.length
  le : payload.length - 8 ≤ maxRequestSize
  queue : s.peer.queue = before ++ piece :: behind
  first : ∀ p ∈ before, p.index ≠ indexOf payload
  index : piece.index = indexOf payload
  slot : slotOf payload < piece.numBlocks

/-- At the end of a handler: `Torrent::requestPiece` was called, or the handler returned. -/
def Selected (s s' : Session) : Prop := s' = s ∨ Torrent.requestPiece s = some s'

/-- The ways through `handleMessage`, by the type of the message. -/
inductive Outcome (sha1 : Bytes → Sha1sum) (s : Session) (payload : Bytes) : ℕ → Session → Prop
  | error {type : ℕ} (errmsg : String) (h : Rejects s payload type) :
      Outcome sha1 s payload type (handleError s errmsg)
  | choke (h : payload.length = 0) :
      Outcome sha1 s payload 0 { s with peer := { s.peer with peerChoked := true } }
  | unchoke (h : payload.length = 0) (length : ℕ → ℕ)
      (hlength : ∀ piece ∈ s.peer.queue,
        s.torrent.fileManager.pieceSize piece.index = some (length piece.index)) :
      Outcome sha1 s payload 1 { s with peer := { s.peer with
        peerChoked := false
        wire := s.peer.wire ++
          s.peer.queue.flatMap (fun piece => requests piece.index (length piece.index)) } }
  | interested (h : payload.length = 0) :
      Outcome sha1 s payload 2 { s with peer :=
        if s.peer.amChoked then { s.peer with peerInterested := true }.sendUnchoke
        else { s.peer with peerInterested := true } }
  | notInterested (h : payload.length = 0) :
      Outcome sha1 s payload 3 { s with peer := { s.peer with peerInterested := false } }
  | have_ (h : payload.length = 4) (bitset : Bitset)
      (hbitset : bitset = if indexOf payload < s.peer.bitset.size then
        s.peer.bitset.set (indexOf payload) else s.peer.bitset) :
      Outcome sha1 s payload 4 { s with peer := { s.peer with bitset := bitset } }
  | bitfield (h : 1 ≤ payload.length) {s' : Session}
      (hselect : Selected { s with peer := { s.peer with
        bitset := receiveBits payload s.torrent.fileManager.pieces.length s.peer.bitset } } s') :
      Outcome sha1 s payload 5 s'
  | refuse (h : ¬ Rejects s payload 6) (fm : FileManager)
      (hrequest : s.torrent.fileManager.requestPieceBlock (infoOf payload).index
        s.peer.ip.toNat (infoOf payload).begin (infoOf payload).length = some (false, fm)) :
      Outcome sha1 s payload 6 ⟨{ s.torrent with fileManager := fm }, s.peer.sendChoke⟩
  | grant (h : ¬ Rejects s payload 6) (fm : FileManager)
      (hrequest : s.torrent.fileManager.requestPieceBlock (infoOf payload).index
        s.peer.ip.toNat (infoOf payload).begin (infoOf payload).length = some (true, fm)) :
      Outcome sha1 s payload 6 ⟨{ s.torrent with fileManager := fm },
        { s.peer with requestedBlocks := s.peer.requestedBlocks ++ [infoOf payload] }⟩
  | done {before behind : List Piece} {piece : Piece} (h : Delivers s payload before piece behind)
      (hdone : s.torrent.fileManager.pieceDone piece.index = true) (length : ℕ)
      (hlength : s.torrent.fileManager.pieceSize piece.index = some length) :
      Outcome sha1 s payload 7 { s with peer := { s.peer with
        queue := before ++ behind
        wire := s.peer.wire ++ cancels piece.index length } }
  | store {before behind : List Piece} {piece : Piece} (h : Delivers s payload before piece behind)
      (hdone : s.torrent.fileManager.pieceDone piece.index = false)
      (hmore : piece.currentBlocks + 1 ≠ piece.numBlocks) :
      Outcome sha1 s payload 7 { s with peer := { s.peer with
        queue := before ++ piece.store (slotOf payload) (payload.drop 8) :: behind } }
  | finish {before behind : List Piece} {piece : Piece} (h : Delivers s payload before piece behind)
      (hdone : s.torrent.fileManager.pieceDone piece.index = false)
      (hlast : piece.currentBlocks + 1 = piece.numBlocks) {s' : Session}
      (hfinish : finishPiece sha1 { s with peer := { s.peer with queue := before ++ behind } }
        (piece.store (slotOf payload) (payload.drop 8)) = some s') :
      Outcome sha1 s payload 7 s'
  | cancel (h : payload.length = 12) :
      Outcome sha1 s payload 8 { s with peer := { s.peer with
        requestedBlocks := s.peer.requestedBlocks.erase (infoOf payload) } }
  | port (h : payload.length = 2) : Outcome sha1 s payload 9 s
  | unknown {type : ℕ} (h : 9 < type) : Outcome sha1 s payload type s

variable {sha1 : Bytes → Sha1sum} {human : ℕ → String} {s s' : Session} {payload : Bytes}

/-! ### Choosing and finishing a piece -/

/-- What choosing a piece does to the torrent and to the peer. -/
theorem Selected.cases (h : Selected s s') :
    FileManager.SameLayout s.torrent.fileManager s'.torrent.fileManager ∧
      (s'.peer = s.peer ∨ ∃ index length, index < 2 ^ 32 ∧
        s.torrent.fileManager.pieceSize index = some length ∧
        s'.peer = { s.peer with
          amInterested := true
          queue := s.peer.queue ++ [Piece.new index length]
          wire := s.peer.wire ++ .sent .interested ::
            if s.peer.peerChoked then [] else requests index length }) := by
  rcases h with rfl | h
  · exact ⟨.refl _, Or.inl rfl⟩
  · obtain ⟨pieces, hhash, htorrent, hpeer⟩ := Torrent.requestPiece_cases h
    refine ⟨?_, hpeer⟩
    rw [htorrent]
    exact ⟨rfl, by simpa using congrArg List.length hhash⟩

/-- Choosing a piece leaves the bit set of the peer. -/
theorem Selected.bitset (h : Selected s s') : s'.peer.bitset = s.peer.bitset := by
  obtain ⟨-, hpeer | ⟨index, length, -, -, hpeer⟩⟩ := h.cases <;> rw [hpeer]

/-- A finished piece is handed to the torrent; if it fails its hash the peer is choked, and else a
new piece may be chosen. -/
theorem finishPiece_cases {piece : Piece} (h : finishPiece sha1 s piece = some s') :
    ∃ t, FileManager.SameLayout s.torrent.fileManager t.fileManager ∧
      ((s' = ⟨t, { s.peer with handed := s.peer.handed ++ [piece] }.sendChoke⟩ ∧
          (s.torrent.fileManager.writePieceBlock sha1 piece.index s.peer.ip.toNat piece.data).map
            Prod.fst = some false) ∨
        Selected ⟨t, { s.peer with handed := s.peer.handed ++ [piece] }⟩ s') := by
  unfold finishPiece Torrent.handlePieceCompleted at h
  obtain ⟨⟨ok, s₁⟩, h₁, h₂⟩ := Option.bind_eq_some_iff.1 h
  obtain ⟨⟨ok', fm⟩, hw, hok⟩ := Option.map_eq_some_iff.1 h₁
  have hlayout := FileManager.sameLayout_writePieceBlock sha1 _ hw
  cases ok' with
  | false =>
    cases hok
    cases h₂
    exact ⟨_, hlayout, Or.inl ⟨rfl, by rw [hw]; rfl⟩⟩
  | true =>
    cases hok
    simp only [Bool.not_true, Bool.false_eq_true, if_false] at h₂
    refine ⟨{ s.torrent with fileManager := fm }, hlayout, Or.inr ?_⟩
    split_ifs at h₂
    · exact Or.inr h₂
    · cases h₂
      exact Or.inl rfl

/-! ### The handlers -/

/-- `requestPiece` for each piece of a list, for a peer that has not choked us. -/
theorem foldlM_requestPiece (pieces : List Piece) (hs : s.peer.peerChoked = false)
    (h : pieces.foldlM (fun s piece => requestPiece s piece.index) s = some s') :
    ∃ length : ℕ → ℕ, (∀ piece ∈ pieces,
        s.torrent.fileManager.pieceSize piece.index = some (length piece.index)) ∧
      s' = { s with peer := { s.peer with
        wire := s.peer.wire ++
          pieces.flatMap (fun piece => requests piece.index (length piece.index)) } } := by
  refine ⟨fun index => (s.torrent.fileManager.pieceSize index).getD 0, ?_⟩
  induction pieces generalizing s with
  | nil =>
    cases h
    simp
  | cons piece pieces ih =>
    rw [List.foldlM_cons] at h
    obtain ⟨s₁, h₁, h₂⟩ := Option.bind_eq_some_iff.1 h
    rw [requestPiece_eq hs] at h₁
    obtain ⟨length, hlength, rfl⟩ := Option.map_eq_some_iff.1 h₁
    obtain ⟨hall, rfl⟩ := ih (by exact hs) h₂
    constructor
    · intro p hp
      rcases List.mem_cons.1 hp with rfl | hp
      · simp only [hlength, Option.getD_some]
      · exact hall p hp
    · simp [hlength]

/-- A block for the first piece with its index in the queue. -/
theorem delivers_of_getElem? (h9 : ¬ payload.length < 9)
    (hle : ¬ ((payload.drop 8).length = 0 ∨ (payload.drop 8).length > maxRequestSize))
    {piece : Piece}
    (hk : s.peer.queue[s.peer.queue.findIdx fun p => p.index = indexOf payload]? = some piece)
    (hslot : ¬ slotOf payload ≥ piece.numBlocks) :
    ∃ before behind, Delivers s payload before piece behind ∧
      s.peer.queue.findIdx (fun p => p.index = indexOf payload) = before.length := by
  rw [← List.find?_eq_getElem?_findIdx, List.find?_eq_some_iff_append] at hk
  obtain ⟨hindex, before, behind, hqueue, hfirst⟩ := hk
  have hne : ∀ p ∈ before, p.index ≠ indexOf payload := by
    intro p hp
    simpa using hfirst p hp
  rw [List.length_drop] at hle
  refine ⟨before, behind, ⟨by omega, by omega, hqueue, hne, by simpa using hindex, by omega⟩, ?_⟩
  rw [hqueue, List.findIdx_append, List.findIdx_eq_length_of_false (by simpa using hne)]
  simp [List.findIdx_cons, hindex]

theorem handlePieceBlock_outcome (h : handlePieceBlock sha1 human s payload = some s') :
    Outcome sha1 s payload 7 s' := by
  unfold handlePieceBlock at h
  simp only at h
  split_ifs at h with h9 hle
  · cases h
    exact .error _ (Or.inl h9)
  · cases h
    refine .error _ ?_
    rw [List.length_drop] at hle
    rcases hle with hle | hle
    · exact Or.inl (by omega)
    · exact Or.inr (Or.inl hle)
  · split at h
    · rename_i hnone
      cases h
      refine .error _ (Or.inr (Or.inr fun piece hp => ?_))
      rw [List.find?_eq_getElem?_findIdx] at hp
      cases hnone.symm.trans hp
    · rename_i piece hk
      split_ifs at h with hslot
      · cases h
        refine .error _ (Or.inr (Or.inr fun p hp => ?_))
        rw [List.find?_eq_getElem?_findIdx] at hp
        cases hk.symm.trans hp
        exact hslot
      · obtain ⟨before, behind, hd, hlength⟩ := delivers_of_getElem? h9 hle hk hslot
        have herase : s.peer.queue.eraseIdx before.length = before ++ behind := by
          rw [hd.queue, List.eraseIdx_append_of_length_le le_rfl]
          simp
        have hset : ∀ p, s.peer.queue.set before.length p = before ++ p :: behind := by
          intro p
          rw [hd.queue, List.set_append_right _ _ le_rfl]
          simp
        unfold acceptBlock at h
        simp only [show (s.peer.queue.findIdx fun p => p.index = (readBE32 payload 0).toNat) =
          before.length from hlength, herase, hset] at h
        split_ifs at h with hdone hlast
        · rw [cancelPiece_eq, Option.map_map] at h
          obtain ⟨length, hl, rfl⟩ := Option.map_eq_some_iff.1 h
          simp only [Function.comp_apply, herase]
          exact .done hd hdone length hl
        · exact .finish hd (by simpa using hdone) hlast h
        · cases h
          exact .store hd (by simpa using hdone) hlast

theorem handleRequest_outcome (h : handleRequest human s payload = some s') :
    Outcome sha1 s payload 6 s' := by
  unfold handleRequest at h
  simp only at h
  split_ifs at h with h12 hinterest hchoke hlen
  · cases h
    exact .error _ (Or.inl h12)
  · cases h
    exact .error _ (Or.inr (Or.inl (by simpa using hinterest)))
  · cases h
    exact .error _ (Or.inr (Or.inr (Or.inl hchoke)))
  · cases h
    exact .error _ (Or.inr (Or.inr (Or.inr hlen)))
  · have hno : ¬ Rejects s payload 6 := by
      rintro (h | h | h | h)
      · exact h12 h
      · simp [h] at hinterest
      · exact hchoke h
      · exact hlen h
    unfold Torrent.handleRequestBlock at h
    rw [Option.map_map] at h
    obtain ⟨⟨ok, fm⟩, hr, rfl⟩ := Option.map_eq_some_iff.1 h
    cases ok with
    | false => exact .refuse hno fm hr
    | true => exact .grant hno fm hr

/-- **What a message does.** -/
theorem handleMessage_outcome {type : UInt8}
    (h : handleMessage sha1 human s type payload = some s') :
    Outcome sha1 (receive s type payload) payload type.toNat s' := by
  unfold handleMessage at h
  simp only at h
  generalize receive s type payload = s at h ⊢
  generalize type.toNat = n at h ⊢
  split at h
  · unfold handleChoke at h
    split_ifs at h with hsize
    all_goals cases h
    · exact .error _ hsize
    · exact .choke (by omega)
  · unfold handleUnchoke at h
    split_ifs at h with hsize
    · cases h
      exact .error _ hsize
    · obtain ⟨length, hall, rfl⟩ := foldlM_requestPiece _ rfl h
      exact .unchoke (by omega) length hall
  · unfold handleInterested at h
    split_ifs at h with hsize
    all_goals cases h
    · exact .error _ hsize
    · exact .interested (by omega)
  · unfold handleNotInterested at h
    split_ifs at h with hsize
    all_goals cases h
    · exact .error _ hsize
    · exact .notInterested (by omega)
  · unfold handleHave at h
    simp only at h
    split_ifs at h with hsize hin
    all_goals cases h
    · exact .error _ hsize
    · exact .have_ (by omega) _ (if_pos hin).symm
    · exact .have_ (by omega) _ (if_neg hin).symm
  · unfold handleBitfield at h
    simp only at h
    split_ifs at h with hsize hfin
    · cases h
      exact .error _ hsize
    · exact .bitfield (by omega) (Or.inr h)
    · cases h
      exact .bitfield (by omega) (Or.inl rfl)
  · exact handleRequest_outcome h
  · exact handlePieceBlock_outcome h
  · unfold handleCancel at h
    split_ifs at h with hsize
    all_goals cases h
    · exact .error _ hsize
    · exact .cancel (by omega)
  · unfold handlePort at h
    split_ifs at h with hsize
    all_goals cases h
    · exact .error _ hsize
    · exact .port (by omega)
  · cases h
    exact .unknown (by grind)

end Peer

end CTorrent
