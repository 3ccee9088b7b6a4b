import CTorrent.Peer.Queue

/-!
# Putting a piece together

`currentBlocks` counts the blocks that have arrived, and a piece is handed to the torrent when it
reaches `numBlocks`. The count is right as long as no slot is filled twice.

* `Piece.filled`: the slots of a piece that hold data;
* `Assembled`: what a peer owes the torrent, that counts are right and pieces handed over complete;
* `Fits`: the block that an event stores goes to an empty slot and completes no piece wrongly;
* `assembled_iff`: `Assembled` holds throughout a run exactly if every event `Fits`.
-/

namespace CTorrent

namespace Peer

/-! ### Slots -/

namespace Piece

/-- The number of slots that hold data. -/
def filled (p : Piece) : ℕ := p.blocks.countP Option.isSome

/-- Every slot holds data. -/
def Full (p : Piece) : Prop := ∀ block ∈ p.blocks, block.isSome = true

theorem full_iff (p : Piece) : p.Full ↔ p.filled = p.numBlocks := by
  unfold Full filled
  rw [← p.length_blocks, List.countP_eq_length]

@[simp] theorem filled_new (index length : ℕ) : (Piece.new index length).filled = 0 := by
  simp [filled, Piece.new]

/-- The counter of a piece. -/
def Counted (p : Piece) : Prop := p.currentBlocks = p.filled

theorem counted_new (index length : ℕ) : (Piece.new index length).Counted :=
  (filled_new index length).symm

variable {p : Piece} {slot : ℕ} (data : Bytes)

theorem filled_store_of_none (h : p.blocks[slot]? = some none) :
    (p.store slot data).filled = p.filled + 1 := by
  obtain ⟨hlt, hget⟩ := List.getElem?_eq_some_iff.1 h
  unfold filled store
  rw [List.countP_set hlt, hget]
  simp

theorem filled_store_of_some {old : Bytes} (h : p.blocks[slot]? = some (some old)) :
    (p.store slot data).filled = p.filled := by
  obtain ⟨hlt, hget⟩ := List.getElem?_eq_some_iff.1 h
  have hpos : 0 < p.filled := by
    apply List.countP_pos_iff.2
    exact ⟨some old, List.mem_of_getElem? h, rfl⟩
  unfold filled store at *
  rw [List.countP_set hlt, hget]
  simp only [Option.isSome_some, if_true]
  omega

theorem length_flatMap_set (blocks : List (Option Bytes)) (h : blocks[slot]? = some none) :
    ((blocks.set slot (some data)).flatMap fun block => block.getD []).length =
      (blocks.flatMap fun block => block.getD []).length + data.length := by
  induction blocks generalizing slot with
  | nil => cases h
  | cons block blocks ih =>
    cases slot with
    | zero =>
      rw [List.getElem?_cons_zero, Option.some.injEq] at h
      subst h
      simp only [List.set_cons_zero, List.flatMap_cons, List.length_append, Option.getD_some,
        Option.getD_none, List.length_nil]
      omega
    | succ slot =>
      rw [List.getElem?_cons_succ] at h
      simp only [List.set_cons_succ, List.flatMap_cons, List.length_append, ih h]
      omega

theorem length_data_store (h : p.blocks[slot]? = some none) :
    (p.store slot data).data.length = p.data.length + data.length :=
  length_flatMap_set data p.blocks h

end Piece

/-! ### Assembly -/

/-- Every piece in the queue counts its filled slots, and every piece that was handed over had all
its slots filled, with as many bytes as the piece has. -/
structure Assembled (s : Session) : Prop where
  counted : ∀ piece ∈ s.peer.queue, piece.Counted
  full : ∀ piece ∈ s.peer.handed, piece.Full ∧
    s.torrent.fileManager.pieceSize piece.index = some piece.data.length

/-- A block that is stored goes to an empty slot; and if that is the last empty slot of the piece,
the block has as many bytes as the others leave. -/
def Fits (s : Session) : Event → Prop
  | .message type payload => type = 7 → ∀ before piece behind,
      Delivers s payload before piece behind →
      s.torrent.fileManager.pieceDone piece.index = false →
      piece.blocks[slotOf payload]? = some none ∧
        (piece.filled + 1 = piece.numBlocks →
          s.torrent.fileManager.pieceSize piece.index =
            some (piece.data.length + (payload.drop 8).length))
  | _ => True

variable {sha1 : Bytes → Sha1sum} {human : ℕ → String} {s s' : Session} {payload : Bytes}

theorem Grown.counted {q q' : List Piece} (h : Grown s q q') (hq : ∀ piece ∈ q, piece.Counted) :
    ∀ piece ∈ q', piece.Counted := by
  rcases h with rfl | ⟨index, length, -, -, rfl⟩
  · exact hq
  · intro piece hp
    rcases List.mem_append.1 hp with hp | hp
    · exact hq piece hp
    · rw [List.mem_singleton.1 hp]
      exact Piece.counted_new index length

/-- A block is counted right if and only if its slot is empty. -/
theorem counted_store_iff {piece : Piece} {slot : ℕ} (hc : piece.Counted)
    (hslot : slot < piece.numBlocks) (data : Bytes) :
    (piece.store slot data).Counted ↔ piece.blocks[slot]? = some none := by
  have hlt : slot < piece.blocks.length := piece.length_blocks ▸ hslot
  show piece.currentBlocks + 1 = (piece.store slot data).filled ↔ _
  rw [hc]
  cases hb : piece.blocks[slot]? with
  | none => exact absurd (List.getElem?_eq_none_iff.1 hb) (Nat.not_le.2 hlt)
  | some block =>
    cases block with
    | none => simp [Piece.filled_store_of_none data hb]
    | some old => simp [Piece.filled_store_of_some data hb]

/-- The piece that a block completes is complete if and only if its slot is empty. -/
theorem full_store_iff {piece : Piece} {slot : ℕ} (hc : piece.Counted)
    (hslot : slot < piece.numBlocks) (hlast : piece.currentBlocks + 1 = piece.numBlocks)
    (data : Bytes) : (piece.store slot data).Full ↔ piece.blocks[slot]? = some none := by
  rw [Piece.full_iff, ← counted_store_iff hc hslot data]
  show _ = piece.numBlocks ↔ piece.currentBlocks + 1 = _
  rw [hlast]
  exact eq_comm

/-- What is asked of the one block that a message delivers. -/
theorem fits_message_iff {type : UInt8} {before behind : List Piece} {piece : Piece}
    (htype : type = 7) (hd : Delivers s payload before piece behind)
    (hdone : s.torrent.fileManager.pieceDone piece.index = false) :
    Fits s (.message type payload) ↔ piece.blocks[slotOf payload]? = some none ∧
      (piece.filled + 1 = piece.numBlocks →
        s.torrent.fileManager.pieceSize piece.index =
          some (piece.data.length + (payload.drop 8).length)) := by
  constructor
  · exact fun hfits => hfits htype before piece behind hd hdone
  · intro h _ before' piece' behind' hd' _
    rw [hd.unique hd']
    exact h

/-- A block that is stored and is not the last of its piece. -/
theorem assembled_store_iff (h : Assembled s) {before behind : List Piece} {piece : Piece}
    (hd : Delivers s payload before piece behind)
    (hmore : piece.currentBlocks + 1 ≠ piece.numBlocks)
    (hqueue : s'.peer.queue =
      before ++ piece.store (slotOf payload) (payload.drop 8) :: behind)
    (hhanded : ∀ piece ∈ s'.peer.handed, piece.Full ∧
      s'.torrent.fileManager.pieceSize piece.index = some piece.data.length) :
    (piece.blocks[slotOf payload]? = some none ∧
      (piece.filled + 1 = piece.numBlocks →
        s.torrent.fileManager.pieceSize piece.index =
          some (piece.data.length + (payload.drop 8).length))) ↔ Assembled s' := by
  have hc := h.counted piece hd.mem
  have hiff := counted_store_iff hc hd.slot (payload.drop 8)
  constructor
  · rintro ⟨hnone, -⟩
    refine ⟨?_, hhanded⟩
    rw [hqueue]
    intro p hp
    rcases List.mem_append.1 hp with hp | hp
    · exact h.counted p (hd.mem_of_rest (List.mem_append_left _ hp))
    · rcases List.mem_cons.1 hp with rfl | hp
      · exact hiff.2 hnone
      · exact h.counted p (hd.mem_of_rest (List.mem_append_right _ hp))
  · intro hassembled
    have hcount := hassembled.counted (piece.store (slotOf payload) (payload.drop 8))
      (by rw [hqueue]; simp)
    refine ⟨hiff.1 hcount, fun hlast => absurd ?_ hmore⟩
    rwa [hc]

/-- The last block of a piece, which is handed over. -/
theorem assembled_finish_iff (h : Assembled s) {before behind queue : List Piece} {piece : Piece}
    (hd : Delivers s payload before piece behind)
    (hlast : piece.currentBlocks + 1 = piece.numBlocks) (hgrown : Grown s (before ++ behind) queue)
    (hsize : s'.torrent.fileManager.pieceSize = s.torrent.fileManager.pieceSize)
    (hqueue : s'.peer.queue = queue)
    (hhanded : s'.peer.handed =
      s.peer.handed ++ [piece.store (slotOf payload) (payload.drop 8)]) :
    (piece.blocks[slotOf payload]? = some none ∧
      (piece.filled + 1 = piece.numBlocks →
        s.torrent.fileManager.pieceSize piece.index =
          some (piece.data.length + (payload.drop 8).length))) ↔ Assembled s' := by
  have hc := h.counted piece hd.mem
  have hiff := full_store_iff hc hd.slot hlast (payload.drop 8)
  have hindex : (piece.store (slotOf payload) (payload.drop 8)).index = piece.index := rfl
  constructor
  · rintro ⟨hnone, hlength⟩
    constructor
    · rw [hqueue]
      apply hgrown.counted
      intro p hp
      exact h.counted p (hd.mem_of_rest hp)
    · rw [hhanded, hsize]
      intro p hp
      rcases List.mem_append.1 hp with hp | hp
      · exact h.full p hp
      · rw [List.mem_singleton.1 hp]
        refine ⟨hiff.2 hnone, ?_⟩
        rw [hindex, Piece.length_data_store _ hnone]
        exact hlength (by rwa [← hc])
  · intro hassembled
    obtain ⟨hfull, hlength⟩ := hassembled.full (piece.store (slotOf payload) (payload.drop 8))
      (by rw [hhanded]; simp)
    have hnone := hiff.1 hfull
    refine ⟨hnone, fun _ => ?_⟩
    rwa [hsize, hindex, Piece.length_data_store _ hnone] at hlength

/-- **One event.** An event that leads from an assembled state keeps it assembled if and only if it
fits. -/
theorem fits_iff (h : Assembled s) {e : Event} (hs : s.step sha1 human e = some s') :
    Fits s e ↔ Assembled s' := by
  have hsize := (sameLayout_step hs).pieceSize_eq
  have hkept : ∀ piece ∈ s.peer.handed, piece.Full ∧
      s'.torrent.fileManager.pieceSize piece.index = some piece.data.length := by
    rw [hsize]
    exact h.full
  rcases step_queue hs with ⟨type, payload, rfl, hstep⟩ | ⟨hno, hq, hh⟩
  · generalize hn : type.toNat = n at hstep
    have h7 : n = 7 → type = 7 := fun h => UInt8.toNat_inj.1 (hn.trans h)
    generalize hq : s'.peer.queue = queue at hstep
    generalize hh : s'.peer.handed = handed at hstep
    cases hstep with
    | keep hno hgrown =>
      constructor
      · intro _
        exact ⟨by rw [hq]; exact hgrown.counted h.counted, by rw [hh]; exact hkept⟩
      · intro _ ht before piece behind hd
        exact absurd hd (hno (by rw [← hn, ht]; rfl) before piece behind)
    | @done before behind piece hd hdone =>
      constructor
      · intro _
        refine ⟨?_, by rw [hh]; exact hkept⟩
        rw [hq]
        intro p hp
        exact h.counted p (hd.mem_of_rest hp)
      · intro _ _ before' piece' behind' hd' hdone'
        rw [hd.unique hd', hdone] at hdone'
        cases hdone'
    | store hd hdone hmore =>
      rw [fits_message_iff (h7 rfl) hd hdone]
      exact assembled_store_iff h hd hmore hq (by rw [hh]; exact hkept)
    | finish hd hdone hlast hgrown =>
      rw [fits_message_iff (h7 rfl) hd hdone]
      exact assembled_finish_iff h hd hlast hgrown hsize hq hh
  · constructor
    · intro _
      exact ⟨by rw [hq]; exact h.counted, by rw [hh]; exact hkept⟩
    · intro _
      cases e with
      | message type payload => exact absurd rfl (hno type payload)
      | _ => trivial

/-- **When pieces are put together right.** Over a run of events from a fresh peer, the counters
are right and the pieces handed over complete throughout if and only if every block that is stored
goes to an empty slot and, where it is the last, has the length that is missing. -/
theorem assembled_iff (hqueue : s.peer.queue = []) (hhanded : s.peer.handed = [])
    {events : List Event} (hrun : (Runs.run (Session.step sha1 human) s events).isSome = true) :
    Runs.Always (Session.step sha1 human) Assembled s events ↔
      Runs.Meets (Session.step sha1 human) Fits s events := by
  have hinit : Assembled s := by
    constructor
    · simp [hqueue]
    · simp [hhanded]
  exact Runs.always_iff_meets (I := fun _ => True) (fun _ _ _ _ _ => trivial)
    (fun _ _ _ _ hs hstep => fits_iff hs hstep) trivial hinit hrun

/-- A peer of a torrent whose piece is one block and one byte long. -/
def twoBlocks : Session := ⟨onePiece (maxRequestSize + 1), Peer.new 1 (fun _ => 0) 1⟩

/-- The peer has the piece and unchokes us, and sends the last block twice. -/
def lastBlockTwice : List Event :=
  [.message 5 [128], .message 1 [],
    .message 7 (Message.pieceBlock 0 16384 [7]).payload,
    .message 7 (Message.pieceBlock 0 16384 [7]).payload]

theorem assembled_iff_lastBlockTwice :
    Runs.Always (Session.step (fun _ _ => 0) toString) Assembled twoBlocks lastBlockTwice ↔
      Runs.Meets (Session.step (fun _ _ => 0) toString) Fits twoBlocks lastBlockTwice :=
  assembled_iff rfl rfl (by decide +kernel)

/-- With the same block twice the piece is handed over, and its first slot is empty. -/
theorem not_assembled_lastBlockTwice :
    ¬ Runs.Always (Session.step (fun _ _ => 0) toString) Assembled twoBlocks lastBlockTwice := by
  intro h
  have hrun : (Runs.run (Session.step (fun _ _ => 0) toString) twoBlocks lastBlockTwice).any
      (fun t => t.peer.handed.any fun piece => piece.blocks.any Option.isNone) = true := by
    decide +kernel
  obtain ⟨t, ht, hany⟩ := (Option.any_eq_true _ _).1 hrun
  simp only [List.any_eq_true] at hany
  obtain ⟨piece, hpiece, block, hblock, hnone⟩ := hany
  have hsome := ((h.last ht).full piece hpiece).1 block hblock
  rw [Option.isNone_iff_eq_none.1 hnone] at hsome
  cases hsome

end Peer

end CTorrent
