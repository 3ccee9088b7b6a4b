import CTorrent.Peer.Blocks
import CTorrent.Peer.Queue

/-!
# Reassembly of a requested piece

The Requests for a piece cut it up, and when each is answered once, in any order and between any
other events, the piece is handed to the torrent exactly once, with the last answer, and its data
is the content that the answers carry.

* `Partial`: a piece some of whose blocks have arrived;
* `Collected`: the state of the collection after the blocks `got`;
* `collected_step`, `collected_run`: one event and a run of events;
* `reassembly`: the result.
-/

namespace CTorrent

open Splice

namespace Peer

/-- The event is a PieceBlock for the piece. -/
def IsBlock (index : ℕ) : Event → Bool
  | .message type payload => type = 7 ∧ indexOf payload = index
  | _ => false

/-- The answer to the Request for a block, with the bytes of the content. -/
def blockEvent (index : ℕ) (content : Bytes) (b : ℕ × ℕ) : Event :=
  .message 7 (Message.pieceBlock (UInt32.ofNat index) (UInt32.ofNat b.1)
    (region content b.1 b.2)).payload

/-- What was handed over for the piece. -/
def handedOf (index : ℕ) (s : Session) : List Bytes :=
  (s.peer.handed.filter fun p => p.index = index).map Piece.data

/-- A piece of the given length that has got the blocks `got` of the content. -/
structure Partial (index length : ℕ) (content : Bytes) (got : List (ℕ × ℕ)) (piece : Piece) :
    Prop where
  index : piece.index = index
  numBlocks : piece.numBlocks = (blocksOf length).length
  currentBlocks : piece.currentBlocks = got.length
  slots : ∀ (k : ℕ) (b : ℕ × ℕ), (blocksOf length)[k]? = some b →
    piece.blocks[k]? = some (if b ∈ got then some (region content b.1 b.2) else none)

/-- Until all blocks have arrived the piece is in the queue with those that have; then it has been
handed over, once. -/
def Collected (index length : ℕ) (content : Bytes) (before : List Bytes) (got : List (ℕ × ℕ))
    (s : Session) : Prop :=
  if got.length < (blocksOf length).length then
    (∃ piece, s.peer.queue.find? (fun p => p.index = index) = some piece ∧
      Partial index length content got piece) ∧ handedOf index s = before
  else handedOf index s = before ++ [content]

/-! ### A piece and its blocks -/

section Piece

variable {index length : ℕ} {content : Bytes} {got : List (ℕ × ℕ)} {piece : Piece}

theorem partial_new (hpos : 1 ≤ length) (h32 : length < 2 ^ 32) :
    Partial index length content [] (Piece.new index length) := by
  have hnum := numBlocks_new hpos h32 index
  refine ⟨rfl, hnum, rfl, fun k b hb => ?_⟩
  have hk : k < (Piece.new index length).numBlocks := by
    rw [hnum]
    exact (List.getElem?_eq_some_iff.1 hb).1
  unfold Piece.new at hk ⊢
  rw [List.getElem?_replicate, if_pos hk, if_neg List.not_mem_nil]

/-- A block arrives. -/
theorem Partial.store (h : Partial index length content got piece) {b : ℕ × ℕ}
    (hb : b ∈ blocksOf length) :
    Partial index length content (got ++ [b])
      (piece.store (b.1 / maxRequestSize) (region content b.1 b.2)) := by
  refine ⟨h.index, h.numBlocks, ?_, fun k c hc => ?_⟩
  · rw [List.length_append, List.length_singleton, ← h.currentBlocks]
    rfl
  · have hslot := getElem?_blocksOf_slot hb
    have hlt : k < piece.blocks.length := by
      rw [piece.length_blocks, h.numBlocks]
      exact (List.getElem?_eq_some_iff.1 hc).1
    unfold Piece.store
    rw [List.getElem?_set]
    by_cases hk : b.1 / maxRequestSize = k
    · -- the slot of the block
      rw [hk, hc] at hslot
      cases hslot
      rw [if_pos hk, if_pos (by omega), if_pos (by simp)]
    · -- the slot of another block
      have hne : c ≠ b := by
        rintro rfl
        apply hk
        rw [getElem?_blocksOf hc, Nat.mul_div_cancel _ (by decide)]
      rw [if_neg hk, h.slots k c hc]
      simp [hne]

/-- With all blocks the piece is the content. -/
theorem Partial.data_eq (h : Partial index length content got piece)
    (hall : ∀ b ∈ blocksOf length, b ∈ got) (hcontent : content.length = length) :
    piece.data = content := by
  have hblocks : piece.blocks =
      (blocksOf length).map fun b => some (region content b.1 b.2) := by
    apply List.ext_getElem?
    intro k
    rw [List.getElem?_map]
    cases hk : (blocksOf length)[k]? with
    | none =>
      have hge := List.getElem?_eq_none_iff.1 hk
      rw [Option.map_none, List.getElem?_eq_none_iff, piece.length_blocks, h.numBlocks]
      exact hge
    | some b =>
      rw [h.slots k b hk, if_pos (hall b (List.mem_of_getElem? hk)), Option.map_some]
  unfold Piece.data
  rw [hblocks, List.flatMap_map]
  simp only [Option.getD_some]
  rw [(tiles_blocksOf length).flatMap_region, Nat.sub_zero, ← hcontent, region_full]

end Piece

/-! ### Events -/

section Run

variable {sha1 : Bytes → Sha1sum} {human : ℕ → String} {s s' : Session} {payload : Bytes}
  {index length : ℕ} {content : Bytes} {before : List Bytes} {got : List (ℕ × ℕ)}

theorem find?_append_cons_ne {l₁ l₂ : List Piece} {p : Piece} (hp : p.index ≠ index) :
    (l₁ ++ p :: l₂).find? (fun q => q.index = index) =
      (l₁ ++ l₂).find? (fun q => q.index = index) := by
  rw [List.find?_append, List.find?_append, List.find?_cons_of_neg (by simpa using hp)]

theorem Grown.find? {q q' : List Piece} (h : Grown s q q') {piece : Piece}
    (hf : q.find? (fun p => p.index = index) = some piece) :
    q'.find? (fun p => p.index = index) = some piece := by
  rcases h with rfl | ⟨_, _, -, -, rfl⟩
  · exact hf
  · rw [List.find?_append, hf]
    rfl

/-- An event that is no block for the piece. -/
theorem collected_other {e : Event} (h : Collected index length content before got s)
    (hs : s.step sha1 human e = some s') (he : IsBlock index e = false) :
    Collected index length content before got s' := by
  have hframe : handedOf index s' = handedOf index s ∧
      ∀ piece, s.peer.queue.find? (fun p => p.index = index) = some piece →
        s'.peer.queue.find? (fun p => p.index = index) = some piece := by
    rcases step_queue hs with ⟨type, payload, rfl, hstep⟩ | ⟨-, hq, hh⟩
    · generalize hn : type.toNat = n at hstep
      generalize hq : s'.peer.queue = queue at hstep
      generalize hh : s'.peer.handed = handed at hstep
      unfold handedOf
      rw [hh]
      have hother : n = 7 → indexOf payload ≠ index := by
        intro h7 hi
        have ht : type = 7 := UInt8.toNat_inj.1 (hn.trans h7)
        simp [IsBlock, ht, hi] at he
      cases hstep with
      | keep _ hgrown => exact ⟨rfl, fun piece => hgrown.find?⟩
      | done hd _ =>
        refine ⟨rfl, fun piece hp => ?_⟩
        rwa [hd.queue, find?_append_cons_ne (hd.index ▸ hother rfl)] at hp
      | @store _ _ piece₀ hd _ _ =>
        refine ⟨rfl, fun piece hp => ?_⟩
        have hne : (piece₀.store (slotOf payload) (payload.drop 8)).index ≠ index :=
          hd.index ▸ hother rfl
        rw [hd.queue, find?_append_cons_ne (hd.index ▸ hother rfl)] at hp
        rwa [find?_append_cons_ne hne]
      | @finish _ _ _ piece₀ hd _ _ hgrown =>
        constructor
        · have hne : (piece₀.store (slotOf payload) (payload.drop 8)).index ≠ index :=
            hd.index ▸ hother rfl
          rw [List.filter_append]
          simp [hne]
        · intro piece hp
          apply hgrown.find?
          rwa [hd.queue, find?_append_cons_ne (hd.index ▸ hother rfl)] at hp
    · unfold handedOf
      rw [hh, hq]
      exact ⟨rfl, fun _ => id⟩
  unfold Collected at h ⊢
  rw [hframe.1]
  split_ifs at h ⊢
  · obtain ⟨⟨piece, hf, hp⟩, hh⟩ := h
    exact ⟨⟨piece, hframe.2 piece hf, hp⟩, hh⟩
  · exact h

/-- The block of the content delivers itself to the piece that waits for it. -/
theorem delivers_block (h32 : index < 2 ^ 32) (hl32 : length < 2 ^ 32) (hpos : 1 ≤ length)
    (hcontent : content.length = length) {b : ℕ × ℕ} (hb : b ∈ blocksOf length) {piece : Piece}
    (hf : s.peer.queue.find? (fun p => p.index = index) = some piece)
    (hp : Partial index length content got piece) :
    ∃ before behind, Delivers s (Message.pieceBlock (UInt32.ofNat index) (UInt32.ofNat b.1)
      (region content b.1 b.2)).payload before piece behind := by
  obtain ⟨hle1, hle⟩ := mem_blocksOf_le hpos b hb
  have hbound := mem_blocksOf_bounds hb
  have hlength : (region content b.1 b.2).length = b.2 := length_region (by omega)
  have hindex : (UInt32.ofNat index).toNat = index := Nat.mod_eq_of_lt h32
  have hbegin : (UInt32.ofNat b.1).toNat = b.1 := by
    have hlt : b.1 < 2 ^ 32 := by omega
    exact Nat.mod_eq_of_lt hlt
  have hpayload : (Message.pieceBlock (UInt32.ofNat index) (UInt32.ofNat b.1)
      (region content b.1 b.2)).payload.length = b.2 + 8 := by
    simp only [Message.payload, List.length_append, length_writeBE32, hlength]
    omega
  obtain ⟨hi, before, behind, hqueue, hfirst⟩ := List.find?_eq_some_iff_append.1 hf
  refine ⟨before, behind, by omega, by omega, hqueue, ?_, ?_, ?_⟩
  · intro p hp
    rw [indexOf_pieceBlock, hindex]
    simpa using hfirst p hp
  · rw [indexOf_pieceBlock, hindex]
    exact hp.index
  · rw [slotOf_pieceBlock, hbegin, hp.numBlocks]
    exact (List.getElem?_eq_some_iff.1 (getElem?_blocksOf_slot hb)).1

/-- A block that had not arrived yet. -/
theorem collected_block (h32 : index < 2 ^ 32) (hl32 : length < 2 ^ 32) (hpos : 1 ≤ length)
    (hcontent : content.length = length) {b : ℕ × ℕ} {rest : List (ℕ × ℕ)}
    (hperm : (got ++ b :: rest).Perm (blocksOf length))
    (h : Collected index length content before got s)
    (hdone : s.torrent.fileManager.pieceDone index = false)
    (hs : s.step sha1 human (blockEvent index content b) = some s') :
    Collected index length content before (got ++ [b]) s' := by
  have hlen := hperm.length_eq
  rw [List.length_append, List.length_cons] at hlen
  have hb : b ∈ blocksOf length := hperm.subset (by simp)
  unfold Collected at h
  rw [if_pos (by omega)] at h
  obtain ⟨⟨piece, hf, hp⟩, hhanded⟩ := h
  obtain ⟨before', behind', hd'⟩ := delivers_block h32 hl32 hpos hcontent hb hf hp
  have hslot : slotOf (Message.pieceBlock (UInt32.ofNat index) (UInt32.ofNat b.1)
      (region content b.1 b.2)).payload = b.1 / maxRequestSize := by
    have hbound := mem_blocksOf_bounds hb
    have hlt : b.1 < 2 ^ 32 := by omega
    have hbegin : (UInt32.ofNat b.1).toNat = b.1 := Nat.mod_eq_of_lt hlt
    rw [slotOf_pieceBlock, hbegin]
  have hstored := hp.store hb
  rcases step_queue hs with ⟨type, payload, he, hstep⟩ | ⟨hno, -⟩
  · obtain ⟨rfl, rfl⟩ := Event.message.inj he
    rw [show (7 : UInt8).toNat = 7 from rfl] at hstep
    generalize hq : s'.peer.queue = queue at hstep
    generalize hh : s'.peer.handed = handed at hstep
    unfold Collected handedOf
    rw [hq, hh, List.length_append, List.length_singleton]
    cases hstep with
    | keep hno _ => exact absurd hd' (hno rfl _ _ _)
    | done hd hdone' =>
      rw [hd'.unique hd, hp.index, hdone] at hdone'
      cases hdone'
    | @store before₁ behind₁ piece₁ hd _ hmore =>
      obtain rfl := hd'.unique hd
      rw [hp.currentBlocks, hp.numBlocks] at hmore
      rw [hslot, drop_pieceBlock]
      rw [if_pos (by omega)]
      refine ⟨⟨_, ?_, hstored⟩, hhanded⟩
      have hfirst : before₁.find? (fun p => p.index = index) = none := by
        rw [List.find?_eq_none]
        intro p hp₁
        have := hd.first p hp₁
        rw [← hd.index, hp.index] at this
        simpa using this
      rw [List.find?_append, hfirst, Option.none_or, List.find?_cons_of_pos]
      simpa using hstored.index
    | @finish before₁ behind₁ queue piece₁ hd _ hlast hgrown =>
      obtain rfl := hd'.unique hd
      rw [hp.currentBlocks, hp.numBlocks] at hlast
      rw [hslot, drop_pieceBlock]
      rw [if_neg (by omega)]
      have hrest : rest = [] := List.eq_nil_of_length_eq_zero (by omega)
      have hall : ∀ c ∈ blocksOf length, c ∈ got ++ [b] := by
        intro c hc
        have := hperm.symm.subset hc
        rwa [hrest] at this
      have hdata := hstored.data_eq hall hcontent
      rw [List.filter_append, List.map_append]
      unfold handedOf at hhanded
      rw [hhanded]
      simp [hstored.index, hdata]
  · exact absurd rfl (hno _ _)

/-- A run of events whose blocks for the piece are, in this order, the blocks `rest`. -/
theorem collected_run (h32 : index < 2 ^ 32) (hl32 : length < 2 ^ 32) (hpos : 1 ≤ length)
    (hcontent : content.length = length) {events : List Event} :
    ∀ {s t : Session} (got rest more : List (ℕ × ℕ)),
      (got ++ (rest ++ more)).Perm (blocksOf length) →
      events.filter (IsBlock index) = rest.map (blockEvent index content) →
      Collected index length content before got s →
      Runs.Meets (Session.step sha1 human)
        (fun s _ => s.torrent.fileManager.pieceDone index = false) s events →
      Runs.run (Session.step sha1 human) s events = some t →
      Collected index length content before (got ++ rest) t := by
  induction events with
  | nil =>
    intro s t got rest more _ hblocks h _ hr
    cases hr
    rw [List.filter_nil, eq_comm, List.map_eq_nil_iff] at hblocks
    rwa [hblocks, List.append_nil]
  | cons e events ih =>
    intro s t got rest more hperm hblocks h hm hr
    obtain ⟨s', hs', hr'⟩ := Runs.run_cons_eq_some.1 hr
    cases he : IsBlock index e with
    | false =>
      rw [List.filter_cons_of_neg (by simp [he])] at hblocks
      exact ih got rest more hperm hblocks (collected_other h hs' he) (hm.2 s' hs') hr'
    | true =>
      rw [List.filter_cons_of_pos he] at hblocks
      cases rest with
      | nil => cases hblocks
      | cons b rest =>
        rw [List.map_cons, List.cons.injEq] at hblocks
        obtain ⟨rfl, hblocks⟩ := hblocks
        have hstep := collected_block h32 hl32 hpos hcontent hperm h hm.1 hs'
        have hrun := ih (got ++ [b]) rest more (by simpa using hperm) hblocks hstep (hm.2 s' hs') hr'
        simpa using hrun

end Run

section Reassembly

variable {sha1 : Bytes → Sha1sum} {human : ℕ → String} {s : Session} {index length : ℕ}
  {content : Bytes}

/-- **Any-order reassembly.** The Requests for a piece of `1` to `2 ^ 32 - 1` bytes follow each
other from `0` to its length, each of `1` to `maxRequestSize` bytes, and are as many as the slots
of the new piece, the rounded up quotient. And over events whose PieceBlocks for the newly queued
piece answer each Request once, in any order, while the piece is not done, no message gets stuck,
nothing is handed over for the piece before the last answer, and with it the content, once. -/
theorem reassembly (h32 : index < 2 ^ 32) (hpos : 1 ≤ length) (hl32 : length < 2 ^ 32)
    (hcontent : content.length = length)
    (hsize : s.torrent.fileManager.pieceSize index = some length) :
    (s.peer.peerChoked = false → requestPiece s index = some { s with peer := { s.peer with
        wire := s.peer.wire ++ (blocksOf length).map fun b =>
          .sent (.request (UInt32.ofNat index) (UInt32.ofNat b.1) (UInt32.ofNat b.2)) } }) ∧
    Tiles 0 (blocksOf length) length ∧
    (∀ b ∈ blocksOf length, 1 ≤ b.2 ∧ b.2 ≤ maxRequestSize) ∧
    (blocksOf length).length = (Piece.new index length).numBlocks ∧
    (blocksOf length).length = ⌈(length : ℚ) / maxRequestSize⌉₊ ∧
    ∀ order : List (ℕ × ℕ), order.Perm (blocksOf length) → ∀ events : List Event,
      s.peer.queue.filter (fun p => p.index = index) = [Piece.new index length] →
      events.filter (IsBlock index) = order.map (blockEvent index content) →
      Runs.Meets (Session.step sha1 human)
        (fun s _ => s.torrent.fileManager.pieceDone index = false) s events →
      ∀ first last t, events = first ++ last →
        Runs.run (Session.step sha1 human) s first = some t →
        (∀ type payload, t.peer.connected = true →
          (t.step sha1 human (.message type payload)).isSome = true) ∧
        handedOf index t = handedOf index s ++
          if (first.filter (IsBlock index)).length = (blocksOf length).length then [content]
          else [] := by
  refine ⟨?_, tiles_blocksOf length, mem_blocksOf_le hpos, (numBlocks_new hpos hl32 index).symm,
    length_blocksOf_eq_ceil hpos, ?_⟩
  · intro hchoke
    rw [requestPiece_eq hchoke, hsize]
    rfl
  · intro order horder events hqueue hblocks hdone first last t hsplit hr
    subst hsplit
    constructor
    · intro type payload hconnected
      rw [Session.step, if_pos hconnected]
      apply isSome_handleMessage
      rw [(sameLayout_run hr).metainfo]
      exact FileManager.pieceLength_ne_zero _ hsize hpos
    rw [List.filter_append, List.append_eq_map_iff] at hblocks
    obtain ⟨order₁, order₂, rfl, hfirst, -⟩ := hblocks
    have hnew : Collected index length content (handedOf index s) [] s := by
      have hlen : 0 < (blocksOf length).length := by
        rw [length_blocksOf_eq_div hpos]
        simp only [maxRequestSize]
        omega
      unfold Collected
      rw [List.length_nil, if_pos hlen]
      refine ⟨⟨_, ?_, partial_new hpos hl32⟩, rfl⟩
      rw [← List.head?_filter, hqueue]
      rfl
    have hend := collected_run h32 hl32 hpos hcontent [] order₁ order₂ horder hfirst.symm hnew
      hdone.prefix hr
    have hle := horder.length_eq
    rw [List.length_append] at hle
    rw [← hfirst, List.length_map]
    unfold Collected at hend
    rw [List.nil_append] at hend
    by_cases hall : order₁.length = (blocksOf length).length
    · rw [if_pos hall]
      rwa [if_neg (by omega)] at hend
    · rw [if_neg hall, List.append_nil]
      rw [if_pos (by omega)] at hend
      exact hend.2

end Reassembly

/-- The content of a piece of two blocks, the second of one byte. -/
def twoBlocksContent : Bytes := List.replicate 16384 5 ++ [6]

/-- The piece is in the queue. -/
def twoBlocksQueued : Session :=
  ⟨onePiece 16385, { Peer.new 1 (fun _ => 0) 1 with queue := [Piece.new 0 16385] }⟩

/-- The peer unchokes us and sends the second block. -/
def secondBlockSent : List Event := [.message 1 [], blockEvent 0 twoBlocksContent (16384, 1)]

/-- The first block arrives behind the second. -/
theorem reassembly_twoBlocks :
    (Runs.run (Session.step (fun _ _ => 0) toString) twoBlocksQueued
      (secondBlockSent ++ [blockEvent 0 twoBlocksContent (0, 16384)])).map (handedOf 0) =
        some [twoBlocksContent] := by
  have hlength : twoBlocksContent.length = 16385 := by
    rw [twoBlocksContent, List.length_append, List.length_replicate]
    rfl
  have hfirst : (Runs.run (Session.step (fun _ _ => 0) toString) twoBlocksQueued
      secondBlockSent).any (fun s => s.peer.connected &&
        !s.torrent.fileManager.pieceDone 0) = true := by
    decide +kernel
  obtain ⟨s, hs, hany⟩ := (Option.any_eq_true _ _).1 hfirst
  simp only [Bool.and_eq_true, Bool.not_eq_true'] at hany
  have hdone : Runs.Meets (Session.step (fun _ _ => 0) toString)
      (fun s _ => s.torrent.fileManager.pieceDone 0 = false) twoBlocksQueued
      (secondBlockSent ++ [blockEvent 0 twoBlocksContent (0, 16384)]) := by
    refine .append ⟨by decide +kernel, fun s' hs' => ⟨?_, fun _ _ => trivial⟩⟩ fun t ht => ?_
    · cases hs'
      decide +kernel
    · cases hs.symm.trans ht
      exact ⟨hany.2, fun _ _ => trivial⟩
  have hblocks :
      (secondBlockSent ++ [blockEvent 0 twoBlocksContent (0, 16384)]).filter (IsBlock 0) =
        [(16384, 1), (0, 16384)].map (blockEvent 0 twoBlocksContent) := by
    have hsecond : IsBlock 0 (blockEvent 0 twoBlocksContent (16384, 1)) = true := by decide +kernel
    have hlast : IsBlock 0 (blockEvent 0 twoBlocksContent (0, 16384)) = true := by decide +kernel
    change List.filter (IsBlock 0) (_ :: _ :: _ :: []) = _
    rw [List.filter_cons_of_neg (by decide), List.filter_cons_of_pos hsecond,
      List.filter_cons_of_pos hlast]
    rfl
  have hall := (@reassembly (fun _ _ => 0) toString twoBlocksQueued 0 16385 twoBlocksContent
    (by decide) (by decide) (by decide) hlength (by decide +kernel)).2.2.2.2.2
    [(16384, 1), (0, 16384)] (by decide +kernel) _ rfl hblocks hdone
  -- the last block is handled, as no message gets stuck
  obtain ⟨t, ht⟩ := Option.isSome_iff_exists.1 ((hall secondBlockSent _ s rfl hs).1 7
    (Message.pieceBlock 0 0 (region twoBlocksContent 0 16384)).payload hany.1)
  have hrun : Runs.run (Session.step (fun _ _ => 0) toString) twoBlocksQueued
      (secondBlockSent ++ [blockEvent 0 twoBlocksContent (0, 16384)]) = some t := by
    rw [Runs.run_append, hs]
    exact Runs.run_cons_eq_some.2 ⟨t, ht, rfl⟩
  rw [hrun, Option.map_some, (hall _ [] t (List.append_nil _).symm hrun).2, hblocks,
    if_pos (by decide +kernel)]
  rfl

end Peer

end CTorrent
