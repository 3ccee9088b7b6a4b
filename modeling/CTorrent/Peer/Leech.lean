import CTorrent.FileManager.Growing
import CTorrent.FileManager.NextPiece
import CTorrent.Peer.Bitfield
import CTorrent.Peer.Finished
import CTorrent.Peer.Honest
import CTorrent.Peer.Reassembly
import CTorrent.Peer.Swarm

/-!
# A leecher and a seeder

A torrent with one peer, a seeder: it tells us once that it has all pieces, unchokes us once, and
answers the Requests that it has received in any order and at any time. The messages of either side
arrive in the order in which they were sent, and between any two of them the parts of our handler
and the worker take their steps.

* `Answer`, `Leech`, `Leech.step`: the two parties and the channels;
* `Opened`: the file manager before the download; `Saving`: while it goes on;
* `Saving.check`, `Saving.push`, `Saving.work`: what becomes of a piece that is complete;
* `Saving.requestPiece`: the choice of a piece.
-/

namespace CTorrent

open Peer Splice

/-! ### The parties -/

/-- What the seeder sends. -/
inductive Answer where
  | bitfield
  | unchoke
  | block (info : PieceBlockInfo)
  deriving DecidableEq

/-- The type and the payload. `bits` is the payload of the Bitfield. -/
def Answer.wire (m : TorrentMeta) (orig bits : Bytes) : Answer → UInt8 × Bytes
  | .bitfield => (5, bits)
  | .unchoke => (1, [])
  | .block info => (7, (Message.pieceBlock (UInt32.ofNat info.index) (UInt32.ofNat info.begin)
      (region orig (info.index * m.pieceLength + info.begin) info.length)).payload)

/-- Our torrent and the seeder, and what is on its way between them. -/
structure Leech where
  swarm : Swarm
  remote : Remote := {}
  greeted : Bool := false
  unchoked : Bool := false
  toSeeder : List Message := []
  toUs : List Answer := []

/-- A step of one of the parties. -/
inductive LeechAction where
  /-- The first message on its way to us arrives. -/
  | deliver
  /-- The seeder processes the first message on its way to it. -/
  | process
  /-- The seeder sends its Bitfield. -/
  | greet
  /-- The seeder unchokes us. -/
  | unchoke
  /-- The seeder answers a Request. -/
  | answer (info : PieceBlockInfo)
  /-- A part of our handler behind the last block of a piece. -/
  | check
  | push
  | select
  /-- The worker serves the front of the queue of writes. -/
  | work

namespace Leech

variable (sha1 : Bytes → Sha1sum) (human : ℕ → String) (m : TorrentMeta) (orig bits : Bytes)
  (l : Leech)

/-- What has passed over the connection. -/
def wire (s : Swarm) : List Wire := (s.world.peers.head?.map Peer.wire).getD []

/-- Our part after a step; what we sent is on its way. -/
def advance (a : SwarmAction) (toUs : List Answer) : Option Leech :=
  (l.swarm.step sha1 human a).map fun s =>
    { l with
      swarm := s
      toUs := toUs
      toSeeder := l.toSeeder ++ sentMessages ((wire s).drop (wire l.swarm).length) }

/-- One step. -/
def step : LeechAction → Option Leech
  | .deliver =>
      match l.toUs with
      | [] => none
      | r :: rest => l.advance sha1 human
          (.message 0 (r.wire m orig bits).1 (r.wire m orig bits).2) rest
  | .process =>
      match l.toSeeder with
      | [] => none
      | msg :: rest => some { l with toSeeder := rest, remote := l.remote.process msg }
  | .greet =>
      if l.greeted then none
      else some { l with greeted := true, toUs := l.toUs ++ [.bitfield] }
  | .unchoke =>
      if l.unchoked then none
      else some { l with unchoked := true, toUs := l.toUs ++ [.unchoke] }
  | .answer info =>
      if info ∈ l.remote.pending then
        some { l with
          remote := { l.remote with pending := l.remote.pending.erase info }
          toUs := l.toUs ++ [.block info] }
      else none
  | .check => l.advance sha1 human .check l.toUs
  | .push => l.advance sha1 human .push l.toUs
  | .select => l.advance sha1 human .select l.toUs
  | .work => l.advance sha1 human (.work fun _ n => n) l.toUs

/-- The handshake of a connection that we made is complete, and the seeder is registered. -/
def connect (t : Torrent) (ip : UInt32) (heap : ℤ → UInt8) (stack : ℕ → UInt8) : Leech :=
  let swarm : Swarm :=
    { world := World.register ⟨t, []⟩ (t.addPeer ip 0) ip heap stack }
  { swarm := swarm, toSeeder := sentMessages (wire swarm) }

/-- The first connection of a torrent. -/
def start (fm : FileManager) (ip : UInt32) (heap : ℤ → UInt8) (stack : ℕ → UInt8) : Leech :=
  connect { fileManager := fm } ip heap stack

end Leech

/-- A block for a piece that is not done completes the piece if it is the last. -/
theorem Peer.Delivers.lastBlock_eq {s : Session} {payload : Bytes} {before behind : List Peer.Piece}
    {piece : Peer.Piece} (h : Delivers s payload before piece behind)
    (hdone : s.torrent.fileManager.pieceDone piece.index = false) :
    lastBlock s 7 payload = if piece.currentBlocks + 1 = piece.numBlocks
      then some (before.length, piece.store (slotOf payload) (payload.drop 8)) else none := by
  have hsize := h.size
  have hle := h.le
  have hguard : ¬((7 : UInt8).toNat ≠ 7 ∨ payload.length < 9 ∨ (payload.drop 8).length = 0 ∨
      (payload.drop 8).length > maxRequestSize) := by
    have h7 : (7 : UInt8).toNat = 7 := rfl
    rw [List.length_drop]
    omega
  have hk : s.peer.queue.findIdx (fun p => p.index = (readBE32 payload 0).toNat) =
      before.length := by
    have hfirst : ∀ p ∈ before, ¬p.index = (readBE32 payload 0).toNat := h.first
    have hindex : piece.index = (readBE32 payload 0).toNat := h.index
    rw [h.queue, List.findIdx_append, List.findIdx_eq_length_of_false (by simpa using hfirst)]
    simp [List.findIdx_cons, hindex]
  have hget : s.peer.queue[before.length]? = some piece := by simp [h.queue]
  have hslot : ¬((readBE32 payload 4).toNat / maxRequestSize ≥ piece.numBlocks ∨
      s.torrent.fileManager.pieceDone piece.index = true) := by
    rw [hdone, not_or]
    exact ⟨Nat.not_le.2 h.slot, Bool.false_ne_true⟩
  rw [lastBlock]
  simp only [hk]
  rw [if_neg hguard, hget, Option.bind_some, if_neg hslot]
  rfl

/-- **A block of the only piece in the queue.** It is stored; the last one completes the piece. -/
theorem Peer.block_cases (sha1 : Bytes → Sha1sum) (human : ℕ → String) {s : Session}
    {index length : ℕ} {content : Bytes} {got : List (ℕ × ℕ)} {piece : Peer.Piece} {b : ℕ × ℕ}
    (hi : index < 2 ^ 32) (hl : length < 2 ^ 32) (hpos : 1 ≤ length)
    (hcontent : content.length = length) (hqueue : s.peer.queue = [piece])
    (hpart : Partial index length content got piece) (hb : b ∈ blocksOf length)
    (hdone : s.torrent.fileManager.pieceDone index = false) {payload : Bytes}
    (hpayload : payload = (Message.pieceBlock (UInt32.ofNat index) (UInt32.ofNat b.1)
      (region content b.1 b.2)).payload) :
    ∃ piece', Partial index length content (got ++ [b]) piece' ∧
      if got.length + 1 = (blocksOf length).length then lastBlock s 7 payload = some (0, piece')
      else lastBlock s 7 payload = none ∧ ∀ r, handleMessage sha1 human s 7 payload = some r →
        r = { receive s 7 payload with
          peer := { (receive s 7 payload).peer with queue := [piece'] } } := by
  have hbound := mem_blocksOf_bounds hb
  obtain ⟨before, behind, hd⟩ := delivers_block hi hl hpos hcontent hb
    (show s.peer.queue.find? (fun p => p.index = index) = some piece by
      simp [hqueue, hpart.index]) hpart
  rw [← hpayload] at hd
  obtain ⟨rfl, rfl⟩ : before = [] ∧ behind = [] := by
    have hlength := congrArg List.length (hqueue.symm.trans hd.queue)
    simp only [List.length_append, List.length_cons, List.length_nil] at hlength
    exact ⟨List.eq_nil_of_length_eq_zero (by omega), List.eq_nil_of_length_eq_zero (by omega)⟩
  have hslot : slotOf payload = b.1 / maxRequestSize := by
    have hbegin : (UInt32.ofNat b.1).toNat = b.1 :=
      Nat.mod_eq_of_lt (show b.1 < 2 ^ 32 by omega)
    rw [hpayload, slotOf_pieceBlock, hbegin]
  have hdrop : payload.drop 8 = region content b.1 b.2 := by rw [hpayload, drop_pieceBlock]
  rw [← hpart.index] at hdone
  have hlast := hd.lastBlock_eq hdone
  rw [hpart.currentBlocks, hpart.numBlocks] at hlast
  refine ⟨piece.store (slotOf payload) (payload.drop 8), ?_, ?_⟩
  · rw [hslot, hdrop]
    exact hpart.store hb
  split_ifs with hnum
  · rw [hlast, if_pos hnum]
    rfl
  · refine ⟨by rw [hlast, if_neg hnum], fun r hr => ?_⟩
    have houtcome : Peer.Outcome sha1 (receive s 7 payload) payload 7 r := handleMessage_outcome hr
    have hd' : Delivers (receive s 7 payload) payload [] piece [] := hd.of_queue rfl
    cases houtcome with
    | error _ hrejects => exact absurd hrejects hd'.not_rejects
    | done hd₁ hdone₁ =>
      rw [hd'.unique hd₁] at hdone₁
      exact absurd (hdone.symm.trans hdone₁) Bool.false_ne_true
    | finish hd₁ hdone₁ hlast₁ hfinish =>
      rw [hd'.unique hd₁, hpart.currentBlocks, hpart.numBlocks] at hlast₁
      exact absurd hlast₁ hnum
    | @store before₁ behind₁ piece₁ hd₁ _ _ =>
      obtain rfl := hd'.unique hd₁
      have hlength := congrArg List.length (hd'.queue.symm.trans hd₁.queue)
      simp only [List.length_append, List.length_cons, List.length_nil] at hlength
      obtain rfl := List.eq_nil_of_length_eq_zero (show before₁.length = 0 by omega)
      obtain rfl := List.eq_nil_of_length_eq_zero (show behind₁.length = 0 by omega)
      rfl
    | unknown h => exact absurd h (by decide)

/-! ### The file manager -/

namespace FileManager

variable (sha1 : Bytes → Sha1sum) (m : TorrentMeta) (orig : Bytes) (heap : ℤ → UInt8)

/-- The content of a piece. -/
def contentOf (i : ℕ) : Bytes := region orig (i * m.pieceLength) (pieceLen m i)

/-- What holds while pieces of the original arrive from the address `from_`: completed pieces are on
disk, and those in the queue of writes are pending. -/
structure Saving (from_ : ℕ) (fm : FileManager) : Prop where
  metainfo : fm.metainfo = m
  hashes : fm.pieces.map Piece.hash = m.sha1sums
  clean : Bitset.Clean heap m.sha1sums.length fm.completedBits
  stored : Stored m orig fm
  writes : ∀ w ∈ fm.writeRequests, w.index < m.sha1sums.length ∧ w.from_ = from_ ∧
    w.data = contentOf m orig w.index ∧ fm.completedBits.test w.index = false
  nodup : (fm.writeRequests.map WriteRequest.index).Nodup
  pending : ∀ i < m.sha1sums.length,
    fm.pendingBits.test i = true ↔ i ∈ fm.writeRequests.map WriteRequest.index

/-- What holds before a download: nothing is on its way to the disk, and no piece was chosen. -/
structure Opened (fm : FileManager) : Prop where
  metainfo : fm.metainfo = m
  hashes : fm.pieces.map Piece.hash = m.sha1sums
  clean : Bitset.Clean heap m.sha1sums.length fm.completedBits
  stored : Stored m orig fm
  writes : fm.writeRequests = []
  calls : fm.calls = []
  pending : ∀ i < m.sha1sums.length, fm.pendingBits.test i = false
  chosen : ∀ i < m.sha1sums.length, fm.rank i = ⊥

variable {sha1 m orig heap} {from_ : ℕ} {fm fm' : FileManager}

theorem Opened.saving (h : Opened m orig heap fm) (from_ : ℕ) : Saving m orig heap from_ fm where
  metainfo := h.metainfo
  hashes := h.hashes
  clean := h.clean
  stored := h.stored
  writes w hw := by
    rw [h.writes] at hw
    cases hw
  nodup := by
    rw [h.writes]
    exact List.nodup_nil
  pending i hi := by
    rw [h.pending i hi, h.writes]
    simp

/-- A new torrent, over files that hold anything. -/
theorem opened_register (hm : Consistent m) (heap heap' : ℤ → UInt8) {files : List TorrentFile}
    (hf : files.map TorrentFile.info = m.files)
    (hle : ∀ f ∈ files, f.fp.content.length ≤ f.info.length) :
    Opened m orig heap (register heap heap' m files) where
  metainfo := rfl
  hashes := by simp [register, Function.comp_def]
  clean := Bitset.clean_construct heap _
  stored := stored_register hm heap heap' hf hle
  writes := rfl
  calls := rfl
  pending i hi := Bitset.test_construct heap' hi (hi.trans hm.count_lt)
  chosen i hi := by
    have hget : (register heap heap' m files).pieces[i]? = some { hash := m.sha1sums[i] } := by
      simp [register, hi]
    simp [rank, hget]

namespace Saving

theorem length (h : Saving m orig heap from_ fm) : fm.pieces.length = m.sha1sums.length := by
  rw [← h.hashes, List.length_map]

/-- A piece that is neither in the queue of writes nor completed. -/
theorem pending_eq_false (h : Saving m orig heap from_ fm) {i : ℕ} (hi : i < m.sha1sums.length)
    (hq : i ∉ fm.writeRequests.map WriteRequest.index) : fm.pendingBits.test i = false := by
  rw [← Bool.not_eq_true, h.pending i hi]
  exact hq

/-- What matters is not changed. -/
theorem of_eq (h : Saving m orig heap from_ fm) (hmeta : fm'.metainfo = fm.metainfo)
    (hhash : fm'.pieces.map Piece.hash = fm.pieces.map Piece.hash)
    (hc : fm'.completedBits = fm.completedBits) (hp : fm'.pendingBits = fm.pendingBits)
    (hf : fm'.files = fm.files) (hw : fm'.writeRequests = fm.writeRequests) :
    Saving m orig heap from_ fm' where
  metainfo := hmeta.trans h.metainfo
  hashes := hhash.trans h.hashes
  clean := hc ▸ h.clean
  stored := h.stored.of_eq hf hc
  writes := by
    rw [hw, hc]
    exact h.writes
  nodup := hw ▸ h.nodup
  pending := by
    rw [hw, hp]
    exact h.pending

/-! ### A piece that is complete -/

section Steps

variable (hm : Consistent m) (h : Saving m orig heap from_ fm)
include hm h

omit hm in
/-- The content of a piece passes the test. -/
theorem check (hpass : ∀ i < m.sha1sums.length, Passes sha1 m (i, contentOf m orig i)) {i : ℕ}
    (hi : i < m.sha1sums.length) (hq : fm.pendingBits.test i = false) (from' : ℕ) :
    ∃ checks, fm.writeCheck sha1 i from' (contentOf m orig i) = some (true, { fm with
      checks := checks
      calls := fm.calls ++ [⟨i, from', contentOf m orig i⟩] }) := by
  have hin : fm.intact i = true := by
    rw [intact, h.length]
    exact decide_eq_true hi
  have hok : fm.isWriteEligible sha1 i (contentOf m orig i) = some true :=
    (isWriteEligible_iff h.hashes).2 ⟨hq, hpass i hi⟩
  refine ⟨fm.checks ++ [(i, contentOf m orig i)], ?_⟩
  rw [writeCheck, FileManager.check, hok, hin, hq]
  rfl

omit h in
/-- The bits behind `push_write`. -/
theorem test_pushWrite {w : WriteRequest} (hw : w.index < m.sha1sums.length) {i : ℕ}
    (hi : i < m.sha1sums.length) :
    (fm.pushWrite w).pendingBits.test i = (decide (i = w.index) || fm.pendingBits.test i) := by
  have hN := hm.count_lt
  have hmod : w.index % 2 ^ 32 = i % 2 ^ 32 ↔ i = w.index := by omega
  rw [pushWrite, Bitset.test_set, decide_eq_decide.2 hmod]

/-- A piece of the original is pushed. -/
theorem push {w : WriteRequest} (hw : w.index < m.sha1sums.length) (hfrom : w.from_ = from_)
    (hdata : w.data = contentOf m orig w.index) (hc : fm.completedBits.test w.index = false)
    (hp : fm.pendingBits.test w.index = false) : Saving m orig heap from_ (fm.pushWrite w) where
  metainfo := h.metainfo
  hashes := h.hashes
  clean := h.clean
  stored := h.stored.of_eq rfl rfl
  writes v hv := by
    rcases List.mem_append.1 hv with hv | hv
    · exact h.writes v hv
    · rw [List.mem_singleton.1 hv]
      exact ⟨hw, hfrom, hdata, hc⟩
  nodup := by
    have hnot : w.index ∉ fm.writeRequests.map WriteRequest.index := by
      rw [← h.pending w.index hw, hp]
      exact Bool.false_ne_true
    change ((fm.writeRequests ++ [w]).map WriteRequest.index).Nodup
    rw [List.map_append, List.nodup_append]
    refine ⟨h.nodup, List.nodup_singleton _, fun a ha b hb => ?_⟩
    rw [List.map_singleton, List.mem_singleton] at hb
    rintro rfl
    exact hnot (hb ▸ ha)
  pending i hi := by
    change _ ↔ i ∈ (fm.writeRequests ++ [w]).map WriteRequest.index
    rw [test_pushWrite hm hw hi, Bool.or_eq_true, decide_eq_true_iff, h.pending i hi,
      List.map_append, List.mem_append, or_comm]
    simp

omit h in
/-- The bits behind `process_write`. -/
theorem test_processWrite (wrote : TorrentFileInfo → ℕ → ℕ) {w : WriteRequest}
    (hw : w.index < m.sha1sums.length) {i : ℕ} (hi : i < m.sha1sums.length) :
    (fm.processWrite wrote w).completedBits.test i =
        (decide (i = w.index) || fm.completedBits.test i) ∧
      (fm.processWrite wrote w).pendingBits.test i =
        (!decide (i = w.index) && fm.pendingBits.test i) := by
  have hN := hm.count_lt
  have hmod : w.index % 2 ^ 32 = i % 2 ^ 32 ↔ i = w.index := by omega
  rw [processWrite, complete]
  exact ⟨by rw [Bitset.test_set, decide_eq_decide.2 hmod],
    by rw [Bitset.test_clear, decide_eq_decide.2 hmod]⟩

/-- The front of the queue of writes is served. -/
theorem work (ho : orig.length = m.totalSize) {wrote : TorrentFileInfo → ℕ → ℕ}
    (hwrote : Complete wrote) {w : WriteRequest} {ws : List WriteRequest}
    (hq : fm.writeRequests = w :: ws) :
    Saving m orig heap from_ { fm.processWrite wrote w with writeRequests := ws } := by
  obtain ⟨hi, -, hdata, hc⟩ := h.writes w (hq ▸ List.mem_cons_self)
  have hnodup := h.nodup
  rw [hq, List.map_cons, List.nodup_cons] at hnodup
  have hstored := h.stored.processWrite hm ho h.metainfo hwrote hi hdata
  refine ⟨h.metainfo, h.hashes, ?_, hstored.of_eq rfl rfl, fun v hv => ?_, hnodup.2,
    fun i hi' => ?_⟩
  · exact h.clean.apply (show (Bitset.Op.set w.index).index < m.sha1sums.length from hi)
  · obtain ⟨hv', hfrom, hdata', hcv⟩ := h.writes v (hq ▸ List.mem_cons_of_mem _ hv)
    refine ⟨hv', hfrom, hdata', ?_⟩
    have hne : v.index ≠ w.index := by
      intro heq
      exact hnodup.1 (heq ▸ List.mem_map_of_mem hv)
    change (fm.processWrite wrote w).completedBits.test v.index = false
    rw [(test_processWrite hm wrote hi hv').1, decide_eq_false hne, hcv]
    rfl
  · change (fm.processWrite wrote w).pendingBits.test i = true ↔ i ∈ ws.map WriteRequest.index
    rw [(test_processWrite hm wrote hi hi').2, Bool.and_eq_true, Bool.not_eq_true',
      decide_eq_false_iff_not, h.pending i hi', hq, List.map_cons, List.mem_cons]
    constructor
    · rintro ⟨hne, heq | hmem⟩
      · exact absurd heq hne
      · exact hmem
    · exact fun hmem => ⟨fun heq => hnodup.1 (heq ▸ hmem), Or.inr hmem⟩

/-- **The choice of a piece.** As long as there is a piece that is neither completed nor pending,
such a piece is chosen and, if the peer has not choked us, requested. No such piece may have been
chosen too often. -/
theorem requestPiece {t : Torrent} {p : Peer} (ht : t.fileManager = fm)
    (hchosen : ∀ i < m.sha1sums.length, fm.completedBits.test i = false →
      fm.pendingBits.test i = false → fm.rank i < ((2 ^ 31 - 1 : ℤ) : WithBot ℤ))
    (hbits : ∀ i < m.sha1sums.length, p.bitset.test i = true) :
    (∃ i < m.sha1sums.length, fm.completedBits.test i = false ∧ fm.pendingBits.test i = false ∧
      Torrent.requestPiece ⟨t, p⟩ = some ⟨{ t with fileManager := fm.raise i }, { p with
        amInterested := true
        queue := p.queue ++ [Peer.Piece.new i (pieceLen m i)]
        wire := p.wire ++ .sent .interested ::
          if p.peerChoked then [] else requests i (pieceLen m i) }⟩) ∨
    (∀ i < m.sha1sums.length, fm.completedBits.test i = false →
      fm.pendingBits.test i ≠ false) ∧ Torrent.requestPiece ⟨t, p⟩ = some ⟨t, p⟩ := by
  subst ht
  have hN := hm.count_lt
  rcases getNextPiece_eq t.fileManager p.bitset.test with ⟨i, hi, heq⟩ | ⟨hnone, heq⟩
  · obtain ⟨hc, hp, -⟩ := hi.1.mem
    have hlt : i < m.sha1sums.length := h.length ▸ hi.1.lt
    refine Or.inl ⟨i, hlt, hc, hp, ?_⟩
    have hmod : i % 2 ^ 32 = i := Nat.mod_eq_of_lt (by omega)
    have hsize : (t.fileManager.raise i).pieceSize i = some (pieceLen m i) := by
      refine hm.tiled.pieceSize_eq h.metainfo ?_ hlt
      rw [raise, List.length_modify, h.length]
    rw [Torrent.requestPiece]
    simp only [heq]
    rw [if_pos (by omega), hmod, sendPieceRequest_eq, hsize]
    rfl
  · refine Or.inr ⟨fun i hi hc hp => ?_, ?_⟩
    · -- the first piece of the least rank would be the next
      obtain ⟨k, hk⟩ := Leftmost.exists_of_mem t.fileManager.rank (h.length.symm ▸ hi)
        (show t.fileManager.Wanted p.bitset.test i from ⟨hc, hp, hbits i hi⟩)
      exact hnone k ⟨hk, hchosen k (h.length ▸ hk.lt) hk.mem.1 hk.mem.2.1⟩
    · rw [Torrent.requestPiece]
      simp only [heq]
      rfl

omit hm in
/-- The torrent is finished only if all pieces are completed. -/
theorem test_of_isFinished (heven : m.sha1sums.length % 2 = 0 ∨ heap m.sha1sums.length = 0)
    {t : Torrent} (ht : t.fileManager = fm) (hfin : t.isFinished = true) :
    ∀ i < m.sha1sums.length, fm.completedBits.test i = true := by
  have hextra : m.sha1sums.length % 2 *
      Popcount.bitCount (heap m.sha1sums.length).toNat = 0 := by
    rcases heven with heven | hzero
    · rw [heven, Nat.zero_mul]
    · rw [hzero]
      rfl
  rw [Torrent.isFinished, decide_eq_true_iff, ht, h.length, h.clean.count_eq, hextra, Nat.add_zero,
    eq_comm, Nat.count_iff_forall] at hfin
  exact fun i hi => (hfin i hi).2

end Steps

end Saving

end FileManager

end CTorrent
