import CTorrent.FileManager.Download
import CTorrent.FileManager.WriteQueue
import CTorrent.Peer.Swarm
import Mathlib.Algebra.Order.BigOperators.Group.List

/-!
# How often a piece is written

`handleMessage` asks for the completed bit of a piece, `writePieceBlock` later for the pending bit
only. Between the two tests the worker may turn the one into the other, and then a piece that is
on disk already is accepted again.

* `Unraced`: a test does not let a piece through that has been completed since;
* `Swarm.OnceInv`, `onceInv_step`: the accepted indices are those written, queued and being pushed;
* `Fits`: the lengths of the pieces add up to no more than the total size;
* `writtenOnce_iff`: the runs in which every piece is accepted and written at most once.
-/

namespace CTorrent

namespace Swarm

variable (sha1 : Bytes → Sha1sum) (human : ℕ → String)

/-- `is_write_eligible` does not let a piece through whose completed bit is set: the worker has not
completed the piece between the two tests, or the data fails the test. -/
def Unraced (s : Swarm) : SwarmAction → Prop
  | .check => ∀ c, s.callAt .checking = some c → s.fm.completedBits.test c.piece.index = true →
      s.fm.isWriteEligible sha1 c.piece.index c.piece.data ≠ some true
  | _ => True

/-- No index is accepted twice, for none `onPieceWriteComplete` runs twice, and no more bytes are
counted as downloaded than there are. -/
structure WrittenOnce (total : ℕ) (s : Swarm) : Prop where
  accepted : s.accepted.Nodup
  written : s.written.Nodup
  downloaded : s.world.torrent.downloadedBytes ≤ total

/-- The indices in the queue of writes. -/
def queued (s : Swarm) : List ℕ := s.fm.writeRequests.map WriteRequest.index

/-- The index that has been accepted and is not in the queue yet. -/
def pushing (s : Swarm) : List ℕ := ((s.callAt .pushing).map fun c => c.piece.index).toList

/-- What holds in every reachable state of a torrent whose `N` pieces have the given sizes. -/
structure OnceInv (N : ℕ) (size : ℕ → Option ℕ) (s : Swarm) : Prop where
  pieces : s.fm.pieces.length = N
  pieceSize : s.fm.pieceSize = size
  order : s.accepted = s.written ++ s.queued ++ s.pushing
  bound : ∀ i ∈ s.accepted, i < N
  calls : s.fm.calls.map WriteRequest.index = s.pushing
  completed : ∀ i ∈ s.written, s.fm.completedBits.test i = true
  checking : ∀ c, s.callAt .checking = some c → c.piece.index < N →
    s.fm.completedBits.test c.piece.index = true → c.piece.index ∈ s.written
  pending : s.accepted.Nodup → ∀ i < N, (s.fm.pendingBits.test i = true ↔ i ∈ s.queued)
  downloaded : s.world.torrent.downloadedBytes = (s.written.map fun i => (size i).getD 0).sum

variable {sha1 human} {N : ℕ} {size : ℕ → Option ℕ} {s s' : Swarm}

theorem pushing_of_checking {c : Call} (h : s.callAt .checking = some c) : s.pushing = [] := by
  obtain ⟨hcall, hstage⟩ := callAt_eq_some.1 h
  simp [pushing, callAt, hcall, hstage]

theorem pushing_of_pushing {c : Call} (h : s.callAt .pushing = some c) :
    s.pushing = [c.piece.index] := by
  rw [pushing, h]
  rfl

/-! ### The steps -/

theorem onceInv_quiet {a : SwarmAction} (ha : a ≠ .check ∧ a ≠ .push ∧ ∀ wrote, a ≠ .work wrote)
    (h : OnceInv N size s) (hs : s.step sha1 human a = some s') : OnceInv N size s' := by
  obtain ⟨hsame, hcall, haccepted, hwritten⟩ := step_quiet ha hs
  have hqueued : s'.queued = s.queued := congrArg (List.map WriteRequest.index) hsame.requests
  have hcompleted : s'.fm.completedBits = s.fm.completedBits := hsame.completed
  have hcalls : s'.fm.calls = s.fm.calls := hsame.calls
  have hpending : s'.fm.pendingBits = s.fm.pendingBits := hsame.pending
  -- the call comes to an end, begins, or stays where it is
  have hstages : s'.pushing = s.pushing ∧ ∀ c, s'.callAt .checking = some c →
      c.piece.index < N → s.fm.completedBits.test c.piece.index = true →
        s.callAt .checking = some c := by
    generalize hcall' : s'.call = call at hcall
    cases hcall with
    | keep =>
      rw [pushing, pushing, callAt, callAt, callAt, callAt, hcall']
      exact ⟨rfl, fun c hc _ _ => hc⟩
    | return_ hc =>
      obtain ⟨hsome, hstage⟩ := callAt_eq_some.1 hc
      rw [pushing, pushing, callAt, callAt, callAt, callAt, hcall', hsome]
      simp [hstage]
    | begin hnone hdone =>
      rw [pushing, pushing, callAt, callAt, callAt, callAt, hcall', hnone]
      refine ⟨by simp, fun c hc hlt htest => ?_⟩
      simp only [Option.filter_some, decide_true, if_true, Option.some.injEq] at hc
      subst hc
      rw [FileManager.pieceDone, FileManager.intact, h.pieces, htest] at hdone
      simp [hlt] at hdone
  constructor
  · exact hsame.layout.length.trans h.pieces
  · exact hsame.layout.pieceSize_eq.trans h.pieceSize
  · rw [haccepted, hwritten, hqueued, hstages.1, h.order]
  · rw [haccepted]
    exact h.bound
  · rw [hcalls, hstages.1, h.calls]
  · rw [hwritten, hcompleted]
    exact h.completed
  · intro c hc hlt htest
    rw [hcompleted] at htest
    rw [hwritten]
    exact h.checking c (hstages.2 c hc hlt htest) hlt htest
  · rw [haccepted, hpending, hqueued]
    exact h.pending
  · rw [hwritten, ← h.downloaded]
    exact hsame.downloaded

theorem onceInv_check (h : OnceInv N size s) (hs : s.step sha1 human .check = some s') :
    OnceInv N size s' := by
  obtain ⟨c, p, ok, fm, hc, hp, hw, hend⟩ := step_check hs
  obtain ⟨hok, hcallsf, hcallst, hmeta, hpieces, hpend, hcomp, hreq⟩ := writeCheck_iff hw
  have hpushing := pushing_of_checking hc
  have hcalls := h.calls
  rw [hpushing, List.map_eq_nil_iff] at hcalls
  have hsize : fm.pieceSize = size :=
    (funext (FileManager.pieceSize_congr hmeta (congrArg List.length hpieces))).trans h.pieceSize
  have hqueued : fm.writeRequests.map WriteRequest.index = s.queued :=
    congrArg (List.map WriteRequest.index) hreq
  rcases hend with ⟨rfl, rfl⟩ | ⟨rfl, rfl⟩
  · constructor
    · exact (congrArg List.length hpieces).trans h.pieces
    · exact hsize
    · change s.accepted = s.written ++ fm.writeRequests.map WriteRequest.index ++ []
      rw [hqueued, h.order, hpushing]
    · exact h.bound
    · change fm.calls.map WriteRequest.index = []
      rw [hcallsf rfl, hcalls]
      rfl
    · change ∀ i ∈ s.written, fm.completedBits.test i = true
      rw [hcomp]
      exact h.completed
    · rintro c' hc'
      cases hc'
    · change s.accepted.Nodup → ∀ i < N, (fm.pendingBits.test i = true ↔
        i ∈ fm.writeRequests.map WriteRequest.index)
      rw [hpend, hqueued]
      exact h.pending
    · exact h.downloaded
  · obtain ⟨hlt, -⟩ := hok.1 rfl
    constructor
    · exact (congrArg List.length hpieces).trans h.pieces
    · exact hsize
    · change s.accepted ++ [c.piece.index] =
        s.written ++ fm.writeRequests.map WriteRequest.index ++ [c.piece.index]
      rw [hqueued, h.order, hpushing, List.append_nil]
    · intro i hi
      rcases List.mem_append.1 hi with hi | hi
      · exact h.bound i hi
      · rw [List.mem_singleton] at hi
        rw [hi, ← h.pieces]
        exact hlt
    · change fm.calls.map WriteRequest.index = [c.piece.index]
      rw [hcallst rfl, hcalls]
      rfl
    · change ∀ i ∈ s.written, fm.completedBits.test i = true
      rw [hcomp]
      exact h.completed
    · rintro c' hc'
      cases hc'
    · intro hnd
      change ∀ i < N, (fm.pendingBits.test i = true ↔
        i ∈ fm.writeRequests.map WriteRequest.index)
      rw [hpend, hqueued]
      exact h.pending (List.nodup_append.1 hnd).1
    · exact h.downloaded

theorem onceInv_push (hN : N < 2 ^ 31) (h : OnceInv N size s)
    (hs : s.step sha1 human .push = some s') : OnceInv N size s' := by
  obtain ⟨c, w, hc, hw, rfl⟩ := step_push hs
  have hpushing := pushing_of_pushing hc
  have hcalls := h.calls
  rw [hpushing] at hcalls
  obtain ⟨w', hw', hindex⟩ : ∃ w, s.fm.calls = [w] ∧ w.index = c.piece.index := by
    rwa [List.map_eq_singleton_iff] at hcalls
  rw [hw'] at hw
  cases hw
  rw [hw']
  have hqueue : (s.fm.writeRequests ++ [w]).map WriteRequest.index = s.queued ++ [w.index] := by
    rw [List.map_append]
    rfl
  have hmem : w.index ∈ s.accepted := by
    rw [h.order, hpushing, hindex]
    exact List.mem_append_right _ (List.mem_singleton_self _)
  have hlt := h.bound _ hmem
  constructor
  · exact h.pieces
  · exact (funext (FileManager.pieceSize_congr rfl rfl)).trans h.pieceSize
  · change s.accepted = s.written ++ (s.fm.writeRequests ++ [w]).map WriteRequest.index ++ []
    rw [hqueue, h.order, hpushing, hindex]
    simp
  · exact h.bound
  · rfl
  · exact h.completed
  · rintro c' hc'
    cases hc'
  · intro hnd i hi
    change (s.fm.pendingBits.set w.index).test i = true ↔
      i ∈ (s.fm.writeRequests ++ [w]).map WriteRequest.index
    rw [hqueue, Bitset.test_set, Bool.or_eq_true, decide_eq_true_iff,
      FileManager.Writer.mod_eq_iff (hlt.trans hN) (hi.trans hN), h.pending hnd i hi,
      List.mem_append, List.mem_singleton, or_comm, eq_comm]
  · exact h.downloaded

theorem onceInv_work (hN : N < 2 ^ 31) (h : OnceInv N size s) {wrote : TorrentFileInfo → ℕ → ℕ}
    (hs : s.step sha1 human (.work wrote) = some s') : OnceInv N size s' := by
  obtain ⟨w, ws, fm, length, hqueue, rfl, hlength, rfl⟩ := step_work hs
  have hsize : size w.index = some length := by
    rw [← h.pieceSize, ← hlength]
    exact FileManager.pieceSize_congr rfl rfl _
  have hqueued : s.queued = w.index :: ws.map WriteRequest.index := by
    rw [queued, hqueue]
    rfl
  have hmem : w.index ∈ s.accepted := by
    rw [h.order, hqueued]
    simp
  have hlt := (h.bound _ hmem).trans hN
  constructor
  · exact h.pieces
  · exact (funext (FileManager.pieceSize_congr rfl rfl)).trans h.pieceSize
  · change s.accepted = s.written ++ [w.index] ++ ws.map WriteRequest.index ++ s.pushing
    rw [h.order, hqueued]
    simp
  · exact h.bound
  · exact h.calls
  · intro i hi
    change (s.fm.completedBits.set w.index).test i = true
    rw [Bitset.test_set]
    rcases List.mem_append.1 hi with hi | hi
    · rw [h.completed i hi, Bool.or_true]
    · rw [List.mem_singleton.1 hi, decide_eq_true rfl, Bool.true_or]
  · intro c hc hcN htest
    change (s.fm.completedBits.set w.index).test c.piece.index = true at htest
    rw [Bitset.test_set, Bool.or_eq_true, decide_eq_true_iff,
      FileManager.Writer.mod_eq_iff hlt (hcN.trans hN)] at htest
    rcases htest with heq | htest
    · exact List.mem_append_right _ (List.mem_singleton.2 heq.symm)
    · exact List.mem_append_left _ (h.checking c hc hcN htest)
  · intro hnd i hi
    have hpend := h.pending hnd i hi
    change s.accepted.Nodup at hnd
    rw [h.order, hqueued] at hnd
    have htail : w.index ∉ ws.map WriteRequest.index :=
      (List.nodup_cons.1 (List.nodup_append.1 (List.nodup_append.1 hnd).1).2.1).1
    change (s.fm.pendingBits.clear w.index).test i = true ↔ i ∈ ws.map WriteRequest.index
    rw [Bitset.test_clear, Bool.and_eq_true, Bool.not_eq_true', decide_eq_false_iff_not,
      FileManager.Writer.mod_eq_iff hlt (hi.trans hN), hpend, hqueued, List.mem_cons]
    constructor
    · rintro ⟨hne, rfl | hin⟩
      · exact absurd rfl hne
      · exact hin
    · intro hin
      exact ⟨fun heq => htail (heq ▸ hin), Or.inr hin⟩
  · change s.world.torrent.downloadedBytes + length =
      ((s.written ++ [w.index]).map fun i => (size i).getD 0).sum
    rw [List.map_append, List.sum_append, ← h.downloaded, List.map_singleton, List.sum_singleton,
      hsize]
    rfl

/-- Every step keeps the invariant. -/
theorem onceInv_step (hN : N < 2 ^ 31) (s : Swarm) (a : SwarmAction) (s' : Swarm)
    (h : OnceInv N size s) (hs : s.step sha1 human a = some s') : OnceInv N size s' := by
  cases a with
  | check => exact onceInv_check h hs
  | push => exact onceInv_push hN h hs
  | work wrote => exact onceInv_work hN h hs
  | _ => exact onceInv_quiet (by simp) h hs

/-- Only an index in range whose pending bit is clear is eligible. -/
theorem of_isWriteEligible {fm : FileManager} {index : ℕ} {data : Bytes}
    (h : fm.isWriteEligible sha1 index data = some true) :
    index < fm.pieces.length ∧ fm.pendingBits.test index = false := by
  rw [FileManager.isWriteEligible] at h
  split_ifs at h with hpend
  · cases h
  · obtain ⟨piece, hpiece, -⟩ := Option.map_eq_some_iff.1 h
    exact ⟨(List.getElem?_eq_some_iff.1 hpiece).1, by simpa using hpend⟩

/-- A step keeps the accepted indices distinct exactly if it is unraced. -/
theorem nodup_step_iff (s : Swarm) (a : SwarmAction) (s' : Swarm) (h : OnceInv N size s)
    (hnd : s.accepted.Nodup) (hs : s.step sha1 human a = some s') :
    s.Unraced sha1 a ↔ s'.accepted.Nodup := by
  have hquiet : ∀ {a}, (a ≠ .check ∧ a ≠ .push ∧ ∀ wrote, a ≠ .work wrote) →
      s.step sha1 human a = some s' → s'.accepted.Nodup := by
    intro a ha hs
    rw [(step_quiet ha hs).2.2.1]
    exact hnd
  cases a with
  | check =>
    obtain ⟨c, p, ok, fm, hc, -, hw, hend⟩ := step_check hs
    have hok := (writeCheck_iff hw).1
    have hunraced : s.Unraced sha1 .check ↔ (s.fm.completedBits.test c.piece.index = true →
        s.fm.isWriteEligible sha1 c.piece.index c.piece.data ≠ some true) := by
      constructor
      · exact fun hall => hall c hc
      · intro hone c' hc'
        cases hc.symm.trans hc'
        exact hone
    rw [hunraced]
    rcases hend with ⟨rfl, rfl⟩ | ⟨rfl, rfl⟩
    · refine iff_of_true (fun _ helig => ?_) hnd
      exact Bool.false_ne_true (hok.2 ⟨(of_isWriteEligible helig).1, helig⟩)
    · obtain ⟨hlt, helig⟩ := hok.1 rfl
      have hltN : c.piece.index < N := h.pieces ▸ hlt
      have hqueued : c.piece.index ∉ s.queued := by
        rw [← h.pending hnd _ hltN, (of_isWriteEligible helig).2]
        exact Bool.false_ne_true
      have hwritten : c.piece.index ∈ s.written ↔
          s.fm.completedBits.test c.piece.index = true :=
        ⟨h.completed _, h.checking c hc hltN⟩
      change _ ↔ (s.accepted ++ [c.piece.index]).Nodup
      rw [List.nodup_append_comm, List.singleton_append, List.nodup_cons, and_iff_left hnd,
        h.order, pushing_of_checking hc, List.append_nil, List.mem_append, not_or,
        and_iff_left hqueued, hwritten]
      exact ⟨fun hne hcomp => hne hcomp helig, fun hne hcomp => absurd hcomp hne⟩
  | push =>
    obtain ⟨c, w, -, -, rfl⟩ := step_push hs
    exact iff_of_true trivial hnd
  | work wrote =>
    obtain ⟨w, ws, fm, size, -, -, -, rfl⟩ := step_work hs
    exact iff_of_true trivial hnd
  | _ => exact iff_of_true trivial (hquiet (by simp) hs)

/-! ### The runs -/

/-- The lengths of the pieces add up to no more than the total size. -/
def Fits (fm : FileManager) : Prop :=
  ((List.range fm.pieces.length).map fun i => (fm.pieceSize i).getD 0).sum ≤ fm.metainfo.totalSize

/-- The pieces of consistent metainfo fit. -/
theorem fits_of_consistent {fm : FileManager} (h : Consistent fm.metainfo)
    (hN : fm.pieces.length = fm.metainfo.sha1sums.length) : Fits fm := by
  have hmap : (List.range fm.pieces.length).map (fun i => (fm.pieceSize i).getD 0) =
      (List.range fm.pieces.length).map (pieceLen fm.metainfo) := by
    refine List.map_congr_left fun i hi => ?_
    rw [List.mem_range, hN] at hi
    rw [h.tiled.pieceSize_eq rfl hN hi]
    rfl
  rw [Fits, hmap, sum_pieceLen]
  exact Nat.min_le_right _ _

/-- Distinct indices in range have lengths that add up to no more than those of all pieces. -/
theorem sum_le_of_nodup {l : List ℕ} (hnd : l.Nodup) (hl : ∀ i ∈ l, i < N) (f : ℕ → ℕ) :
    (l.map f).sum ≤ ((List.range N).map f).sum := by
  obtain ⟨l', hperm, hsub⟩ :=
    List.subperm_of_subset hnd fun i hi => List.mem_range.2 (hl i hi)
  calc (l.map f).sum
      = (l'.map f).sum := (hperm.symm.map f).sum_eq
    _ ≤ ((List.range N).map f).sum := (hsub.map f).sum_le_sum fun _ _ => Nat.zero_le _

theorem OnceInv.written_subset (h : OnceInv N size s) : s.written ⊆ s.accepted := by
  rw [h.order, List.append_assoc]
  exact List.subset_append_left _ _

theorem OnceInv.written_nodup (h : OnceInv N size s) (hnd : s.accepted.Nodup) :
    s.written.Nodup := by
  rw [h.order, List.append_assoc] at hnd
  exact (List.nodup_append.1 hnd).1

/-- What is counted as downloaded while no index is accepted twice. -/
theorem OnceInv.downloaded_le {fm : FileManager} (h : OnceInv fm.pieces.length fm.pieceSize s)
    (hnd : s.accepted.Nodup) (hfits : Fits fm) :
    s.world.torrent.downloadedBytes ≤ fm.metainfo.totalSize := by
  rw [h.downloaded]
  exact (sum_le_of_nodup (h.written_nodup hnd) (fun i hi => h.bound i (h.written_subset hi)) _).trans
    hfits

/-- Behind `scan_pieces` nothing has been accepted. -/
theorem onceInv_start {m : TorrentMeta} (hN : m.sha1sums.length < 2 ^ 31) {heap heap' : ℤ → UInt8}
    {files : List TorrentFile} {stack : ℕ → ℕ → UInt8} {fm : FileManager}
    (h : FileManager.scanPieces sha1 stack (FileManager.register heap heap' m files) = some fm) :
    OnceInv m.sha1sums.length fm.pieceSize (start fm) := by
  obtain ⟨-, hhashes, hcalls, hqueue, hpend⟩ := FileManager.Writer.scanPieces_frame h
  have hq : (start fm).queued = [] := congrArg (List.map WriteRequest.index) hqueue
  constructor
  · rw [← hhashes, List.length_map]
    rfl
  · rfl
  · rw [hq]
    rfl
  · exact fun i hi => absurd hi List.not_mem_nil
  · exact congrArg (List.map WriteRequest.index) hcalls
  · exact fun i hi => absurd hi List.not_mem_nil
  · rintro c hc
    cases hc
  · intro _ i hi
    change fm.pendingBits.test i = true ↔ _
    rw [hq, hpend, Bitset.test_construct heap' hi (hi.trans hN)]
    simp
  · rfl

variable (sha1 human)

/-- **How often a piece is written.** From the scanned state of a torrent, with any number of peers
and the worker in any interleaving: no index is accepted twice exactly if all tests are unraced.
Then `onPieceWriteComplete` runs at most once for each index, and if the lengths of the pieces add
up to no more than the total size, no more than that is counted as downloaded. -/
theorem writtenOnce_iff {m : TorrentMeta} (hN : m.sha1sums.length < 2 ^ 31)
    (heap heap' : ℤ → UInt8) (files : List TorrentFile) (stack : ℕ → ℕ → UInt8) (fm : FileManager)
    (hscan : FileManager.scanPieces sha1 stack (FileManager.register heap heap' m files) = some fm)
    (as : List SwarmAction) (hrun : (Runs.run (step sha1 human) (start fm) as).isSome = true) :
    (Runs.Always (step sha1 human) (fun s => s.accepted.Nodup ∧ s.written.Nodup) (start fm) as ↔
        Runs.Meets (step sha1 human) (Unraced sha1) (start fm) as) ∧
      (Fits fm → (Runs.Always (step sha1 human) (WrittenOnce m.totalSize) (start fm) as ↔
        Runs.Meets (step sha1 human) (Unraced sha1) (start fm) as)) := by
  obtain ⟨hmeta, hhashes, -⟩ := FileManager.Writer.scanPieces_frame hscan
  have hlength : fm.pieces.length = m.sha1sums.length := by rw [← hhashes, List.length_map]
  have hstart := onceInv_start hN hscan
  rw [← hlength] at hstart hN
  have hiff : ∀ P : Swarm → Prop,
      (∀ s, OnceInv fm.pieces.length fm.pieceSize s → (P s ↔ s.accepted.Nodup)) →
      (Runs.Always (step sha1 human) P (start fm) as ↔
        Runs.Meets (step sha1 human) (Unraced sha1) (start fm) as) := by
    intro P hP
    refine Runs.always_iff_meets (onceInv_step hN) (fun s a s' h hs hstep => ?_) hstart
      ((hP _ hstart).2 List.nodup_nil) hrun
    rw [hP s' (onceInv_step hN s a s' h hstep)]
    exact nodup_step_iff s a s' h ((hP s h).1 hs) hstep
  refine ⟨hiff _ fun s h => ?_, fun hfits => hiff _ fun s h => ?_⟩
  · exact ⟨fun hnd => hnd.1, fun hnd => ⟨hnd, h.written_nodup hnd⟩⟩
  · refine ⟨fun honce => honce.accepted, fun hnd => ⟨hnd, h.written_nodup hnd, ?_⟩⟩
    rw [← hmeta]
    exact h.downloaded_le hnd hfits

/-- Two peers that have the one piece of one byte, and are asked for it. -/
def twoPeers : List SwarmAction :=
  [.other (.accept 1 (fun _ => 0) (fun _ => 0)), .other (.accept 2 (fun _ => 0) (fun _ => 0)),
    .message 0 5 [128], .message 1 5 [128]]

/-- A peer delivers the byte. -/
def deliver (id : ℕ) : SwarmAction := .message id 7 (Message.pieceBlock 0 0 [5]).payload

/-- Both deliver it, and the first copy is written before the second one comes. -/
def inTurn : List SwarmAction :=
  twoPeers ++ [deliver 0, .check, .push, .select, .work fun _ n => n, deliver 1]

/-- Both deliver it, and the first copy is written between the two tests of the second one. -/
def race : List SwarmAction :=
  twoPeers ++ [deliver 0, .check, .push, .select, deliver 1, .work fun _ n => n, .check, .push,
    .select, .work fun _ n => n]

theorem exists_run_inTurn : ∃ fm,
    FileManager.scanPieces FileManager.nearSha1 (fun _ _ => 0) FileManager.oneByteState =
        some fm ∧
      (Runs.run (step FileManager.nearSha1 toString) (start fm) inTurn).isSome = true := by
  have hsome : ((FileManager.scanPieces FileManager.nearSha1 (fun _ _ => 0)
      FileManager.oneByteState).bind fun fm =>
        Runs.run (step FileManager.nearSha1 toString) (start fm) inTurn).isSome = true := by
    decide +kernel
  obtain ⟨s, hs⟩ := Option.isSome_iff_exists.1 hsome
  obtain ⟨fm, hfm, hs⟩ := Option.bind_eq_some_iff.1 hs
  exact ⟨fm, hfm, by rw [hs]; rfl⟩

theorem writtenOnce_iff_inTurn : ∃ fm,
    FileManager.scanPieces FileManager.nearSha1 (fun _ _ => 0) FileManager.oneByteState =
        some fm ∧
      (Runs.Always (step FileManager.nearSha1 toString)
          (fun s => s.accepted.Nodup ∧ s.written.Nodup) (start fm) inTurn ↔
        Runs.Meets (step FileManager.nearSha1 toString) (Unraced FileManager.nearSha1) (start fm)
          inTurn) ∧
      (Fits fm → (Runs.Always (step FileManager.nearSha1 toString)
          (WrittenOnce FileManager.oneByte.totalSize) (start fm) inTurn ↔
        Runs.Meets (step FileManager.nearSha1 toString) (Unraced FileManager.nearSha1) (start fm)
          inTurn)) := by
  obtain ⟨fm, hfm, hrun⟩ := exists_run_inTurn
  exact ⟨fm, hfm, writtenOnce_iff FileManager.nearSha1 toString (m := FileManager.oneByte)
    (by decide) (fun _ => 0) (fun _ => 0) FileManager.oneByteFiles (fun _ _ => 0) fm hfm inTurn
    hrun⟩

/-- The piece is accepted and written twice, and two bytes of one are counted as downloaded. -/
theorem not_writtenOnce_race : ∃ fm s,
    FileManager.scanPieces FileManager.nearSha1 (fun _ _ => 0) FileManager.oneByteState =
        some fm ∧
      Runs.run (step FileManager.nearSha1 toString) (start fm) race = some s ∧
      s.accepted = [0, 0] ∧ s.written = [0, 0] ∧ s.world.torrent.downloadedBytes = 2 ∧
      ¬WrittenOnce FileManager.oneByte.totalSize s := by
  have hany : ((FileManager.scanPieces FileManager.nearSha1 (fun _ _ => 0)
      FileManager.oneByteState).bind fun fm =>
        (Runs.run (step FileManager.nearSha1 toString) (start fm) race).map fun s =>
          (s.accepted, s.written, s.world.torrent.downloadedBytes)) =
        some ([0, 0], [0, 0], 2) := by
    decide +kernel
  obtain ⟨fm, hfm, hs⟩ := Option.bind_eq_some_iff.1 hany
  obtain ⟨s, hs, heq⟩ := Option.map_eq_some_iff.1 hs
  simp only [Prod.mk.injEq] at heq
  obtain ⟨haccepted, hwritten, hdownloaded⟩ := heq
  refine ⟨fm, s, hfm, hs, haccepted, hwritten, hdownloaded, fun h => ?_⟩
  have hnd := h.accepted
  rw [haccepted] at hnd
  exact absurd hnd (by decide)

end Swarm

end CTorrent
