import CTorrent.FileManager.Completion
import Mathlib.Data.List.Nodup

/-!
# The queue of writes and the two bit sets

One thread calls `writePieceBlock`: it tests `is_write_eligible` without the lock, and pushes under
the lock. The worker holds the lock from `process_write` to `pop`; while it is `inside`, no push
takes place, but a test may.

* `Writer`, `WriteAction`, `Writer.step`: the steps of the two threads;
* `Writer.unserved`: the queue without the request that has been processed and not yet popped;
* `Writer.Inv`, `inv_step`: what every step keeps;
* `writeQueue_invariant`: pending bits and requests correspond in every reachable state.
-/

namespace CTorrent

namespace FileManager

/-- The file manager with its two threads. `accepted` records the indices for which
`writePieceBlock` has returned true. -/
structure Writer where
  fm : FileManager
  inside : Bool := false
  accepted : List ℕ := []

/-- The steps. -/
inductive WriteAction where
  | check (index from_ : ℕ) (data : Bytes)
  | push
  | processWrite (wrote : TorrentFileInfo → ℕ → ℕ)
  | pop

namespace Writer

variable (sha1 : Bytes → Sha1sum)

/-- One step. The thread that writes makes one call at a time. -/
def step (s : Writer) : WriteAction → Option Writer
  | .check index from_ data =>
      if s.fm.calls = [] then
        (s.fm.writeCheck sha1 index from_ data).map fun r => { s with fm := r.2 }
      else none
  | .push =>
      if s.inside then none
      else
        (s.fm.writePush 0).map fun fm =>
          { s with
            fm := fm
            accepted := s.accepted ++ (s.fm.calls.take 1).map WriteRequest.index }
  | .processWrite wrote =>
      if s.inside then none
      else
        s.fm.writeRequests.head?.map fun w =>
          { s with fm := s.fm.processWrite wrote w, inside := true }
  | .pop =>
      if s.inside then
        some { s with
          fm := { s.fm with writeRequests := s.fm.writeRequests.tail }
          inside := false }
      else none

/-- The indices of the requests in `m_writeRequests`. -/
def queued (s : Writer) : List ℕ := s.fm.writeRequests.map WriteRequest.index

/-- The indices of the requests that have not been processed. -/
def unserved (s : Writer) : List ℕ := if s.inside then s.queued.tail else s.queued

/-- What holds in every reachable state of a torrent of `N` pieces. -/
structure Inv (N : ℕ) (s : Writer) : Prop where
  pieces : s.fm.pieces.length = N
  nodup : s.queued.Nodup
  bound : ∀ i ∈ s.queued, i < N
  pending : ∀ i < N, (s.fm.pendingBits.test i = true ↔ i ∈ s.unserved)
  nonempty : s.inside = true → s.queued ≠ []
  call : s.fm.calls = [] ∨ ∃ w, s.fm.calls = [w] ∧ w.index < N ∧ w.index ∉ s.unserved
  accepted : ∀ i ∈ s.accepted, i < N ∧
    (s.fm.pendingBits.test i = true ∨ s.fm.completedBits.test i = true)

variable {sha1} {N : ℕ} {s s' : Writer}

theorem unserved_subset (s : Writer) : s.unserved ⊆ s.queued := by
  rw [unserved]
  split_ifs
  · exact List.tail_subset _
  · exact List.Subset.refl _

/-- The request that the worker has processed is not among the others. -/
theorem Inv.unserved_of_inside (h : Inv N s) (hi : s.inside = true) :
    ∃ i, s.queued = i :: s.unserved ∧ i ∉ s.unserved := by
  have hne := h.nonempty hi
  have hnd := h.nodup
  rw [unserved, if_pos hi]
  cases hq : s.queued with
  | nil => exact absurd hq hne
  | cons i is =>
    rw [hq] at hnd
    exact ⟨i, rfl, (List.nodup_cons.1 hnd).1⟩

/-- Two indices below `2 ^ 31` share a bit only if they are equal. -/
theorem mod_eq_iff {i j : ℕ} (hi : i < 2 ^ 31) (hj : j < 2 ^ 31) :
    i % 2 ^ 32 = j % 2 ^ 32 ↔ i = j := by
  omega

/-! ### The steps -/

/-- A test changes nothing but the calls under way; it passes only where the bit is clear. -/
theorem writeCheck_cases {fm fm' : FileManager} {index from_ : ℕ} {data : Bytes} {ok : Bool}
    (h : fm.writeCheck sha1 index from_ data = some (ok, fm')) :
    fm'.pieces = fm.pieces ∧ fm'.writeRequests = fm.writeRequests ∧
      fm'.pendingBits = fm.pendingBits ∧ fm'.completedBits = fm.completedBits ∧
      (fm'.calls = fm.calls ∨ (index < fm.pieces.length ∧ fm.pendingBits.test index = false ∧
        fm'.calls = fm.calls ++ [⟨index, from_, data⟩])) := by
  rw [writeCheck] at h
  split_ifs at h with hin
  · cases h
    exact ⟨rfl, rfl, rfl, rfl, Or.inl rfl⟩
  · obtain ⟨⟨ok', fm1⟩, hc, he⟩ := Option.map_eq_some_iff.1 h
    obtain ⟨rfl, rfl⟩ := Prod.mk.inj he
    rw [FileManager.check, Option.map_eq_some_iff] at hc
    obtain ⟨ok'', hok, he⟩ := hc
    obtain ⟨rfl, rfl⟩ := Prod.mk.inj he
    have hlt : index < fm.pieces.length := by simpa [intact] using hin
    cases hp : fm.pendingBits.test index with
    | true =>
      rw [isWriteEligible, if_pos hp] at hok
      cases hok
      exact ⟨by simp, by simp, by simp, by simp, Or.inl (by simp)⟩
    | false =>
      cases ok'' with
      | true => exact ⟨by simp, by simp, by simp, by simp, Or.inr ⟨hlt, rfl, by simp⟩⟩
      | false => exact ⟨by simp, by simp, by simp, by simp, Or.inl (by simp)⟩

theorem inv_check (h : Inv N s) {index from_ : ℕ} {data : Bytes}
    (hs : s.step sha1 (.check index from_ data) = some s') : Inv N s' := by
  simp only [step] at hs
  split_ifs at hs with hcalls
  obtain ⟨⟨ok, fm⟩, hc, rfl⟩ := Option.map_eq_some_iff.1 hs
  obtain ⟨hpieces, hqueue, hpend, hcomp, hcall⟩ := writeCheck_cases hc
  have hq : queued { s with fm := fm } = s.queued := congrArg (List.map WriteRequest.index) hqueue
  have hu : unserved { s with fm := fm } = s.unserved := by rw [unserved, unserved, hq]
  refine ⟨by rw [← h.pieces, ← hpieces], by rw [hq]; exact h.nodup, by rw [hq]; exact h.bound,
    fun i hi => ?_, by rw [hq]; exact h.nonempty, ?_, fun i hi => ?_⟩
  · rw [hu, ← h.pending i hi, ← hpend]
  · rw [hu]
    rcases hcall with hcall | ⟨hlt, hclear, hcall⟩
    · exact Or.inl (hcall.trans hcalls)
    · rw [hcalls] at hcall
      rw [h.pieces] at hlt
      refine Or.inr ⟨_, hcall, hlt, fun hmem => ?_⟩
      rw [(h.pending index hlt).2 hmem] at hclear
      cases hclear
  · have := h.accepted i hi
    rwa [← hpend, ← hcomp] at this

theorem inv_push (hN : N < 2 ^ 31) (h : Inv N s) (hs : s.step sha1 .push = some s') :
    Inv N s' := by
  simp only [step] at hs
  split_ifs at hs with hin
  obtain ⟨fm, hp, rfl⟩ := Option.map_eq_some_iff.1 hs
  rw [writePush, Option.map_eq_some_iff] at hp
  obtain ⟨w, hw, rfl⟩ := hp
  rcases h.call with hnil | ⟨v, hv, hlt, hnew⟩
  · rw [hnil] at hw
    cases hw
  · rw [hv] at hw
    cases hw
    have hun : s.unserved = s.queued := by rw [unserved, if_neg hin]
    rw [hun] at hnew
    have htest : ∀ i < N, (s.fm.pendingBits.set w.index).test i = true ↔
        w.index = i ∨ s.fm.pendingBits.test i = true := by
      intro i hi
      rw [Bitset.test_set, Bool.or_eq_true, decide_eq_true_iff,
        mod_eq_iff (hlt.trans hN) (hi.trans hN)]
    have hq : (s.fm.writeRequests ++ [w]).map WriteRequest.index = s.queued ++ [w.index] := by
      rw [List.map_append]
      rfl
    constructor
    · exact h.pieces
    · change ((s.fm.writeRequests ++ [w]).map WriteRequest.index).Nodup
      rw [hq, List.nodup_append]
      refine ⟨h.nodup, List.nodup_singleton _, ?_⟩
      rintro i hi j hj rfl
      rw [List.mem_singleton] at hj
      exact hnew (hj ▸ hi)
    · change ∀ i ∈ (s.fm.writeRequests ++ [w]).map WriteRequest.index, i < N
      rw [hq]
      intro i hi
      rcases List.mem_append.1 hi with hi | hi
      · exact h.bound i hi
      · rw [List.mem_singleton] at hi
        exact hi ▸ hlt
    · intro i hi
      change (s.fm.pendingBits.set w.index).test i = true ↔
        i ∈ if s.inside then _ else (s.fm.writeRequests ++ [w]).map WriteRequest.index
      rw [if_neg hin, hq, htest i hi, h.pending i hi, hun, List.mem_append, List.mem_singleton,
        or_comm, eq_comm]
    · intro hi
      exact absurd hi hin
    · left
      change s.fm.calls.eraseIdx 0 = []
      rw [hv]
      rfl
    · intro i hi
      change i ∈ s.accepted ++ (s.fm.calls.take 1).map WriteRequest.index at hi
      change i < N ∧ ((s.fm.pendingBits.set w.index).test i = true ∨ s.fm.completedBits.test i = true)
      rw [hv] at hi
      rcases List.mem_append.1 hi with hi | hi
      · obtain ⟨hiN, hor⟩ := h.accepted i hi
        exact ⟨hiN, hor.imp_left fun hp => (htest i hiN).2 (Or.inr hp)⟩
      · obtain rfl : i = w.index := by simpa using hi
        exact ⟨hlt, Or.inl ((htest _ hlt).2 (Or.inl rfl))⟩

theorem inv_processWrite (hN : N < 2 ^ 31) (h : Inv N s) {wrote : TorrentFileInfo → ℕ → ℕ}
    (hs : s.step sha1 (.processWrite wrote) = some s') : Inv N s' := by
  simp only [step] at hs
  split_ifs at hs with hin
  obtain ⟨w, hw, rfl⟩ := Option.map_eq_some_iff.1 hs
  obtain ⟨ws, hqueue⟩ := List.head?_eq_some_iff.1 hw
  have hun : s.unserved = s.queued := by rw [unserved, if_neg hin]
  have hq : s.queued = w.index :: ws.map WriteRequest.index := by rw [queued, hqueue]; rfl
  have hnd := h.nodup
  rw [hq, List.nodup_cons] at hnd
  have hlt : w.index < N := h.bound _ (by rw [hq]; exact List.mem_cons_self)
  constructor
  · exact h.pieces
  · exact h.nodup
  · exact h.bound
  · intro i hi
    change (s.fm.pendingBits.clear w.index).test i = true ↔ i ∈ s.queued.tail
    rw [Bitset.test_clear, Bool.and_eq_true, Bool.not_eq_true', decide_eq_false_iff_not,
      mod_eq_iff (hlt.trans hN) (hi.trans hN), h.pending i hi, hun, hq, List.mem_cons,
      List.tail_cons]
    constructor
    · rintro ⟨hne, rfl | hmem⟩
      · exact absurd rfl hne
      · exact hmem
    · intro hmem
      exact ⟨fun he => hnd.1 (he ▸ hmem), Or.inr hmem⟩
  · intro _ hnil
    change s.queued = [] at hnil
    rw [hq] at hnil
    cases hnil
  · refine h.call.imp_right ?_
    rintro ⟨v, hv, hvN, hnew⟩
    refine ⟨v, hv, hvN, fun hmem => hnew ?_⟩
    rw [hun]
    exact List.mem_of_mem_tail hmem
  · intro i hi
    obtain ⟨hiN, hor⟩ := h.accepted i hi
    refine ⟨hiN, ?_⟩
    change (s.fm.pendingBits.clear w.index).test i = true ∨
      (s.fm.completedBits.set w.index).test i = true
    rw [Bitset.test_clear, Bitset.test_set]
    by_cases he : w.index % 2 ^ 32 = i % 2 ^ 32
    · right
      rw [decide_eq_true he, Bool.true_or]
    · rw [decide_eq_false he, Bool.not_false, Bool.true_and, Bool.false_or]
      exact hor

theorem inv_pop (h : Inv N s) (hs : s.step sha1 .pop = some s') : Inv N s' := by
  simp only [step] at hs
  split_ifs at hs with hin
  cases hs
  obtain ⟨i, hq, -⟩ := h.unserved_of_inside hin
  have htail : (s.fm.writeRequests.tail).map WriteRequest.index = s.unserved := by
    rw [List.map_tail]
    change s.queued.tail = _
    rw [hq, List.tail_cons]
  have hnd := h.nodup
  rw [hq, List.nodup_cons] at hnd
  constructor
  · exact h.pieces
  · change ((s.fm.writeRequests.tail).map WriteRequest.index).Nodup
    rw [htail]
    exact hnd.2
  · change ∀ i ∈ (s.fm.writeRequests.tail).map WriteRequest.index, i < N
    rw [htail]
    exact fun j hj => h.bound j (unserved_subset s hj)
  · intro j hj
    change s.fm.pendingBits.test j = true ↔ j ∈ (s.fm.writeRequests.tail).map WriteRequest.index
    rw [htail]
    exact h.pending j hj
  · intro hfalse
    cases hfalse
  · refine h.call.imp_right ?_
    rintro ⟨v, hv, hvN, hnew⟩
    refine ⟨v, hv, hvN, ?_⟩
    change v.index ∉ (s.fm.writeRequests.tail).map WriteRequest.index
    rwa [htail]
  · exact h.accepted

/-- Every step keeps the invariant. -/
theorem inv_step (hN : N < 2 ^ 31) (s : Writer) (a : WriteAction) (s' : Writer) (h : Inv N s)
    (hs : s.step sha1 a = some s') : Inv N s' := by
  cases a with
  | check index from_ data => exact inv_check h hs
  | push => exact inv_push hN h hs
  | processWrite wrote => exact inv_processWrite hN h hs
  | pop => exact inv_pop h hs

/-- No step clears a completed bit. -/
theorem completed_step {i : ℕ} (s : Writer) (a : WriteAction) (s' : Writer)
    (h : s.fm.completedBits.test i = true) (hs : s.step sha1 a = some s') :
    s'.fm.completedBits.test i = true := by
  cases a with
  | check index from_ data =>
    simp only [step] at hs
    split_ifs at hs
    obtain ⟨⟨ok, fm⟩, hc, rfl⟩ := Option.map_eq_some_iff.1 hs
    obtain ⟨-, -, -, hcomp, -⟩ := writeCheck_cases hc
    change fm.completedBits.test i = true
    rwa [hcomp]
  | push =>
    simp only [step] at hs
    split_ifs at hs
    obtain ⟨fm, hp, rfl⟩ := Option.map_eq_some_iff.1 hs
    rw [writePush, Option.map_eq_some_iff] at hp
    obtain ⟨w, -, rfl⟩ := hp
    exact h
  | processWrite wrote =>
    simp only [step] at hs
    split_ifs at hs
    obtain ⟨w, -, rfl⟩ := Option.map_eq_some_iff.1 hs
    change (s.fm.completedBits.set w.index).test i = true
    rw [Bitset.test_set, h, Bool.or_true]
  | pop =>
    simp only [step] at hs
    split_ifs at hs
    cases hs
    exact h

/-- No step forgets an accepted index. -/
theorem accepted_step (s : Writer) (a : WriteAction) (s' : Writer)
    (hs : s.step sha1 a = some s') : s.accepted ⊆ s'.accepted := by
  cases a with
  | check index from_ data =>
    simp only [step] at hs
    split_ifs at hs
    obtain ⟨r, -, rfl⟩ := Option.map_eq_some_iff.1 hs
    exact List.Subset.refl _
  | push =>
    simp only [step] at hs
    split_ifs at hs
    obtain ⟨fm, -, rfl⟩ := Option.map_eq_some_iff.1 hs
    exact List.subset_append_left _ _
  | processWrite wrote =>
    simp only [step] at hs
    split_ifs at hs
    obtain ⟨w, -, rfl⟩ := Option.map_eq_some_iff.1 hs
    exact List.Subset.refl _
  | pop =>
    simp only [step] at hs
    split_ifs at hs
    cases hs
    exact List.Subset.refl _

/-! ### The start -/

/-- Scanning sets completed bits and moves in the files. -/
theorem scanPieces_frame {m : TorrentMeta} {heap heap' : ℤ → UInt8} {files : List TorrentFile}
    {stack : ℕ → ℕ → UInt8} {fm : FileManager}
    (h : scanPieces sha1 stack (register heap heap' m files) = some fm) :
    fm.metainfo = m ∧ fm.pieces.map Piece.hash = m.sha1sums ∧ fm.calls = [] ∧
      fm.writeRequests = [] ∧ fm.pendingBits = Bitset.construct heap' m.sha1sums.length :=
  scanPieces_induct
    (I := fun fm => fm.metainfo = m ∧ fm.pieces.map Piece.hash = m.sha1sums ∧ fm.calls = [] ∧
      fm.writeRequests = [] ∧ fm.pendingBits = Bitset.construct heap' m.sha1sums.length)
    (fun _ _ _ _ h _ _ => h)
    (fun fm i data fm' hI hr => by
      obtain ⟨⟨ok, fm1⟩, hc, rfl⟩ := Option.map_eq_some_iff.1 hr
      rw [FileManager.check, Option.map_eq_some_iff] at hc
      obtain ⟨ok', -, he⟩ := hc
      obtain ⟨rfl, rfl⟩ := Prod.mk.inj he
      cases ok' <;> cases fm.pendingBits.test i <;> exact hI)
    ⟨rfl, by simp [register, Function.comp_def], rfl, rfl, rfl⟩ h

/-- Behind `scan_pieces` nothing is pending or queued. -/
theorem inv_start {m : TorrentMeta} (hN : m.sha1sums.length < 2 ^ 31) (heap heap' : ℤ → UInt8)
    (files : List TorrentFile) {stack : ℕ → ℕ → UInt8} {fm : FileManager}
    (h : scanPieces sha1 stack (register heap heap' m files) = some fm) :
    Inv m.sha1sums.length { fm := fm } := by
  obtain ⟨-, hhashes, hcalls, hqueue, hpend⟩ := scanPieces_frame h
  have hpieces : fm.pieces.length = m.sha1sums.length := by rw [← hhashes, List.length_map]
  have hq : queued { fm := fm } = [] := by rw [queued, hqueue]; rfl
  constructor
  · exact hpieces
  · rw [hq]
    exact List.nodup_nil
  · rw [hq]
    exact fun i hi => absurd hi List.not_mem_nil
  · intro i hi
    change fm.pendingBits.test i = true ↔ i ∈ queued { fm := fm }
    rw [hq, hpend, Bitset.test_construct heap' hi (hi.trans hN)]
    simp
  · intro hfalse
    cases hfalse
  · exact Or.inl hcalls
  · exact fun i hi => absurd hi List.not_mem_nil

variable (sha1)

/-- **Pending bits and requests.** From the scanned state of a torrent of fewer than `2 ^ 31`
pieces, with the worker taking its steps anywhere: a pending bit is set exactly if the queue holds
one request for its index, where a request that the worker has processed and not yet popped does
not count; no index is queued twice; what was accepted is pending or completed from then on; and
no completed bit is cleared. -/
theorem writeQueue_invariant {m : TorrentMeta} (hN : m.sha1sums.length < 2 ^ 31)
    (heap heap' : ℤ → UInt8) (files : List TorrentFile) (stack : ℕ → ℕ → UInt8) (fm : FileManager)
    (hscan : scanPieces sha1 stack (register heap heap' m files) = some fm)
    (as : List WriteAction) (s : Writer) (hr : Runs.run (step sha1) { fm := fm } as = some s) :
    (s.inside = false → ∀ i < m.sha1sums.length,
        (s.fm.pendingBits.test i = true ↔ s.queued.count i = 1)) ∧
      (∀ i < m.sha1sums.length, s.fm.pendingBits.test i = true ↔ s.unserved.count i = 1) ∧
      (∀ i, s.queued.count i ≤ 1) ∧
      (∀ i ∈ s.accepted, s.fm.pendingBits.test i = true ∨ s.fm.completedBits.test i = true) ∧
      ∀ bs t, Runs.run (step sha1) s bs = some t →
        s.accepted ⊆ t.accepted ∧
        ∀ i, s.fm.completedBits.test i = true → t.fm.completedBits.test i = true := by
  have h : Inv m.sha1sums.length s :=
    Runs.inv_run_of_step (inv_step hN) (inv_start hN heap heap' files hscan) hr
  have hnd : s.unserved.Nodup := by
    rw [unserved]
    split_ifs
    · exact h.nodup.tail
    · exact h.nodup
  have hone : ∀ i < m.sha1sums.length,
      (s.fm.pendingBits.test i = true ↔ s.unserved.count i = 1) := by
    intro i hi
    rw [h.pending i hi]
    constructor
    · exact fun hmem => List.count_eq_one_of_mem hnd hmem
    · exact fun hone => List.count_pos_iff.1 (by omega)
  refine ⟨fun hin i hi => ?_, hone, fun i => List.nodup_iff_count_le_one.1 h.nodup i,
    fun i hi => (h.accepted i hi).2, fun bs t ht => ⟨?_, fun i hi => ?_⟩⟩
  · have hun : s.unserved = s.queued := by
      rw [unserved, hin]
      rfl
    rw [hone i hi, hun]
  · exact Runs.inv_run_of_step (fun u a u' hu hstep => List.Subset.trans hu (accepted_step u a u' hstep))
      (List.Subset.refl _) ht
  · exact Runs.inv_run_of_step completed_step hi ht

/-- A piece is accepted, and the worker processes it while the next test is made. -/
def acceptAndServe : List WriteAction :=
  [.check 0 0 [5], .push, .processWrite fun _ n => n, .check 0 0 [5], .pop, .push]

theorem writeQueue_invariant_acceptAndServe : ∃ fm s,
    scanPieces nearSha1 (fun _ _ => 0) oneByteState = some fm ∧
      Runs.run (step nearSha1) { fm := fm } acceptAndServe = some s ∧
      (s.inside = false → ∀ i < 1, (s.fm.pendingBits.test i = true ↔ s.queued.count i = 1)) ∧
      (∀ i < 1, s.fm.pendingBits.test i = true ↔ s.unserved.count i = 1) ∧
      (∀ i, s.queued.count i ≤ 1) ∧
      (∀ i ∈ s.accepted, s.fm.pendingBits.test i = true ∨ s.fm.completedBits.test i = true) ∧
      ∀ bs t, Runs.run (step nearSha1) s bs = some t →
        s.accepted ⊆ t.accepted ∧
        ∀ i, s.fm.completedBits.test i = true → t.fm.completedBits.test i = true := by
  have hsome : ((scanPieces nearSha1 (fun _ _ => 0) oneByteState).bind fun fm =>
      Runs.run (step nearSha1) { fm := fm } acceptAndServe).isSome = true := by decide +kernel
  obtain ⟨s, hs⟩ := Option.isSome_iff_exists.1 hsome
  obtain ⟨fm, hfm, hs⟩ := Option.bind_eq_some_iff.1 hs
  exact ⟨fm, s, hfm, hs, writeQueue_invariant nearSha1 (m := oneByte) (by decide) (fun _ => 0)
    (fun _ => 0) oneByteFiles (fun _ _ => 0) fm hfm acceptAndServe s hs⟩

end Writer

end FileManager

end CTorrent
