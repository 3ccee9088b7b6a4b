import CTorrent.FileManager.Worker
import CTorrent.FileManager.Scan
import CTorrent.Lib.Runs

/-!
# Which pieces get a completed bit

`is_write_eligible` compares five bytes of the two digests, not five words: the first word and the
low byte of the second (`memcmpEq_five_iff`). It is therefore right about a piece exactly if the
digest of the data is not a near miss, one that agrees with the recorded digest there and differs
from it elsewhere.

* `Step`, `step`: scanning, the two halves of `writePieceBlock`, the worker;
* `Inv`: the hashes are those of the metainfo, and what was completed or accepted passed the test;
* `completion_iff`: the test in every reachable state, and the runs without near misses.
-/

namespace CTorrent

/-! ### The comparison -/

theorem wordBytes_injective : Function.Injective wordBytes := by
  intro v w h
  simp only [wordBytes, List.cons.injEq, and_true, ← UInt8.toNat_inj, UInt32.toNat_toUInt8,
    UInt32.toNat_shiftRight, UInt32.reduceToNat, Nat.shiftRight_eq_div_pow, Nat.reduceMod,
    Nat.reducePow] at h
  rw [← UInt32.toNat_inj]
  have hv := v.toNat_lt
  have hw := w.toNat_lt
  omega

/-- What is compared: the first word and the low byte of the second. -/
theorem memcmpEq_five_iff (d s : Sha1sum) :
    memcmpEq d s 5 = true ↔ d 0 = s 0 ∧ (d 1).toNat % 256 = (s 1).toNat % 256 := by
  have htake : ∀ d : Sha1sum, (digestBytes d).take 5 = wordBytes (d 0) ++ [(d 1).toUInt8] :=
    fun d => rfl
  rw [memcmpEq, decide_eq_true_iff, htake, htake, ← UInt32.toNat_toUInt8 (d 1),
    ← UInt32.toNat_toUInt8 (s 1), UInt8.toNat_inj]
  constructor
  · intro h
    obtain ⟨h0, h1⟩ := List.append_inj h rfl
    exact ⟨wordBytes_injective h0, (List.cons.inj h1).1⟩
  · rintro ⟨h0, h1⟩
    rw [h0, h1]

namespace FileManager

variable (sha1 : Bytes → Sha1sum)

/-! ### Near misses -/

/-- The digest of `data` agrees with entry `index` of the metainfo in the first word and the low
byte of the second, and differs from it. -/
def NearMiss (m : TorrentMeta) (index : ℕ) (data : Bytes) : Prop :=
  ∃ s, m.sha1sums[index]? = some s ∧ sha1 data ≠ s ∧ sha1 data 0 = s 0 ∧
    (sha1 data 1).toNat % 256 = (s 1).toNat % 256

/-- The test of `is_write_eligible` on `data`. -/
def Passes (m : TorrentMeta) (c : ℕ × Bytes) : Prop :=
  ∃ s, m.sha1sums[c.1]? = some s ∧ memcmpEq (sha1 c.2) s 5 = true

theorem nearMiss_iff {m : TorrentMeta} {index : ℕ} {data : Bytes} :
    NearMiss sha1 m index data ↔
      Passes sha1 m (index, data) ∧ m.sha1sums[index]? ≠ some (sha1 data) := by
  simp only [NearMiss, Passes, memcmpEq_five_iff]
  constructor
  · rintro ⟨s, hs, hne, h⟩
    exact ⟨⟨s, hs, h⟩, by rw [hs]; exact fun he => hne (Option.some.inj he).symm⟩
  · rintro ⟨⟨s, hs, h⟩, hne⟩
    exact ⟨s, hs, fun he => hne (by rw [hs, he]), h⟩

/-! ### Runs -/

/-- The steps of the file manager while it scans and writes. -/
inductive Action where
  | scan (stack : ℕ → ℕ → UInt8)
  | check (index from_ : ℕ) (data : Bytes)
  | push (n : ℕ)
  | work (wrote : TorrentFileInfo → ℕ → ℕ)

/-- One step. -/
def step (fm : FileManager) : Action → Option FileManager
  | .scan stack => fm.scanPieces sha1 stack
  | .check index from_ data => (fm.writeCheck sha1 index from_ data).map Prod.snd
  | .push n => fm.writePush n
  | .work wrote => fm.work wrote

/-- What holds in every state of a run on metainfo `m`. -/
structure Inv (m : TorrentMeta) (fm : FileManager) : Prop where
  metainfo : fm.metainfo = m
  hashes : fm.pieces.map Piece.hash = m.sha1sums
  completed : ∀ c ∈ fm.completions, c ∈ fm.checks ∧ Passes sha1 m c
  accepted : ∀ w ∈ fm.calls ++ fm.writeRequests,
    (w.index, w.data) ∈ fm.checks ∧ Passes sha1 m (w.index, w.data)
  bits : ∀ i < m.sha1sums.length, i < 2 ^ 31 → fm.completedBits.test i = true →
    ∃ c ∈ fm.completions, c.1 % 2 ^ 32 = i

variable {sha1} {m : TorrentMeta} {fm fm' : FileManager}

theorem inv_register (heap heap' : ℤ → UInt8) (m : TorrentMeta) (files : List TorrentFile) :
    Inv sha1 m (register heap heap' m files) where
  metainfo := rfl
  hashes := by simp [register, Function.comp_def]
  completed := by simp [register]
  accepted := by simp [register]
  bits i hi h31 ht := by
    rw [register, Bitset.test_construct heap hi h31] at ht
    cases ht

/-- The test on the hashes of the metainfo: it is made when the pending bit is clear. -/
theorem isWriteEligible_iff (h : fm.pieces.map Piece.hash = m.sha1sums) {index : ℕ}
    {data : Bytes} :
    fm.isWriteEligible sha1 index data = some true ↔
      fm.pendingBits.test index = false ∧ Passes sha1 m (index, data) := by
  rw [isWriteEligible, Passes, ← h, List.getElem?_map]
  cases fm.pendingBits.test index <;> cases fm.pieces[index]? <;> simp

/-- What a call of `is_write_eligible` does: it records the comparison, which passes if the call
returns true. -/
theorem inv_check (h : Inv sha1 m fm) {index : ℕ} {data : Bytes} {ok : Bool}
    (hr : fm.check sha1 index data = some (ok, fm')) :
    Inv sha1 m fm' ∧ (ok = true → (index, data) ∈ fm'.checks ∧ Passes sha1 m (index, data)) := by
  rw [check, Option.map_eq_some_iff] at hr
  obtain ⟨ok', hok, he⟩ := hr
  obtain ⟨rfl, rfl⟩ := Prod.mk.inj he
  have hmem : ∀ c ∈ fm.checks, c ∈ fm.checks ++ [(index, data)] :=
    fun c hc => List.mem_append_left _ hc
  cases hp : fm.pendingBits.test index with
  | true =>
    refine ⟨by simpa using h, ?_⟩
    rintro rfl
    exact absurd ((isWriteEligible_iff h.hashes).1 hok).1 (by rw [hp]; exact Bool.noConfusion)
  | false =>
    refine ⟨⟨h.metainfo, h.hashes, fun c hc => ?_, fun w hw => ?_, h.bits⟩, ?_⟩
    · exact ⟨hmem c (h.completed c hc).1, (h.completed c hc).2⟩
    · exact ⟨hmem _ (h.accepted w hw).1, (h.accepted w hw).2⟩
    · rintro rfl
      exact ⟨by simp, ((isWriteEligible_iff h.hashes).1 hok).2⟩

/-- Completing a piece that has passed the test. -/
theorem inv_complete (h : Inv sha1 m fm) {index : ℕ} {data : Bytes}
    (hp : (index, data) ∈ fm.checks ∧ Passes sha1 m (index, data)) :
    Inv sha1 m (fm.complete index data) where
  metainfo := h.metainfo
  hashes := h.hashes
  completed c hc := by
    rcases List.mem_append.1 hc with hc | hc
    · exact h.completed c hc
    · rw [List.mem_singleton] at hc
      rw [hc]
      exact hp
  accepted := h.accepted
  bits i hi h31 ht := by
    rw [complete, Bitset.test_set, Bool.or_eq_true, decide_eq_true_iff] at ht
    rcases ht with ht | ht
    · exact ⟨(index, data), by simp [complete], by omega⟩
    · obtain ⟨c, hc, he⟩ := h.bits i hi h31 ht
      exact ⟨c, List.mem_append_left _ hc, he⟩

theorem inv_completeIfEligible (h : Inv sha1 m fm) {index : ℕ} {data : Bytes}
    (hr : fm.completeIfEligible sha1 index data = some fm') : Inv sha1 m fm' := by
  obtain ⟨⟨ok, fm1⟩, hc, rfl⟩ := Option.map_eq_some_iff.1 hr
  obtain ⟨h1, hok⟩ := inv_check h hc
  cases ok with
  | true => exact inv_complete h1 (hok rfl)
  | false => exact h1

theorem inv_work (h : Inv sha1 m fm) {wrote : TorrentFileInfo → ℕ → ℕ}
    (hr : fm.work wrote = some fm') : Inv sha1 m fm' := by
  rw [work] at hr
  cases hq : fm.writeRequests with
  | nil =>
    rw [hq] at hr
    cases hr
  | cons w ws =>
    rw [hq] at hr
    cases hr
    have hw := h.accepted w (by simp [hq])
    have hstored : Inv sha1 m { fm with
        files := writeLoop wrote fm.files (w.index * fm.metainfo.pieceLength % 2 ^ 64) w.data
        pendingBits := fm.pendingBits.clear w.index } := ⟨h.1, h.2, h.3, h.4, h.5⟩
    have hc := inv_complete hstored hw
    refine ⟨hc.1, hc.2, hc.3, fun v hv => h.accepted v ?_, hc.5⟩
    rcases List.mem_append.1 hv with hv | hv
    · exact List.mem_append_left _ hv
    · exact List.mem_append_right _ (by rw [hq]; exact List.mem_cons_of_mem _ hv)

theorem inv_writePush (h : Inv sha1 m fm) {n : ℕ} (hr : fm.writePush n = some fm') :
    Inv sha1 m fm' := by
  rw [writePush, Option.map_eq_some_iff] at hr
  obtain ⟨w, hw, rfl⟩ := hr
  refine ⟨h.1, h.2, h.3, fun v hv => h.accepted v ?_, h.5⟩
  rcases List.mem_append.1 hv with hv | hv
  · exact List.mem_append_left _ (List.mem_of_mem_eraseIdx hv)
  · rcases List.mem_append.1 hv with hv | hv
    · exact List.mem_append_right _ hv
    · rw [List.mem_singleton] at hv
      exact List.mem_append_left _ (hv ▸ List.mem_of_getElem? hw)

theorem inv_writeCheck (h : Inv sha1 m fm) {index from_ : ℕ} {data : Bytes} {ok : Bool}
    (hr : fm.writeCheck sha1 index from_ data = some (ok, fm')) : Inv sha1 m fm' := by
  rw [writeCheck] at hr
  split_ifs at hr
  · cases hr
    exact h
  · obtain ⟨⟨ok', fm1⟩, hc, he⟩ := Option.map_eq_some_iff.1 hr
    obtain ⟨rfl, rfl⟩ := Prod.mk.inj he
    obtain ⟨h1, hok⟩ := inv_check h hc
    cases ok' with
    | false => exact h1
    | true =>
      refine ⟨h1.1, h1.2, h1.3, fun v hv => ?_, h1.5⟩
      rcases List.mem_append.1 hv with hv | hv
      · rcases List.mem_append.1 hv with hv | hv
        · exact h1.accepted v (List.mem_append_left _ hv)
        · rw [List.mem_singleton] at hv
          rw [hv]
          exact hok rfl
      · exact h1.accepted v (List.mem_append_right _ hv)

/-- Every step keeps the invariant. -/
theorem inv_step (fm : FileManager) (a : Action) (fm' : FileManager) (h : Inv sha1 m fm)
    (hr : step sha1 fm a = some fm') : Inv sha1 m fm' := by
  cases a with
  | scan stack =>
    exact scanPieces_induct (I := Inv sha1 m) (fun _ _ _ _ h _ _ => ⟨h.1, h.2, h.3, h.4, h.5⟩)
      (fun _ _ _ _ h hr => inv_completeIfEligible h hr) h hr
  | check index from_ data =>
    obtain ⟨⟨ok, fm1⟩, hc, rfl⟩ := Option.map_eq_some_iff.1 hr
    exact inv_writeCheck h hc
  | push n => exact inv_writePush h hr
  | work wrote => exact inv_work h hr

/-- Every run keeps the invariant. -/
theorem inv_run (heap heap' : ℤ → UInt8) (files : List TorrentFile) {as : List Action}
    (hr : Runs.run (step sha1) (register heap heap' m files) as = some fm) : Inv sha1 m fm :=
  Runs.inv_run_of_step inv_step (inv_register heap heap' m files) hr

variable (sha1)

/-- **Full digests.** In every reachable state, an accepted piece has the recorded digest if and
only if it is not the case that its pending bit is clear and its digest a near miss; and in a run
that compares no near miss, each completed bit was set for bytes with the recorded digest. -/
theorem completion_iff (heap heap' : ℤ → UInt8) (files : List TorrentFile) (as : List Action)
    (hr : Runs.run (step sha1) (register heap heap' m files) as = some fm) :
    (∀ index data, (fm.isWriteEligible sha1 index data = some true →
        m.sha1sums[index]? = some (sha1 data)) ↔
      ¬ (fm.pendingBits.test index = false ∧ NearMiss sha1 m index data)) ∧
    ((∀ c ∈ fm.checks, ¬ NearMiss sha1 m c.1 c.2) →
      (∀ c ∈ fm.completions, m.sha1sums[c.1]? = some (sha1 c.2)) ∧
      ∀ i < m.sha1sums.length, i < 2 ^ 31 → fm.completedBits.test i = true →
        ∃ c ∈ fm.completions, c.1 % 2 ^ 32 = i) := by
  have h := inv_run heap heap' files hr
  refine ⟨fun index data => ?_, fun hn => ⟨fun c hc => ?_, h.bits⟩⟩
  · rw [isWriteEligible_iff h.hashes, nearMiss_iff]
    tauto
  · by_contra hne
    obtain ⟨hcheck, hp⟩ := h.completed c hc
    exact hn c hcheck ((nearMiss_iff sha1).2 ⟨hp, hne⟩)

/-- A torrent of one piece of one byte, whose digest has the words 7. -/
def oneByte : TorrentMeta where
  checkSum := fun _ => 0
  pieceLength := 1
  totalSize := 1
  files := [⟨[97], 0, 0, 1⟩]
  sha1sums := [fun _ => 7]

/-- Its file, of which nothing is on disk yet. -/
def oneByteFiles : List TorrentFile := [⟨⟨[], 0⟩, ⟨[97], 0, 0, 1⟩⟩]

/-- Its state before scanning. -/
def oneByteState : FileManager := register (fun _ => 0) (fun _ => 0) oneByte oneByteFiles

/-- A block is received, queued and written. -/
def receive (data : Bytes) : List Action := [.check 0 0 data, .push 0, .work fun _ n => n]

/-- A hash function that gives the byte 5 the words 7, and all else the words 7, 7, 0, 0, 0. -/
def nearSha1 (data : Bytes) : Sha1sum := fun k => if data = [5] ∨ k.val < 2 then 7 else 0

theorem completion_iff_receive :
    ∃ fm, Runs.run (step nearSha1) oneByteState (receive [5]) = some fm ∧
    (∀ index data, (fm.isWriteEligible nearSha1 index data = some true →
        oneByte.sha1sums[index]? = some (nearSha1 data)) ↔
      ¬ (fm.pendingBits.test index = false ∧ NearMiss nearSha1 oneByte index data)) ∧
    ((∀ c ∈ fm.checks, ¬ NearMiss nearSha1 oneByte c.1 c.2) →
      (∀ c ∈ fm.completions, oneByte.sha1sums[c.1]? = some (nearSha1 c.2)) ∧
      ∀ i < oneByte.sha1sums.length, i < 2 ^ 31 → fm.completedBits.test i = true →
        ∃ c ∈ fm.completions, c.1 % 2 ^ 32 = i) := by
  have hsome : (Runs.run (step nearSha1) oneByteState (receive [5])).isSome = true := by
    decide +kernel
  obtain ⟨fm, hfm⟩ := Option.isSome_iff_exists.1 hsome
  exact ⟨fm, hfm, completion_iff nearSha1 (fun _ => 0) (fun _ => 0) oneByteFiles _ hfm⟩

/-- A byte whose digest differs in the last three words is accepted, and the piece completed. -/
theorem completion_of_nearMiss :
    oneByte.sha1sums[0]? ≠ some (nearSha1 [6]) ∧
    oneByteState.isWriteEligible nearSha1 0 [6] = some true ∧
    (Runs.run (step nearSha1) oneByteState (receive [6])).map
      (fun fm => (fm.completions, fm.completedBits.test 0)) = some ([(0, [6])], true) := by
  refine ⟨fun h => ?_, by decide +kernel, by decide +kernel⟩
  exact absurd (congrFun (Option.some.inj h) 4) (by decide)

end FileManager

end CTorrent
