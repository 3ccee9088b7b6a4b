import CTorrent.FileManager.Completion
import Mathlib.Data.List.Perm.Subperm

/-!
# The worker's condition variable

The worker tests `m_stopped` before it locks the mutex, and under the lock waits if both queues are
empty. A caller pushes its request under the lock and calls `notify_all` behind it; so does the
destructor with `m_stopped`. Each section under the lock, the test of `m_stopped`, and each
`notify_all` is one step.

* `Control`: where the worker stands; `Wakeup`, `WakeAction`, `Wakeup.step`;
* `NoLostWakeup`: the worker does not wait for a notification that has been given already;
* `noLostWakeup_iff`: the runs in which it never does;
* `noLostWakeup_of_window`: those in which the destructor keeps clear of the gap before the lock.
-/

namespace CTorrent

namespace FileManager

/-- A request of either kind. -/
inductive Request where
  | read (r : ReadRequest)
  | write (w : WriteRequest)

/-- Where the worker stands: at the test of `m_stopped`, between the test and the lock, blocked in
`wait`, notified but without the mutex, or behind its loop. -/
inductive Control where
  | testing
  | locking
  | waiting
  | woken
  | finished
  deriving DecidableEq

/-- The file manager and the threads around it. `notifying` are the requests that have been pushed
and for which `notify_all` has not been called yet; `notified` says that the destructor has. -/
structure Wakeup where
  fm : FileManager
  worker : Control := .testing
  stopped : Bool := false
  notifying : List Request := []
  notified : Bool := false

/-- The steps. `wrote` is what each `fwrite` gets on disk, `ok` what `process_read` returns. -/
inductive WakeAction where
  /-- The worker tests `m_stopped`. -/
  | test
  /-- The worker locks the mutex and waits or serves the queues. -/
  | enter (wrote : TorrentFileInfo → ℕ → ℕ) (ok : ReadRequest → Bool)
  /-- The worker returns from `wait`. -/
  | resume (wrote : TorrentFileInfo → ℕ → ℕ) (ok : ReadRequest → Bool)
  /-- `requestPieceBlock` pushes. -/
  | pushRead (r : ReadRequest)
  /-- `writePieceBlock` pushes. -/
  | pushWrite (w : WriteRequest)
  /-- The caller with the `n`-th of the requests calls `notify_all`. -/
  | notify (n : ℕ)
  /-- The destructor sets `m_stopped`. -/
  | stop
  /-- The destructor calls `notify_all`. -/
  | notifyStop

/-- The position of the request that `top` returns. -/
def topRead (rs : List ReadRequest) : ℕ := rs.findIdx fun r => rs.all fun q => r.id ≤ q.id

/-- The loop of `thread` over `m_readRequests`. -/
def serveReads (ok : ReadRequest → Bool) : ℕ → List ReadRequest → List ReadRequest
  | 0, rs => rs
  | fuel + 1, rs =>
      match rs[topRead rs]? with
      | none => rs
      | some r => if ok r then serveReads ok fuel (rs.eraseIdx (topRead rs)) else rs

/-- The loop of `thread` over `m_writeRequests`. -/
def serveWrites (wrote : TorrentFileInfo → ℕ → ℕ) : ℕ → FileManager → FileManager
  | 0, fm => fm
  | fuel + 1, fm =>
      match fm.work wrote with
      | none => fm
      | some fm => serveWrites wrote fuel fm

namespace Wakeup

/-- The queued requests. -/
def queue (s : Wakeup) : List Request :=
  s.fm.readRequests.map .read ++ s.fm.writeRequests.map .write

/-- The two inner loops of `thread` and what follows them. -/
def serve (wrote : TorrentFileInfo → ℕ → ℕ) (ok : ReadRequest → Bool) (s : Wakeup) : Wakeup :=
  if s.stopped then { s with worker := .finished }
  else
    let fm := serveWrites wrote s.fm.writeRequests.length s.fm
    { s with
      fm := { fm with readRequests := serveReads ok fm.readRequests.length fm.readRequests }
      worker := .testing }

/-- `notify_all`. -/
def notifyAll (s : Wakeup) : Wakeup :=
  if s.worker = .waiting then { s with worker := .woken } else s

/-- One step. -/
def step (s : Wakeup) : WakeAction → Option Wakeup
  | .test =>
      if s.worker = .testing then
        some { s with worker := if s.stopped then .finished else .locking }
      else none
  | .enter wrote ok =>
      if s.worker = .locking then
        some (if s.fm.writeRequests.isEmpty && s.fm.readRequests.isEmpty then
          { s with worker := .waiting }
        else s.serve wrote ok)
      else none
  | .resume wrote ok => if s.worker = .woken then some (s.serve wrote ok) else none
  | .pushRead r =>
      some { s with
        fm := { s.fm with readRequests := s.fm.readRequests ++ [r] }
        notifying := s.notifying ++ [.read r] }
  | .pushWrite w =>
      some { s with fm := s.fm.pushWrite w, notifying := s.notifying ++ [.write w] }
  | .notify n =>
      if n < s.notifying.length then
        some { s with notifying := s.notifying.eraseIdx n }.notifyAll
      else none
  | .stop => if s.stopped then none else some { s with stopped := true }
  | .notifyStop =>
      if s.stopped && !s.notified then some { s with notified := true }.notifyAll else none

/-- **No lost wake-up.** While the worker is blocked in `wait`, every queued request is one whose
caller has still to call `notify_all`, and so has the destructor if it has set `m_stopped`. -/
def NoLostWakeup (s : Wakeup) : Prop :=
  s.worker = .waiting → s.queue.Subperm s.notifying ∧ ¬ (s.stopped = true ∧ s.notified = true)

/-- The worker does not come to the lock, with both queues empty, behind the `notify_all` of the
destructor. -/
def Timely (s : Wakeup) : WakeAction → Prop
  | .enter _ _ => s.notified = true → s.queue ≠ []
  | _ => True

/-- The gap between the test of `m_stopped` and the lock is closed to the destructor. -/
def OutsideWindow (s : Wakeup) : WakeAction → Prop
  | .notifyStop => s.worker ≠ .locking
  | _ => True

/-- What holds in every reachable state. -/
structure Inv (s : Wakeup) : Prop where
  queued : s.worker = .waiting → s.queue.Subperm s.notifying
  notified : s.notified = true → s.stopped = true

variable {s s' : Wakeup}

theorem queue_eq_nil_iff (s : Wakeup) :
    (s.fm.writeRequests.isEmpty && s.fm.readRequests.isEmpty) = true ↔ s.queue = [] := by
  rw [queue, Bool.and_eq_true, List.isEmpty_iff, List.isEmpty_iff, List.append_eq_nil_iff,
    List.map_eq_nil_iff, List.map_eq_nil_iff, and_comm]

theorem worker_serve (wrote : TorrentFileInfo → ℕ → ℕ) (ok : ReadRequest → Bool) (s : Wakeup) :
    (s.serve wrote ok).worker ≠ .waiting := by
  rw [serve]
  split_ifs <;> exact Control.noConfusion

theorem flags_serve (wrote : TorrentFileInfo → ℕ → ℕ) (ok : ReadRequest → Bool) (s : Wakeup) :
    (s.serve wrote ok).stopped = s.stopped ∧ (s.serve wrote ok).notified = s.notified := by
  rw [serve]
  split_ifs <;> exact ⟨rfl, rfl⟩

theorem worker_notifyAll (s : Wakeup) : s.notifyAll.worker ≠ .waiting := by
  rw [notifyAll]
  split_ifs with h
  · exact Control.noConfusion
  · exact h

theorem flags_notifyAll (s : Wakeup) :
    s.notifyAll.stopped = s.stopped ∧ s.notifyAll.notified = s.notified := by
  rw [notifyAll]
  split_ifs <;> exact ⟨rfl, rfl⟩

/-- A state in which the worker does not wait. -/
theorem Inv.of_awake (hw : s.worker ≠ .waiting) (hn : s.notified = true → s.stopped = true) :
    Inv s :=
  ⟨fun h => absurd h hw, hn⟩

/-- Every step keeps `notified` within `stopped`. -/
theorem notified_step {a : WakeAction} (h : s.notified = true → s.stopped = true)
    (hs : s.step a = some s') : s'.notified = true → s'.stopped = true := by
  cases a with
  | test =>
    simp only [step] at hs
    split_ifs at hs <;> cases hs <;> exact h
  | enter wrote ok =>
    simp only [step] at hs
    split_ifs at hs <;> cases hs
    · exact h
    · rw [(flags_serve wrote ok s).1, (flags_serve wrote ok s).2]
      exact h
  | resume wrote ok =>
    simp only [step] at hs
    split_ifs at hs
    cases hs
    rw [(flags_serve wrote ok s).1, (flags_serve wrote ok s).2]
    exact h
  | pushRead r =>
    cases hs
    exact h
  | pushWrite w =>
    cases hs
    exact h
  | notify n =>
    simp only [step] at hs
    split_ifs at hs
    cases hs
    rw [(flags_notifyAll _).1, (flags_notifyAll _).2]
    exact h
  | stop =>
    simp only [step] at hs
    split_ifs at hs
    cases hs
    exact fun _ => rfl
  | notifyStop =>
    simp only [step] at hs
    split_ifs at hs with hc
    cases hs
    rw [(flags_notifyAll _).1]
    exact fun _ => (Bool.and_eq_true_iff.1 hc).1

/-- Pushing a request puts it in the queue and among those to be notified for. -/
theorem subperm_push {queue queue' notifying : List Request} {r : Request}
    (h : queue.Subperm notifying) (hp : queue'.Perm (queue ++ [r])) :
    queue'.Subperm (notifying ++ [r]) :=
  hp.subperm.trans (h.append (List.Subperm.refl [r]))

/-- How the worker can come to be waiting behind a step: it has just found both queues empty, or it
waited before, and a request was pushed or `m_stopped` set. -/
theorem waiting_step {a : WakeAction} (h : Inv s) (hs : s.step a = some s')
    (hw : s'.worker = .waiting) :
    (∃ wrote ok, a = .enter wrote ok ∧ s.queue = [] ∧ s'.queue = [] ∧
        s'.notified = s.notified) ∨
      ((∀ wrote ok, a ≠ .enter wrote ok) ∧ s.worker = .waiting ∧
        s'.queue.Subperm s'.notifying ∧ s'.notified = s.notified) := by
  cases a with
  | test =>
    simp only [step] at hs
    split_ifs at hs <;> cases hs <;> cases hw
  | enter wrote ok =>
    simp only [step] at hs
    split_ifs at hs with hl hq <;> cases hs
    · have hnil := (queue_eq_nil_iff s).1 hq
      exact Or.inl ⟨wrote, ok, rfl, hnil, hnil, rfl⟩
    · exact absurd hw (worker_serve wrote ok s)
  | resume wrote ok =>
    simp only [step] at hs
    split_ifs at hs
    cases hs
    exact absurd hw (worker_serve wrote ok s)
  | pushRead r =>
    cases hs
    refine Or.inr ⟨fun _ _ => WakeAction.noConfusion, hw, ?_, rfl⟩
    refine subperm_push (h.queued hw) ?_
    simp only [queue, List.map_append, List.map_cons, List.map_nil, List.append_assoc]
    exact List.Perm.append_left _ List.perm_append_comm
  | pushWrite w =>
    cases hs
    refine Or.inr ⟨fun _ _ => WakeAction.noConfusion, hw, ?_, rfl⟩
    refine subperm_push (h.queued hw) ?_
    simp only [queue, pushWrite, List.map_append, List.map_cons, List.map_nil, List.append_assoc]
    exact List.Perm.refl _
  | notify n =>
    simp only [step] at hs
    split_ifs at hs
    cases hs
    exact absurd hw (worker_notifyAll _)
  | stop =>
    simp only [step] at hs
    split_ifs at hs
    cases hs
    exact Or.inr ⟨fun _ _ => WakeAction.noConfusion, hw, h.queued hw, rfl⟩
  | notifyStop =>
    simp only [step] at hs
    split_ifs at hs
    cases hs
    exact absurd hw (worker_notifyAll _)

/-- Every step keeps the invariant. -/
theorem inv_step (s : Wakeup) (a : WakeAction) (s' : Wakeup) (h : Inv s)
    (hs : s.step a = some s') : Inv s' := by
  refine ⟨fun hw => ?_, notified_step h.notified hs⟩
  rcases waiting_step h hs hw with ⟨-, -, -, -, hnil, -⟩ | ⟨-, -, hsub, -⟩
  · rw [hnil]
    exact List.nil_subperm
  · exact hsub

/-- A step keeps the worker from waiting in vain exactly if it is timely. -/
theorem timely_iff (s : Wakeup) (a : WakeAction) (s' : Wakeup) (h : Inv s) (hp : s.NoLostWakeup)
    (hs : s.step a = some s') : s.Timely a ↔ s'.NoLostWakeup := by
  have h' := inv_step s a s' h hs
  constructor
  · intro ht hw
    refine ⟨h'.queued hw, fun hn => ?_⟩
    rcases waiting_step h hs hw with ⟨wrote, ok, rfl, hnil, -, hnot⟩ | ⟨-, hwait, -, hnot⟩
    · exact ht (hnot ▸ hn.2) hnil
    · rw [hnot] at hn
      exact (hp hwait).2 ⟨h.notified hn.2, hn.2⟩
  · intro hp'
    cases a with
    | enter wrote ok =>
      intro hn hnil
      simp only [step] at hs
      split_ifs at hs with hl hq
      · cases hs
        exact (hp' rfl).2 ⟨h.notified hn, hn⟩
      · exact hq ((queue_eq_nil_iff s).2 hnil)
    | _ => trivial

/-- **When no wake-up is lost.** In a run from a state in which the worker begins its loop, the
worker never waits for a notification that has been given exactly if it never comes to the lock,
with both queues empty, behind the `notify_all` of the destructor. For requests alone nothing is
required. -/
theorem noLostWakeup_iff (fm : FileManager) (as : List WakeAction)
    (hr : (Runs.run step { fm := fm } as).isSome = true) :
    Runs.Always step NoLostWakeup { fm := fm } as ↔ Runs.Meets step Timely { fm := fm } as :=
  Runs.always_iff_meets (I := Inv) inv_step timely_iff
    (Inv.of_awake Control.noConfusion Bool.noConfusion) (fun hw => Control.noConfusion hw) hr

/-! ### The gap before the lock -/

/-- A worker in the gap has come there by a test that found `m_stopped` clear, or was there. -/
theorem locking_step {a : WakeAction} (hs : s.step a = some s') (hw : s'.worker = .locking) :
    (s.stopped = false ∧ s'.notified = s.notified) ∨
      (s.worker = .locking ∧ (a = .notifyStop ∨ s'.notified = s.notified)) := by
  have hserve : ∀ wrote ok, (s.serve wrote ok).worker ≠ .locking := by
    intro wrote ok
    rw [serve]
    split_ifs <;> exact Control.noConfusion
  have hnotify : ∀ s : Wakeup, s.notifyAll.worker = .locking → s.worker = .locking := by
    intro s h
    rw [notifyAll] at h
    split_ifs at h
    exact h
  cases a with
  | test =>
    simp only [step] at hs
    split_ifs at hs with ht hstop <;> cases hs
    · cases hw
    · exact Or.inl ⟨Bool.eq_false_iff.2 hstop, rfl⟩
  | enter wrote ok =>
    simp only [step] at hs
    split_ifs at hs with hl hq <;> cases hs
    · cases hw
    · exact absurd hw (hserve wrote ok)
  | resume wrote ok =>
    simp only [step] at hs
    split_ifs at hs
    cases hs
    exact absurd hw (hserve wrote ok)
  | pushRead r =>
    cases hs
    exact Or.inr ⟨hw, Or.inr rfl⟩
  | pushWrite w =>
    cases hs
    exact Or.inr ⟨hw, Or.inr rfl⟩
  | notify n =>
    simp only [step] at hs
    split_ifs at hs
    cases hs
    have hl := hnotify _ hw
    exact Or.inr ⟨hl, Or.inr (flags_notifyAll _).2⟩
  | stop =>
    simp only [step] at hs
    split_ifs at hs
    cases hs
    exact Or.inr ⟨hw, Or.inr rfl⟩
  | notifyStop =>
    simp only [step] at hs
    split_ifs at hs
    cases hs
    have hl := hnotify _ hw
    exact Or.inr ⟨hl, Or.inl rfl⟩

/-- What holds while the destructor keeps clear of the gap. -/
structure ClearInv (s : Wakeup) : Prop where
  inv : Inv s
  safe : s.NoLostWakeup
  clear : s.notified = true → s.worker ≠ .locking

theorem clearInv_step (s : Wakeup) (a : WakeAction) (s' : Wakeup) (h : ClearInv s)
    (hc : s.OutsideWindow a) (hs : s.step a = some s') : ClearInv s' := by
  refine ⟨inv_step s a s' h.inv hs, (timely_iff s a s' h.inv h.safe hs).1 ?_, fun hn hw => ?_⟩
  · cases a with
    | enter wrote ok =>
      intro hn
      simp only [step] at hs
      split_ifs at hs with hl <;> exact absurd hl (h.clear hn)
    | _ => trivial
  · rcases locking_step hs hw with ⟨hstop, hnot⟩ | ⟨hl, rfl | hnot⟩
    · rw [hnot] at hn
      rw [h.inv.notified hn] at hstop
      cases hstop
    · exact hc hl
    · rw [hnot] at hn
      exact h.clear hn hl

/-- If the destructor never calls `notify_all` while the worker stands between its test of
`m_stopped` and the lock, no wake-up is lost. -/
theorem noLostWakeup_of_window (fm : FileManager) {as : List WakeAction}
    (h : Runs.Meets step OutsideWindow { fm := fm } as) :
    Runs.Always step NoLostWakeup { fm := fm } as :=
  (Runs.always_of_inv (I := ClearInv) clearInv_step
    ⟨Inv.of_awake Control.noConfusion Bool.noConfusion, fun hw => Control.noConfusion hw,
      fun hn => Bool.noConfusion hn⟩ h).mono fun _ hs => hs.safe

/-- The destructor runs between the worker's test and its lock. -/
def stopInWindow : List WakeAction :=
  [.test, .stop, .notifyStop, .enter (fun _ n => n) fun _ => true]

/-- The worker is told to stop while it waits. -/
def stopWhileWaiting : List WakeAction :=
  [.test, .enter (fun _ n => n) fun _ => true, .stop, .notifyStop,
    .resume (fun _ n => n) fun _ => true]

theorem noLostWakeup_iff_stopWhileWaiting :
    Runs.Always step NoLostWakeup { fm := oneByteState } stopWhileWaiting ↔
      Runs.Meets step Timely { fm := oneByteState } stopWhileWaiting :=
  noLostWakeup_iff oneByteState stopWhileWaiting (by decide +kernel)

/-- **A wake-up is lost.** -/
theorem not_noLostWakeup_stopInWindow :
    ¬ Runs.Always step NoLostWakeup { fm := oneByteState } stopInWindow := by
  intro h
  have hrun : (Runs.run step { fm := oneByteState } stopInWindow).any
      (fun s => decide (s.worker = .waiting) && s.stopped && s.notified) = true := by
    decide +kernel
  obtain ⟨s, hs, hany⟩ := (Option.any_eq_true _ _).1 hrun
  simp only [Bool.and_eq_true, decide_eq_true_eq] at hany
  exact (h.last hs hany.1.1).2 ⟨hany.1.2, hany.2⟩

end Wakeup

end FileManager

end CTorrent
