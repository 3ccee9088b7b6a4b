import Mathlib.Data.List.Basic

/-!
# Runs of a partial step function

A system is a partial function `step : σ → α → Option σ` from a state and an action to the next
state (`none`: the action is not possible there). A run applies a list of actions in order.

* `run`: the state after a list of actions;
* `Meets C`: every action of the list is taken in a state where `C` holds;
* `Always P`: `P` holds in every state that the list passes through;
* `inv_run`: what one step preserves under `C`, a run whose steps all meet `C` preserves;
  `inv_run_trace`: the same for an invariant that speaks of the actions taken so far;
* `meets_congr`: two conditions that agree under an invariant agree on runs;
* `always_iff_meets`: where a step preserves `P` exactly under `C`, so does a run.
-/

namespace Runs

variable {σ α : Type*}

/-- The state after the actions `as`, taken from `s` in order. -/
def run (step : σ → α → Option σ) : σ → List α → Option σ
  | s, [] => some s
  | s, a :: as => (step s a).bind fun s' => run step s' as

/-- Every action of the list is taken in a state where `C` holds. -/
def Meets (step : σ → α → Option σ) (C : σ → α → Prop) : σ → List α → Prop
  | _, [] => True
  | s, a :: as => C s a ∧ ∀ s', step s a = some s' → Meets step C s' as

/-- `P` holds in every state that the list passes through, the first and the last included. -/
def Always (step : σ → α → Option σ) (P : σ → Prop) : σ → List α → Prop
  | s, [] => P s
  | s, a :: as => P s ∧ ∀ s', step s a = some s' → Always step P s' as

variable {step : σ → α → Option σ} {C D : σ → α → Prop}

@[simp] theorem run_nil (s : σ) : run step s [] = some s := rfl

theorem run_cons (s : σ) (a : α) (as : List α) :
    run step s (a :: as) = (step s a).bind fun s' => run step s' as := rfl

theorem run_cons_eq_some {s t : σ} {a : α} {as : List α} :
    run step s (a :: as) = some t ↔ ∃ s', step s a = some s' ∧ run step s' as = some t := by
  rw [run_cons, Option.bind_eq_some_iff]

/-- A run may be cut anywhere. -/
theorem run_append (s : σ) (as bs : List α) :
    run step s (as ++ bs) = (run step s as).bind fun t => run step t bs := by
  induction as generalizing s with
  | nil => rfl
  | cons a as ih => simp only [List.cons_append, run_cons, ih, Option.bind_assoc]

theorem exists_run_of_prefix {s t : σ} {as bs : List α} (h : as <+: bs)
    (hr : run step s bs = some t) : ∃ t', run step s as = some t' := by
  obtain ⟨rest, rfl⟩ := h
  rw [run_append] at hr
  obtain ⟨t', ht', -⟩ := Option.bind_eq_some_iff.1 hr
  exact ⟨t', ht'⟩

theorem meets_cons {s : σ} {a : α} {as : List α} :
    Meets step C s (a :: as) ↔ C s a ∧ ∀ s', step s a = some s' → Meets step C s' as := Iff.rfl

theorem Meets.mono {s : σ} {as : List α} (hCD : ∀ s a, C s a → D s a)
    (h : Meets step C s as) : Meets step D s as := by
  induction as generalizing s with
  | nil => trivial
  | cons a as ih => exact ⟨hCD s a h.1, fun s' hs' => ih (h.2 s' hs')⟩

theorem Meets.and {s : σ} {as : List α} (h : Meets step C s as) (h' : Meets step D s as) :
    Meets step (fun s a => C s a ∧ D s a) s as := by
  induction as generalizing s with
  | nil => trivial
  | cons a as ih => exact ⟨⟨h.1, h'.1⟩, fun s' hs' => ih (h.2 s' hs') (h'.2 s' hs')⟩

theorem meets_of_forall {s : σ} {as : List α} (h : ∀ s a, C s a) : Meets step C s as := by
  induction as generalizing s with
  | nil => trivial
  | cons a as ih => exact ⟨h s a, fun s' _ => ih⟩

theorem Meets.append {s : σ} {as bs : List α} (h : Meets step C s as)
    (hbs : ∀ t, run step s as = some t → Meets step C t bs) : Meets step C s (as ++ bs) := by
  induction as generalizing s with
  | nil => exact hbs s rfl
  | cons a as ih =>
    exact ⟨h.1, fun s' hs' => ih (h.2 s' hs') fun t ht => hbs t (by rw [run_cons, hs']; exact ht)⟩

/-- The actions before a cut are taken where `C` holds. -/
theorem Meets.prefix {s : σ} {as bs : List α} (h : Meets step C s (as ++ bs)) :
    Meets step C s as := by
  induction as generalizing s with
  | nil => trivial
  | cons a as ih => exact ⟨h.1, fun s' hs' => ih (h.2 s' hs')⟩

/-- The actions behind a cut are taken where `C` holds. -/
theorem Meets.suffix {s t : σ} {as bs : List α} (h : Meets step C s (as ++ bs))
    (hr : run step s as = some t) : Meets step C t bs := by
  induction as generalizing s with
  | nil =>
    cases hr
    exact h
  | cons a as ih =>
    obtain ⟨s', hs', hr'⟩ := run_cons_eq_some.1 hr
    exact ih (h.2 s' hs') hr'

/-- A condition on the actions alone is met by a run exactly when all its actions satisfy it. -/
theorem meets_iff_forall {E : α → Prop} {s : σ} {as : List α}
    (hr : (run step s as).isSome = true) :
    Meets step (fun _ a => E a) s as ↔ ∀ a ∈ as, E a := by
  induction as generalizing s with
  | nil => simp [Meets]
  | cons a as ih =>
    rw [run_cons, Option.isSome_bind] at hr
    cases hs' : step s a with
    | none =>
      rw [hs'] at hr
      cases hr
    | some s' =>
      have hr' : (run step s' as).isSome = true := by simpa [hs'] using hr
      simp [meets_cons, hs', ih hr']

/-- Where every action is possible, every run is. -/
theorem isSome_run (h : ∀ s a, (step s a).isSome = true) (s : σ) (as : List α) :
    (run step s as).isSome = true := by
  induction as generalizing s with
  | nil => rfl
  | cons a as ih =>
    obtain ⟨s', hs'⟩ := Option.isSome_iff_exists.1 (h s a)
    rw [run_cons, hs', Option.bind_some]
    exact ih s'

/-- **The induction principle of runs.** What every step taken under `C` preserves, a run whose
steps all meet `C` preserves. -/
theorem inv_run {I : σ → Prop}
    (hstep : ∀ s a s', I s → C s a → step s a = some s' → I s') {as : List α} :
    ∀ {s t : σ}, I s → Meets step C s as → run step s as = some t → I t := by
  induction as with
  | nil =>
    intro s t hs _ hr
    cases hr
    exact hs
  | cons a as ih =>
    intro s t hs hm hr
    obtain ⟨s', hs', hr'⟩ := run_cons_eq_some.1 hr
    exact ih (hstep s a s' hs hm.1 hs') (hm.2 s' hs') hr'

theorem always_of_inv {I : σ → Prop}
    (hstep : ∀ s a s', I s → C s a → step s a = some s' → I s') {as : List α} :
    ∀ {s : σ}, I s → Meets step C s as → Always step I s as := by
  induction as with
  | nil =>
    intro s hs _
    exact hs
  | cons a as ih =>
    intro s hs hm
    exact ⟨hs, fun s' hs' => ih (hstep s a s' hs hm.1 hs') (hm.2 s' hs')⟩

/-- What holds of a step under an invariant holds of all steps of a run. -/
theorem Meets.of_inv {I : σ → Prop}
    (hstep : ∀ s a s', I s → C s a → step s a = some s' → I s')
    (hD : ∀ s a, I s → C s a → D s a) {as : List α} :
    ∀ {s : σ}, I s → Meets step C s as → Meets step D s as := by
  induction as with
  | nil => exact fun _ _ => trivial
  | cons a as ih =>
    intro s hs hm
    exact ⟨hD s a hs hm.1, fun s' hs' => ih (hstep s a s' hs hm.1 hs') (hm.2 s' hs')⟩

theorem Always.head {P : σ → Prop} {s : σ} {as : List α} (h : Always step P s as) : P s := by
  cases as with
  | nil => exact h
  | cons a as => exact h.1

theorem Always.mono {P Q : σ → Prop} {as : List α} :
    ∀ {s : σ}, Always step P s as → (∀ s, P s → Q s) → Always step Q s as := by
  induction as with
  | nil =>
    intro s h hPQ
    exact hPQ s h
  | cons a as ih =>
    intro s h hPQ
    exact ⟨hPQ s h.1, fun s' hs' => ih (h.2 s' hs') hPQ⟩

theorem Always.last {P : σ → Prop} {as : List α} :
    ∀ {s t : σ}, Always step P s as → run step s as = some t → P t := by
  induction as with
  | nil =>
    intro s t h hr
    cases hr
    exact h
  | cons a as ih =>
    intro s t h hr
    obtain ⟨s', hs', hr'⟩ := run_cons_eq_some.1 hr
    exact ih (h.2 s' hs') hr'

/-- **When a property holds throughout.** If a step preserves `P` exactly when it is taken under
`C`, then `P` holds throughout a run exactly when all its steps are taken under `C`. -/
theorem always_iff_meets {I P : σ → Prop} (hI : ∀ s a s', I s → step s a = some s' → I s')
    (hstep : ∀ s a s', I s → P s → step s a = some s' → (C s a ↔ P s')) {as : List α} :
    ∀ {s : σ}, I s → P s → (run step s as).isSome = true →
      (Always step P s as ↔ Meets step C s as) := by
  induction as with
  | nil =>
    intro s _ hs _
    exact ⟨fun _ => trivial, fun _ => hs⟩
  | cons a as ih =>
    intro s hi hs hr
    rw [run_cons, Option.isSome_bind] at hr
    cases hs' : step s a with
    | none =>
      rw [hs'] at hr
      cases hr
    | some s' =>
      rw [hs'] at hr
      have hc := hstep s a s' hi hs hs'
      have hrec := fun hp : P s' => ih (hI s a s' hi hs') hp (by simpa using hr)
      constructor
      · rintro ⟨-, h⟩
        have hp := (h s' hs').head
        refine ⟨hc.2 hp, fun s'' hs'' => ?_⟩
        cases hs'.symm.trans hs''
        exact (hrec hp).1 (h s' hs')
      · rintro ⟨hC, h⟩
        refine ⟨hs, fun s'' hs'' => ?_⟩
        cases hs'.symm.trans hs''
        exact (hrec (hc.1 hC)).2 (h s' hs')

/-- Two conditions on the steps that agree where an invariant holds agree on runs. -/
theorem meets_congr {I : σ → Prop} (hI : ∀ s a s', I s → step s a = some s' → I s')
    (hstep : ∀ s a s', I s → step s a = some s' → (C s a ↔ D s a)) {as : List α} :
    ∀ {s : σ}, I s → (run step s as).isSome = true → (Meets step C s as ↔ Meets step D s as) := by
  induction as with
  | nil => exact fun _ _ => Iff.rfl
  | cons a as ih =>
    intro s hs hr
    rw [run_cons, Option.isSome_bind] at hr
    cases hs' : step s a with
    | none =>
      rw [hs'] at hr
      cases hr
    | some s' =>
      rw [hs'] at hr
      rw [meets_cons, meets_cons, hstep s a s' hs hs']
      refine and_congr_right fun _ => forall_congr' fun s'' => imp_congr_right fun hs'' => ?_
      cases hs'.symm.trans hs''
      exact ih (hI s a s' hs hs') (by simpa using hr)

/-- An invariant that speaks of the actions that were taken so far. -/
theorem inv_run_trace {I : List α → σ → Prop}
    (hstep : ∀ before s a s', I before s → step s a = some s' → I (before ++ [a]) s')
    {as : List α} {s t : σ} (hs : I [] s) (hr : run step s as = some t) : I as t := by
  suffices h : ∀ before s, I before s → run step s as = some t → I (before ++ as) t from
    h [] s hs hr
  clear hs hr
  induction as with
  | nil =>
    intro before s hs hr
    cases hr
    rwa [List.append_nil]
  | cons a as ih =>
    intro before s hs hr
    obtain ⟨s', hs', hr'⟩ := run_cons_eq_some.1 hr
    simpa using ih (before ++ [a]) s' (hstep before s a s' hs hs') hr'

/-- What every step preserves, every run preserves. -/
theorem inv_run_of_step {I : σ → Prop} (hstep : ∀ s a s', I s → step s a = some s' → I s')
    {as : List α} {s t : σ} (hs : I s) (hr : run step s as = some t) : I t :=
  inv_run (C := fun _ _ => True) (fun s a s' hI _ => hstep s a s' hI) hs
    (meets_of_forall fun _ _ => trivial) hr

end Runs
