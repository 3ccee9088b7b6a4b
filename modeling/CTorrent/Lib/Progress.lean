import CTorrent.Lib.Runs
import Mathlib.Algebra.BigOperators.Intervals

/-!
# Runs that come to an end

A measure of what is left to be done. Where every step takes one off it and a step is possible as
long as anything is left, the order of the steps does not matter: every run can be continued to the
end, none goes on behind it, and all that reach it are of one length.

* `length_add_measure`: a run takes its length off the measure;
* `step_or_end`: a run that is shorter goes on;
* `rest`: the cost of the tasks that are left; `rest_remove`: one of them is taken.
-/

namespace Runs

variable {σ α : Type*} {step : σ → α → Option σ} {I : σ → Prop} {μ : σ → ℕ}

/-- A run takes its length off the measure. -/
theorem length_add_measure (hI : ∀ s a s', I s → step s a = some s' → I s' ∧ μ s' + 1 = μ s)
    {as : List α} {s t : σ} (hs : I s) (hr : run step s as = some t) :
    I t ∧ as.length + μ t = μ s := by
  induction as generalizing s with
  | nil =>
    cases hr
    exact ⟨hs, Nat.zero_add _⟩
  | cons a as ih =>
    obtain ⟨s', hs', hr'⟩ := run_cons_eq_some.1 hr
    obtain ⟨hinv, hone⟩ := hI s a s' hs hs'
    obtain ⟨ht, hrest⟩ := ih hinv hr'
    rw [List.length_cons]
    exact ⟨ht, by omega⟩

/-- A run can be continued, or has come to the end. -/
theorem step_or_end (hI : ∀ s a s', I s → step s a = some s' → I s' ∧ μ s' + 1 = μ s)
    (hprogress : ∀ s, I s → μ s ≠ 0 → ∃ a, (step s a).isSome = true) {as : List α} {s t : σ}
    (hs : I s) (hr : run step s as = some t) :
    as.length ≤ μ s ∧ (as.length < μ s → ∃ a, (step t a).isSome = true) ∧
      (as.length = μ s → μ t = 0 ∧ ∀ a, step t a = none) := by
  obtain ⟨ht, hlength⟩ := length_add_measure hI hs hr
  refine ⟨by omega, fun hlt => hprogress t ht (by omega), fun heq => ⟨by omega, fun a => ?_⟩⟩
  cases ha : step t a with
  | none => rfl
  | some t' =>
    have hone := (hI t a t' ht ha).2
    omega

/-- The cost of the tasks below `n` that are left. -/
def rest (cost : ℕ → ℕ) (left : ℕ → Bool) (n : ℕ) : ℕ :=
  ∑ i ∈ Finset.range n, if left i then cost i else 0

variable (cost : ℕ → ℕ) {left left' : ℕ → Bool} {n : ℕ}

theorem rest_congr (h : ∀ i < n, left' i = left i) : rest cost left' n = rest cost left n :=
  Finset.sum_congr rfl fun i hi => by rw [h i (Finset.mem_range.1 hi)]

variable {cost} in
/-- Nothing is left. -/
theorem rest_eq_zero (hcost : ∀ i < n, cost i ≠ 0) :
    rest cost left n = 0 ↔ ∀ i < n, left i = false := by
  rw [rest, Finset.sum_eq_zero_iff]
  refine forall_congr' fun i => ?_
  rw [Finset.mem_range]
  refine imp_congr_right fun hi => ?_
  cases left i <;> simp [hcost i hi]

variable (left left')

/-- One task is taken. -/
theorem rest_remove {k : ℕ} (hk : k < n) (hleft : left k = true)
    (h : ∀ i < n, left' i = (!decide (i = k) && left i)) :
    rest cost left' n + cost k = rest cost left n := by
  have hmem : k ∈ Finset.range n := Finset.mem_range.2 hk
  rw [rest, rest, ← Finset.add_sum_erase _ _ hmem, ← Finset.add_sum_erase _ _ hmem, h k hk, hleft]
  have hothers : ∀ i ∈ (Finset.range n).erase k,
      (if left' i then cost i else 0) = if left i then cost i else 0 := by
    intro i hi
    obtain ⟨hne, hi⟩ := Finset.mem_erase.1 hi
    rw [h i (Finset.mem_range.1 hi), decide_eq_false hne]
    rfl
  rw [Finset.sum_congr rfl hothers]
  simp [Nat.add_comm]

end Runs
