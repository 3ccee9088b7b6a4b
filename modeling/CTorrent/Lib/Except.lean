import Mathlib.Data.List.Basic

/-!
# Computations that stop at the first fault

* `ok_bind`, `pure_eq_ok`: a step without a fault;
* `foldlM_eq_ok`: a loop whose passes have no fault.
-/

namespace Except

universe u v

variable {ε : Type u} {α β : Type v}

@[simp] theorem ok_bind (a : α) (f : α → Except ε β) : (Except.ok a >>= f) = f a := rfl

@[simp] theorem pure_eq_ok (a : α) : (pure a : Except ε α) = .ok a := rfl

/-- A loop whose passes all succeed. -/
theorem foldlM_eq_ok {f : β → α → Except ε β} {g : β → α → β} {l : List α}
    (h : ∀ a ∈ l, ∀ b, f b a = .ok (g b a)) (b : β) : l.foldlM f b = .ok (l.foldl g b) := by
  induction l generalizing b with
  | nil => rfl
  | cons a l ih =>
    rw [List.foldlM_cons, h a List.mem_cons_self b, ok_bind, List.foldl_cons]
    exact ih (fun a' ha' => h a' (List.mem_cons_of_mem a ha')) _

end Except
