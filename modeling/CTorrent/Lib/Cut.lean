import Mathlib.Data.List.TakeWhile

/-!
# Cutting a list at an element

What stands before the first occurrence of an element, and what stands from it on.

* `takeWhile_ne_append`, `dropWhile_ne_append`: behind a part without the element;
* `eq_of_append_cons_eq`: a list is cut at the first occurrence in one way only;
* `upTo`: a list up to the first element with a property; `upTo_append_eq_iff`;
* `forall_split_cons`: the ways to cut a list at some element.
-/

namespace Cut

variable {α : Type*} [DecidableEq α] {a : α} {s s' : List α}

theorem ne_of_mem_of_notMem (h : a ∉ s) : ∀ b ∈ s, decide (b ≠ a) = true := by
  intro b hb
  have hne : b ≠ a := fun hc => h (hc ▸ hb)
  exact decide_eq_true hne

theorem takeWhile_ne_append (h : a ∉ s) (t : List α) :
    (s ++ t).takeWhile (· ≠ a) = s ++ t.takeWhile (· ≠ a) :=
  List.takeWhile_append_of_pos (ne_of_mem_of_notMem h)

theorem dropWhile_ne_append (h : a ∉ s) (t : List α) :
    (s ++ t).dropWhile (· ≠ a) = t.dropWhile (· ≠ a) :=
  List.dropWhile_append_of_pos (ne_of_mem_of_notMem h)

/-- The element does not occur. -/
theorem takeWhile_ne_of_notMem (h : a ∉ s) : s.takeWhile (· ≠ a) = s :=
  List.takeWhile_eq_self_iff.2 (ne_of_mem_of_notMem h)

theorem dropWhile_ne_of_notMem (h : a ∉ s) : s.dropWhile (· ≠ a) = [] :=
  List.dropWhile_eq_nil_iff.2 (ne_of_mem_of_notMem h)

/-- The first occurrence is there. -/
theorem takeWhile_ne_append_cons (h : a ∉ s) (t : List α) :
    (s ++ a :: t).takeWhile (· ≠ a) = s := by
  rw [takeWhile_ne_append h]
  simp

theorem dropWhile_ne_append_cons (h : a ∉ s) (t : List α) :
    (s ++ a :: t).dropWhile (· ≠ a) = a :: t := by
  rw [dropWhile_ne_append h]
  simp

theorem eq_of_append_cons_eq {t t' : List α} (h : a ∉ s) (h' : a ∉ s')
    (heq : s ++ a :: t = s' ++ a :: t') : s = s' ∧ t = t' := by
  have hcut := congrArg (List.takeWhile (· ≠ a)) heq
  rw [takeWhile_ne_append_cons h, takeWhile_ne_append_cons h'] at hcut
  subst hcut
  exact ⟨rfl, (List.cons.inj (List.append_cancel_left heq)).2⟩

/-! ### Up to the first hit -/

/-- The list up to the first element that satisfies `p`, which is included. -/
def upTo {α : Type*} (p : α → Bool) : List α → List α
  | [] => []
  | a :: l => if p a then [a] else a :: upTo p l

section UpTo

variable {α : Type*} {p : α → Bool}

theorem upTo_cons_of_neg {a : α} (h : p a = false) (l : List α) :
    upTo p (a :: l) = a :: upTo p l := by
  rw [upTo, h]
  rfl

/-- The first element that satisfies `p` is in that part. -/
theorem find?_upTo (l : List α) : (upTo p l).find? p = l.find? p := by
  induction l with
  | nil => rfl
  | cons a l ih =>
    rw [upTo, List.find?_cons]
    by_cases ha : p a = true
    · simp [ha]
    · simp [ha, ih]

theorem upTo_append_eq_iff (l m m' : List α) :
    upTo p (l ++ m) = upTo p (l ++ m') ↔ (∃ a ∈ l, p a = true) ∨ upTo p m = upTo p m' := by
  induction l with
  | nil => simp
  | cons a l ih =>
    rw [List.cons_append, List.cons_append, upTo, upTo]
    by_cases ha : p a = true
    · simp [ha]
    · rw [if_neg ha, if_neg ha, List.cons.injEq, and_iff_right rfl, ih]
      simp [ha]

/-- Every cut of a list is one before its head or one behind it. -/
theorem forall_split_cons {P : List α → α → Prop} {a : α} {l : List α} :
    (∀ pre x post, a :: l = pre ++ x :: post → P pre x) ↔
      P [] a ∧ ∀ pre x post, l = pre ++ x :: post → P (a :: pre) x := by
  constructor
  · intro h
    refine ⟨h [] a l rfl, fun pre x post hl => h (a :: pre) x post ?_⟩
    rw [hl, List.cons_append]
  · rintro ⟨hhead, htail⟩ pre x post hl
    cases pre with
    | nil =>
      obtain ⟨rfl, -⟩ := List.cons.inj hl
      exact hhead
    | cons b pre =>
      obtain ⟨rfl, hrest⟩ := List.cons.inj hl
      exact htail pre x post hrest

end UpTo

end Cut
