import CTorrent.Lib.Cut
import Mathlib.Data.List.DropRight

/-!
# POSIX paths, read lexically

A path is a list of bytes. `resolve` takes `.` and `..` away without asking a file system: nothing
lies above the root, and what a relative path leaves above its start is kept as a run of `..`.

* `names`, `baseName`, `upToLast`: the parts of a path;
* `elements`, `parentElements`: the path as a sequence that ends in `.` behind a final separator;
* `resolve`, `StrictlyUnder`: where a path leads, and that it stays below another one;
* `enter_append_iff`: which single name leads out.
-/

namespace Path

/-- The separator. -/
def sep : UInt8 := 47

/-- The name `.`. -/
def dot : List UInt8 := [46]

/-- The name `..`. -/
def dotdot : List UInt8 := [46, 46]

/-- The names of a path; an empty one between two separators does not count. -/
def names (p : List UInt8) : List (List UInt8) := (p.splitOn sep).filter (· ≠ [])

/-- The path begins with a separator. -/
def isAbsolute (p : List UInt8) : Bool := p.head? == some sep

/-- What stands behind the last separator. -/
def baseName (p : List UInt8) : List UInt8 := (p.reverse.takeWhile (· ≠ sep)).reverse

/-- What stands before the last separator, or the whole path when there is none. -/
def upToLast (p : List UInt8) : List UInt8 :=
  if sep ∈ p then (p.reverse.dropWhile (· ≠ sep)).tail.reverse else p

/-- A name that is neither empty nor one of the two special ones. -/
def Proper (name : List UInt8) : Prop := name ≠ [] ∧ name ≠ dot ∧ name ≠ dotdot

/-- A path that ends so leads to a directory. -/
def NamesDirectory (p : List UInt8) : Prop :=
  baseName p = [] ∨ baseName p = dot ∨ baseName p = dotdot

instance (p : List UInt8) : Decidable (NamesDirectory p) :=
  inferInstanceAs (Decidable (_ ∨ _ ∨ _))

/-- The elements of a path: its root, its names, and a `.` for a separator at the end. -/
def elements (p : List UInt8) : List (List UInt8) :=
  (if isAbsolute p then [[sep]] else []) ++ names p ++
    (if names p ≠ [] ∧ p.getLast? = some sep then [dot] else [])

/-- The elements of the parent path: all but the last one. -/
def parentElements (p : List UInt8) : List (List UInt8) := (elements p).dropLast

/-- The directory that a name leads to. -/
def enter (absolute : Bool) (dir : List (List UInt8)) (name : List UInt8) : List (List UInt8) :=
  if name = dot then dir
  else if name = dotdot then
    if dir = [] ∧ absolute then []
    else if dir = [] ∨ dir.getLast? = some dotdot then dir ++ [dotdot]
    else dir.dropLast
  else dir ++ [name]

/-- The path without `.` and `..`. -/
def resolve (p : List UInt8) : List (List UInt8) := (names p).foldl (enter (isAbsolute p)) []

/-- `p` leads to something below `base`. -/
def StrictlyUnder (base p : List UInt8) : Prop :=
  isAbsolute p = isAbsolute base ∧
    ∃ rest, rest ≠ [] ∧ dotdot ∉ rest ∧ resolve p = resolve base ++ rest

theorem proper_baseName {p : List UInt8} (h : ¬NamesDirectory p) : Proper (baseName p) := by
  rwa [NamesDirectory, not_or, not_or] at h

section Names

variable {p q d l : List UInt8}

theorem names_nil : names [] = [] := rfl

theorem ne_nil_of_mem_names {n : List UInt8} (h : n ∈ names p) : n ≠ [] := by
  simpa using (List.mem_filter.1 h).2

theorem names_append_sep (p q : List UInt8) : names (p ++ sep :: q) = names p ++ names q := by
  rw [names, List.splitOn_append_cons_self, List.filter_append]
  rfl

theorem names_of_not_mem (h : sep ∉ p) (hp : p ≠ []) : names p = [p] := by
  rw [names, List.splitOn_eq_singleton h]
  simp [hp]

/-- Each byte of a path is a separator or stands in a name. -/
theorem exists_name {b : UInt8} (hb : b ∈ p) (hne : b ≠ sep) : ∃ n ∈ names p, b ∈ n := by
  induction p with
  | nil => cases hb
  | cons c p ih =>
    rw [names, List.splitOn_cons_eq_if_modifyHead]
    by_cases hc : c = sep
    · obtain ⟨n, hn, hbn⟩ := ih (List.mem_of_ne_of_mem (hc ▸ hne) hb)
      exact ⟨n, by simpa [hc, names] using hn, hbn⟩
    · obtain ⟨n, ns, hns⟩ := List.exists_cons_of_ne_nil (List.splitOn_ne_nil sep p)
      rw [names, hns] at ih
      rw [hns, if_neg (by simpa using hc), List.modifyHead_cons, List.filter_cons_of_pos (by simp)]
      rcases List.mem_cons.1 hb with rfl | hb
      · exact ⟨b :: n, List.mem_cons_self, List.mem_cons_self⟩
      · obtain ⟨m, hm, hbm⟩ := ih hb
        rcases List.mem_cons.1 (List.mem_filter.1 hm).1 with rfl | hmem
        · exact ⟨c :: m, List.mem_cons_self, List.mem_cons_of_mem _ hbm⟩
        · exact ⟨m, List.mem_cons_of_mem _ (List.mem_filter.2 ⟨hmem, (List.mem_filter.1 hm).2⟩),
            hbm⟩

theorem baseName_append_sep (h : sep ∉ l) : baseName (d ++ sep :: l) = l := by
  have hrev : (d ++ sep :: l).reverse = l.reverse ++ sep :: d.reverse := by simp
  have hl : sep ∉ l.reverse := fun hc => h (List.mem_reverse.1 hc)
  rw [baseName, hrev, Cut.takeWhile_ne_append_cons hl, List.reverse_reverse]

theorem upToLast_append_sep (h : sep ∉ l) : upToLast (d ++ sep :: l) = d := by
  have hrev : (d ++ sep :: l).reverse = l.reverse ++ sep :: d.reverse := by simp
  have hl : sep ∉ l.reverse := fun hc => h (List.mem_reverse.1 hc)
  rw [upToLast, if_pos (by simp), hrev, Cut.dropWhile_ne_append_cons hl, List.tail_cons,
    List.reverse_reverse]

theorem isAbsolute_append (hp : p ≠ []) : isAbsolute (p ++ q) = isAbsolute p := by
  rw [isAbsolute, isAbsolute, List.head?_append_of_ne_nil _ hp]

theorem length_elements (p : List UInt8) :
    (elements p).length = (if isAbsolute p then 1 else 0) + (names p).length +
      (if names p ≠ [] ∧ p.getLast? = some sep then 1 else 0) := by
  rw [elements, List.length_append, List.length_append]
  split_ifs <;> rfl

/-- A path with a separator, cut at the last one. -/
theorem exists_append_sep (h : sep ∈ p) : ∃ d l, p = d ++ sep :: l ∧ sep ∉ l := by
  obtain ⟨l, d, hrev, hl⟩ := List.eq_append_cons_of_mem (List.mem_reverse.2 h)
  refine ⟨d.reverse, l.reverse, ?_, fun hc => hl (List.mem_reverse.1 hc)⟩
  rw [← List.reverse_reverse p, hrev]
  simp

end Names

/-! ### Resolving -/

section Resolve

variable {absolute : Bool} {dir : List (List UInt8)} {name last : List UInt8}

theorem enter_proper (h : Proper name) : enter absolute dir name = dir ++ [name] := by
  rw [enter, if_neg h.2.1, if_neg h.2.2]

/-- Behind a name, a proper one stays below the directory, unless the first one is `..` and the
directory is not the root. -/
theorem enter_append_iff (hl : Proper last) (hn : name ≠ []) :
    (∃ rest, rest ≠ [] ∧ dotdot ∉ rest ∧ enter absolute dir name ++ [last] = dir ++ rest) ↔
      (name = dotdot → dir = [] ∧ absolute = true) := by
  by_cases hdot : name = dot
  · subst hdot
    refine iff_of_true ⟨[last], by simp, ?_, ?_⟩ (fun h => absurd h (by decide))
    · simpa using hl.2.2.symm
    · rw [enter, if_pos rfl]
  by_cases hdd : name = dotdot
  · rw [enter, if_neg hdot, if_pos hdd]
    by_cases hroot : dir = [] ∧ absolute = true
    · refine iff_of_true ⟨[last], by simp, ?_, ?_⟩ (fun _ => hroot)
      · simpa using hl.2.2.symm
      · rw [if_pos hroot, hroot.1]
    · refine iff_of_false ?_ (fun h => hroot (h hdd))
      rintro ⟨rest, hrest, hmem, heq⟩
      rw [if_neg hroot] at heq
      split_ifs at heq with hup
      · rw [List.append_assoc, List.append_cancel_left_eq] at heq
        exact hmem (heq ▸ List.mem_cons_self)
      · have hlen := congrArg List.length heq
        have hdir : 0 < dir.length := List.length_pos_of_ne_nil fun h => hup (Or.inl h)
        have hpos : 0 < rest.length := List.length_pos_of_ne_nil hrest
        simp only [List.length_append, List.length_dropLast, List.length_singleton] at hlen
        omega
  · refine iff_of_true ⟨[name, last], by simp, ?_, ?_⟩ (fun h => absurd h hdd)
    · simp only [List.mem_cons, List.not_mem_nil, or_false, not_or]
      exact ⟨Ne.symm hdd, hl.2.2.symm⟩
    · rw [enter_proper ⟨hn, hdot, hdd⟩, List.append_assoc]
      rfl

end Resolve

end Path
