import Mathlib.Data.List.Basic
import Mathlib.Tactic.Ring

/-!
# Regions of a flat array

A byte array is a list. `region l pos len` is the part of `l` that starts at `pos` and is `len`
long; `overwrite l pos bs` is `l` with `bs` stored at `pos`. The lemmas say how the two interact
and how they act on an array that is cut into consecutive segments.

* `region_overwrite_self`, `region_overwrite_of_disjoint`: read after write;
* `region_overwrite_copy`: a copy that is built from behind;
* `overwrite_append_left`, `overwrite_append_right`, `overwrite_append_split`: a store into the
  concatenation of two segments, in the first, in the second or across the cut;
* `ext_of_blocks`: an array is determined by its blocks of a fixed positive length;
* `Tiles`, `Tiles.flatMap_region`: intervals that follow each other, and the regions they cut out.
-/

namespace Splice

variable {α : Type*}

/-- The part of `l` at `[pos, pos + len)`. -/
def region (l : List α) (pos len : ℕ) : List α := (l.drop pos).take len

/-- `l` with `bs` stored at `pos`. -/
def overwrite (l : List α) (pos : ℕ) (bs : List α) : List α :=
  l.take pos ++ bs ++ l.drop (pos + bs.length)

/-! ### Regions -/

@[simp] theorem region_zero_length (l : List α) (pos : ℕ) : region l pos 0 = [] := by
  simp [region]

theorem region_full (l : List α) : region l 0 l.length = l := by
  simp [region]

theorem length_region {l : List α} {pos len : ℕ} (h : pos + len ≤ l.length) :
    (region l pos len).length = len := by
  simp [region]; omega

theorem region_append_left {l m : List α} {pos len : ℕ} (h : pos + len ≤ l.length) :
    region (l ++ m) pos len = region l pos len := by
  rw [region, region, List.drop_append_of_le_length (by omega), List.take_append_of_le_length]
  simp; omega

theorem region_append_right {l m : List α} {pos len : ℕ} (h : l.length ≤ pos) :
    region (l ++ m) pos len = region m (pos - l.length) len := by
  rw [region, region, List.drop_append, List.drop_eq_nil_of_le h, List.nil_append]

/-- A region is the concatenation of two adjacent ones. -/
theorem region_add (l : List α) (pos a b : ℕ) :
    region l pos (a + b) = region l pos a ++ region l (pos + a) b := by
  rw [region, region, region, List.take_add, List.drop_drop]

theorem getElem?_region (l : List α) (pos len i : ℕ) :
    (region l pos len)[i]? = if i < len then l[pos + i]? else none := by
  rw [region, List.getElem?_take]
  split_ifs <;> simp [List.getElem?_drop]

/-- A region of a region. -/
theorem region_region {l : List α} {pos len a b : ℕ} (h : a + b ≤ len) :
    region (region l pos len) a b = region l (pos + a) b := by
  apply List.ext_getElem?
  intro i
  simp only [getElem?_region]
  split_ifs with h1 h2
  · rw [Nat.add_assoc]
  · omega
  · rfl

/-! ### Tilings -/

/-- The intervals, each with its begin and its length, follow each other from `a` to `b`. -/
def Tiles : ℕ → List (ℕ × ℕ) → ℕ → Prop
  | a, [], b => a = b
  | a, t :: ts, b => t.1 = a ∧ Tiles (a + t.2) ts b

theorem Tiles.le {ts : List (ℕ × ℕ)} {a b : ℕ} (h : Tiles a ts b) : a ≤ b := by
  induction ts generalizing a with
  | nil => exact Nat.le_of_eq h
  | cons t ts ih => exact (Nat.le_add_right a t.2).trans (ih h.2)

theorem Tiles.bounds {ts : List (ℕ × ℕ)} {a b : ℕ} (h : Tiles a ts b) {t : ℕ × ℕ} (ht : t ∈ ts) :
    a ≤ t.1 ∧ t.1 + t.2 ≤ b := by
  induction ts generalizing a with
  | nil => cases ht
  | cons u ts ih =>
    obtain ⟨hu, hts⟩ := h
    have hle := hts.le
    rcases List.mem_cons.1 ht with rfl | ht
    · omega
    · have := ih hts ht
      omega

/-- One more interval at the end. -/
theorem Tiles.concat {ts : List (ℕ × ℕ)} {a b : ℕ} (h : Tiles a ts b) (len : ℕ) :
    Tiles a (ts ++ [(b, len)]) (b + len) := by
  induction ts generalizing a with
  | nil => exact ⟨h.symm, congrArg (· + len) h⟩
  | cons t ts ih => exact ⟨h.1, ih h.2⟩

/-- One of the intervals ends where the tiling ends. -/
theorem Tiles.exists_end {ts : List (ℕ × ℕ)} {a b : ℕ} (h : Tiles a ts b) (hab : a < b) :
    ∃ t ∈ ts, t.1 + t.2 = b := by
  induction ts generalizing a with
  | nil => exact absurd h (Nat.ne_of_lt hab)
  | cons t ts ih =>
    obtain ⟨ht, hts⟩ := h
    by_cases hend : a + t.2 = b
    · exact ⟨t, List.mem_cons_self, by rw [ht, hend]⟩
    · obtain ⟨u, hu, he⟩ := ih hts (lt_of_le_of_ne hts.le hend)
      exact ⟨u, List.mem_cons_of_mem t hu, he⟩

/-- The regions of a tiling make up the whole. -/
theorem Tiles.flatMap_region {ts : List (ℕ × ℕ)} {a b : ℕ} (h : Tiles a ts b) (l : List α) :
    ts.flatMap (fun t => region l t.1 t.2) = region l a (b - a) := by
  induction ts generalizing a with
  | nil =>
    rw [show b - a = 0 from Nat.sub_eq_zero_of_le (Nat.le_of_eq (Eq.symm h)), region_zero_length]
    rfl
  | cons t ts ih =>
    obtain ⟨ht, hts⟩ := h
    have hle := hts.le
    rw [List.flatMap_cons, ih hts, ht, ← region_add]
    congr 1
    omega

/-! ### Stores -/

@[simp] theorem overwrite_nil (l : List α) (pos : ℕ) : overwrite l pos [] = l := by
  simp [overwrite]

theorem length_overwrite {l : List α} {pos : ℕ} {bs : List α} (h : pos + bs.length ≤ l.length) :
    (overwrite l pos bs).length = l.length := by
  simp [overwrite]; omega

theorem getElem?_overwrite {l : List α} {pos : ℕ} {bs : List α} (h : pos ≤ l.length) (i : ℕ) :
    (overwrite l pos bs)[i]? =
      if i < pos then l[i]? else if i < pos + bs.length then bs[i - pos]? else l[i]? := by
  have hlen : (l.take pos).length = pos := by simp; omega
  rw [overwrite, List.append_assoc]
  split_ifs with h1 h2
  · rw [List.getElem?_append_left (by omega), List.getElem?_take_of_lt h1]
  · rw [List.getElem?_append_right (by omega), hlen, List.getElem?_append_left (by omega)]
  · rw [List.getElem?_append_right (by omega), hlen, List.getElem?_append_right (by omega),
      List.getElem?_drop]
    congr 1
    omega

/-- A store at the front of a list of the same length replaces it. -/
theorem overwrite_all {l bs : List α} (h : bs.length = l.length) : overwrite l 0 bs = bs := by
  simp [overwrite, h]

/-- What was stored is read back. -/
theorem region_overwrite_self {l : List α} {pos : ℕ} {bs : List α} (h : pos ≤ l.length) :
    region (overwrite l pos bs) pos bs.length = bs := by
  have hlen : (l.take pos).length = pos := by simp; omega
  rw [overwrite, List.append_assoc, region_append_right (by omega), hlen, Nat.sub_self,
    region_append_left (by omega), region_full]

/-- A store does not disturb a region it does not meet. -/
theorem region_overwrite_of_disjoint {l : List α} {pos : ℕ} {bs : List α} {p n : ℕ}
    (h : pos ≤ l.length) (hd : p + n ≤ pos ∨ pos + bs.length ≤ p) :
    region (overwrite l pos bs) p n = region l p n := by
  apply List.ext_getElem?
  intro i
  simp only [getElem?_region]
  by_cases hi : i < n
  · rw [if_pos hi, if_pos hi, getElem?_overwrite h]
    rcases hd with hd | hd
    · rw [if_pos (by omega)]
    · rw [if_neg (by omega), if_neg (by omega)]
  · rw [if_neg hi, if_neg hi]

/-- What was stored, and what was there behind it. -/
theorem region_overwrite_add {l : List α} {pos : ℕ} {bs : List α} (h : pos ≤ l.length) (n : ℕ) :
    region (overwrite l pos bs) pos (bs.length + n) = bs ++ region l (pos + bs.length) n := by
  rw [region_add, region_overwrite_self h, region_overwrite_of_disjoint h (Or.inr le_rfl)]

/-- A copy of a part of `s` grows to the front by the part that is stored before it. -/
theorem region_overwrite_copy {l s : List α} {pos off n len : ℕ} (h : pos ≤ l.length)
    (hs : off + n ≤ s.length) (hcopy : region l (pos + n) len = region s (off + n) len) :
    region (overwrite l pos (region s off n)) pos (n + len) = region s off (n + len) := by
  have hstored := @region_overwrite_add α l pos (region s off n) h len
  rwa [length_region hs, hcopy, ← region_add] at hstored

/-! ### Segments -/

/-- A store that ends inside the first segment. -/
theorem overwrite_append_left {l m : List α} {pos : ℕ} {bs : List α}
    (h : pos + bs.length ≤ l.length) : overwrite (l ++ m) pos bs = overwrite l pos bs ++ m := by
  rw [overwrite, overwrite, List.take_append_of_le_length (by omega),
    List.drop_append_of_le_length h, List.append_assoc (l.take pos ++ bs)]

/-- A store that begins after the first segment. -/
theorem overwrite_append_right {l m : List α} {pos : ℕ} {bs : List α} (h : l.length ≤ pos) :
    overwrite (l ++ m) pos bs = l ++ overwrite m (pos - l.length) bs := by
  rw [overwrite, overwrite, List.take_append, List.take_of_length_le h, List.drop_append,
    List.drop_eq_nil_of_le (by omega : l.length ≤ pos + bs.length), List.nil_append,
    show pos + bs.length - l.length = pos - l.length + bs.length by omega]
  simp [List.append_assoc]

/-- A store across the cut is a store at the end of the first segment and one at the front of
the second. -/
theorem overwrite_append_split {l m : List α} {pos : ℕ} {bs : List α} (h1 : pos ≤ l.length)
    (h2 : l.length ≤ pos + bs.length) :
    overwrite (l ++ m) pos bs =
      overwrite l pos (bs.take (l.length - pos)) ++ overwrite m 0 (bs.drop (l.length - pos)) := by
  have hlen : (bs.take (l.length - pos)).length = l.length - pos := by simp; omega
  rw [overwrite, overwrite, overwrite, hlen, List.take_append_of_le_length h1,
    List.drop_eq_nil_of_le (by omega : l.length ≤ pos + (l.length - pos)), List.drop_append,
    List.drop_eq_nil_of_le h2, List.nil_append, List.append_nil, List.take_zero, List.nil_append,
    List.length_drop, show pos + bs.length - l.length = 0 + (bs.length - (l.length - pos)) by omega]
  simp only [List.append_assoc]
  rw [← List.append_assoc (bs.take _) (bs.drop _), List.take_append_drop]

/-! ### Blocks of a fixed length -/

/-- Two arrays of one length that agree on every block `[i * P, i * P + P)` are equal. -/
theorem ext_of_blocks {l m : List α} {P : ℕ} (hP : 0 < P) (hlen : l.length = m.length)
    (h : ∀ i, i * P < l.length → region l (i * P) P = region m (i * P) P) : l = m := by
  apply List.ext_getElem?
  intro k
  by_cases hk : k < l.length
  · have hdiv : k / P * P + k % P = k := by rw [Nat.mul_comm]; exact Nat.div_add_mod k P
    have hmod : k % P < P := Nat.mod_lt k hP
    have hb := congrArg (·[k % P]?) (h (k / P) (by omega))
    simpa [getElem?_region, hmod, hdiv] using hb
  · rw [List.getElem?_eq_none (by omega), List.getElem?_eq_none (by omega)]

end Splice
