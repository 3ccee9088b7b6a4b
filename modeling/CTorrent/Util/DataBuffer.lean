import Mathlib.Tactic.Linarith

/-!
# `util/databuffer.h`: the growing buffer

`DataBuffer` is `m_size` together with the cells `m_buffer[0 .. m_capacity)`. Reading a cell is
checked by an assertion (`get?` is `none` where it fails). Growing doubles the capacity until it
suffices and copies `m_size` elements; the cells behind them come uninitialised from `new`, and
`fresh` says what they happen to hold.

* `contents`: the elements below `m_size`;
* `add_spec`: on a buffer of positive capacity `add` appends one element and nothing else.
-/

namespace CTorrent

/-- A buffer: the number of elements in use and the allocated cells. -/
structure DataBuffer (α : Type) where
  size : ℕ
  cells : List α

namespace DataBuffer

variable {α : Type} (fresh : ℕ → α)

/-- `cap()`. -/
def cap (b : DataBuffer α) : ℕ := b.cells.length

/-- `rem()`. -/
def rem (b : DataBuffer α) : ℕ := b.cap - b.size

/-- `operator[]`; `none` where `assert(i < m_capacity)` fails. -/
def get? (b : DataBuffer α) (i : ℕ) : Option α := b.cells[i]?

/-- The constructor: `res` uninitialised cells. -/
def new (res : ℕ) : DataBuffer α := ⟨0, (List.range res).map fresh⟩

/-- `setData`. -/
def setData (data : List α) : DataBuffer α := ⟨0, data⟩

/-- `setSize`. -/
def setSize (b : DataBuffer α) (s : ℕ) : DataBuffer α := { b with size := s }

/-- `reserve`: a larger block takes over the elements in use. -/
def reserve (b : DataBuffer α) (n : ℕ) : DataBuffer α :=
  if n > b.cap then
    { b with cells := b.cells.take b.size ++ (List.range (n - b.size)).map fresh }
  else b

/-- The loop of `grow`: double until `n` fits. `none` once the fuel is used up, which with a
capacity of zero is the loop that never ends. -/
def growCapacity : ℕ → ℕ → ℕ → Option ℕ
  | 0, _, _ => none
  | fuel + 1, newcapacity, n =>
      if newcapacity * 2 < n then growCapacity fuel (newcapacity * 2) n
      else some (newcapacity * 2)

/-- `grow`. -/
def grow (b : DataBuffer α) (n : ℕ) : Option (DataBuffer α) :=
  if n ≤ b.size then some b
  else if n > b.cap then
    (growCapacity n b.cap n).map fun newcapacity => { b.reserve fresh newcapacity with size := n }
  else some { b with size := n }

/-- `add`. -/
def add (b : DataBuffer α) (v : α) : Option (DataBuffer α) :=
  (b.grow fresh (b.size + 1)).map fun b' => { b' with cells := b'.cells.set (b'.size - 1) v }

/-- `add_unchecked`; `none` where it stores past the cells. -/
def addUnchecked (b : DataBuffer α) (v : α) : Option (DataBuffer α) :=
  if b.size < b.cap then some ⟨b.size + 1, b.cells.set b.size v⟩ else none

/-- The elements below `m_size`. -/
def contents (b : DataBuffer α) : List α := b.cells.take b.size

@[simp] theorem cap_setData (data : List α) : (setData data).cap = data.length := rfl
/-- From a positive capacity the doubling loop stops, at a capacity that suffices. -/
theorem growCapacity_spec {fuel c n : ℕ} (hfuel : 0 < fuel) (h : n ≤ c * 2 ^ fuel) :
    ∃ c', growCapacity fuel c n = some c' ∧ n ≤ c' := by
  induction fuel generalizing c with
  | zero => omega
  | succ fuel ih =>
    rw [growCapacity]
    split_ifs with hlt
    · rcases Nat.eq_zero_or_pos fuel with rfl | hpos
      · simp only [Nat.zero_add, pow_one] at h
        omega
      · exact ih hpos (by rw [pow_succ'] at h; linarith)
    · exact ⟨c * 2, rfl, by omega⟩

theorem cap_reserve {b : DataBuffer α} (hb : b.size ≤ b.cap) {n : ℕ} (hn : b.cap < n) :
    (b.reserve fresh n).cap = n := by
  rw [reserve, if_pos hn]
  simp only [cap, List.length_append, List.length_take, List.length_map, List.length_range] at *
  omega

theorem take_cells_reserve {b : DataBuffer α} (hb : b.size ≤ b.cap) (n : ℕ) :
    (b.reserve fresh n).cells.take b.size = b.cells.take b.size := by
  rw [reserve]
  split_ifs
  · have hlen : (b.cells.take b.size).length = b.size := by
      rw [List.length_take]; exact Nat.min_eq_left hb
    rw [List.take_append_of_le_length (by omega), List.take_of_length_le (by omega)]
  · rfl

theorem size_grow {b b' : DataBuffer α} {n : ℕ} (hn : b.size ≤ n) (h : b.grow fresh n = some b') :
    b'.size = n := by
  rw [grow] at h
  split_ifs at h
  · cases h
    omega
  · obtain ⟨c, -, rfl⟩ := Option.map_eq_some_iff.1 h
    rfl
  · cases h
    rfl

/-- A buffer of positive capacity grows to any size above its own and keeps its elements. -/
theorem grow_spec {b : DataBuffer α} (hb : b.size ≤ b.cap) (hcap : 0 < b.cap) {n : ℕ}
    (hn : b.size < n) :
    ∃ b', b.grow fresh n = some b' ∧ b'.size = n ∧ n ≤ b'.cap ∧
      b'.cells.take b.size = b.cells.take b.size := by
  rw [grow, if_neg (by omega)]
  split_ifs with hgt
  · have hpow : n ≤ b.cap * 2 ^ n :=
      calc n ≤ 2 ^ n := Nat.lt_two_pow_self.le
        _ ≤ b.cap * 2 ^ n := Nat.le_mul_of_pos_left _ hcap
    obtain ⟨c, hc, hle⟩ := growCapacity_spec (by omega) hpow
    refine ⟨{ b.reserve fresh c with size := n }, by rw [hc]; rfl, rfl, ?_,
      take_cells_reserve fresh hb c⟩
    exact hle.trans (cap_reserve fresh hb (by omega)).ge
  · exact ⟨{ b with size := n }, rfl, rfl, by simpa [cap] using hgt, rfl⟩

/-- **Appending an element.** On a buffer of positive capacity `add` succeeds and leaves the
elements there were, followed by the new one. -/
theorem add_spec {b : DataBuffer α} (hb : b.size ≤ b.cap) (hcap : 0 < b.cap) (v : α) :
    ∃ b', b.add fresh v = some b' ∧ b'.size = b.size + 1 ∧ b'.size ≤ b'.cap ∧
      b'.contents = b.contents ++ [v] := by
  obtain ⟨g, hg, hsize, hle, htake⟩ := grow_spec fresh hb hcap (Nat.lt_succ_self b.size)
  refine ⟨{ g with cells := g.cells.set (g.size - 1) v }, by rw [add, hg]; rfl, hsize,
    by simpa [cap, hsize] using hle, ?_⟩
  have hlt : b.size < g.cells.length := by simp only [cap] at hle; omega
  simp only [contents, hsize, Nat.succ_sub_one]
  rw [List.take_add_one, List.take_set_of_le (Nat.le_refl _), htake, List.getElem?_set_self hlt]
  rfl

/-- Below the capacity `add_unchecked` appends an element too. -/
theorem addUnchecked_spec {b : DataBuffer α} (h : b.size < b.cap) (v : α) :
    ∃ b', b.addUnchecked v = some b' ∧ b'.size = b.size + 1 ∧ b'.cap = b.cap ∧
      b'.contents = b.contents ++ [v] := by
  refine ⟨⟨b.size + 1, b.cells.set b.size v⟩, if_pos h, rfl, List.length_set, ?_⟩
  rw [contents, List.take_add_one, List.take_set_of_le (Nat.le_refl _), List.getElem?_set_self h]
  rfl

end DataBuffer

end CTorrent
