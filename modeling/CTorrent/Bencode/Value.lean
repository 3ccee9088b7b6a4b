import CTorrent.Lib.Decimal
import Mathlib.Data.List.Sort

/-!
# `bencode/bencode.h`: values and dictionaries

A `boost::any` holds a value of one of the types the encoder looks at, or something else
(`empty`). `Dictionary` is `std::map<std::string, boost::any>`: the pairs in key order, where
`std::string` compares bytes as unsigned numbers. `VectorType` is a vector of values.

* `Dictionary.insert` (`m[key] = value`), `Dictionary.count`, `Dictionary.at` (`m[key]`);
* `castString`, `castUint64`, `castVector`, `castDictionary`: `Bencode::cast<T>`, which returns
  `T()` where the value has another type.
-/

namespace CTorrent

/-- A byte string. -/
abbrev Bytes := List UInt8

/-- The byte of an ASCII character. -/
def ch (c : Char) : UInt8 := c.toUInt8

/-- `boost::any`, by the types `Bencode::writeType` distinguishes. -/
inductive Any where
  | int64 (i : Int64)
  | uint64 (u : UInt64)
  | int (i : Int32)
  | uint32 (u : UInt32)
  | string (s : Bytes)
  | cstring (s : Bytes)
  | dictionary (d : List (Bytes × Any))
  | vector (v : List Any)
  | empty

/-- `VectorType`. -/
abbrev VectorType := List Any

/-- `Dictionary`: the pairs of the map in key order. -/
abbrev Dictionary := List (Bytes × Any)

namespace Dictionary

/-- `m[key] = value`. -/
def insert : Dictionary → Bytes → Any → Dictionary
  | [], key, value => [(key, value)]
  | (k, v) :: d, key, value =>
      if key = k then (key, value) :: d
      else if key < k then (key, value) :: (k, v) :: d
      else (k, v) :: insert d key value

/-- The value under a key, when there is one. -/
def find? : Dictionary → Bytes → Option Any
  | [], _ => none
  | (k, v) :: d, key => if k = key then some v else find? d key

/-- `m.count(key) != 0`. -/
def count (d : Dictionary) (key : Bytes) : Bool := (d.find? key).isSome

/-- `m[key]` as a value: a missing key is given an empty `boost::any`. -/
def at_ (d : Dictionary) (key : Bytes) : Any := (d.find? key).getD .empty

/-- The keys of the map increase strictly. -/
def Sorted (d : Dictionary) : Prop := (d.map Prod.fst).Pairwise (· < ·)

theorem insert_of_lt {d : Dictionary} {key : Bytes} {value : Any}
    (h : ∀ p ∈ d, p.1 < key) : d.insert key value = d ++ [(key, value)] := by
  induction d with
  | nil => rfl
  | cons p d ih =>
    obtain ⟨k, v⟩ := p
    have hk : k < key := h (k, v) List.mem_cons_self
    have hne : ¬ key = k := by
      rintro rfl
      exact List.lt_irrefl _ hk
    rw [insert, if_neg hne, if_neg fun hlt => List.lt_asymm hk hlt,
      ih fun p hp => h p (List.mem_cons_of_mem _ hp), List.cons_append]

end Dictionary

/-- `Bencode::cast<std::string>`. -/
def castString : Any → Bytes
  | .string s => s
  | _ => []

/-- `Bencode::cast<uint64_t>` (and `cast<size_t>`, the same type). -/
def castUint64 : Any → UInt64
  | .uint64 u => u
  | _ => 0

/-- `Bencode::cast<VectorType>`. -/
def castVector : Any → VectorType
  | .vector v => v
  | _ => []

/-- `Bencode::cast<Dictionary>`. -/
def castDictionary : Any → Dictionary
  | .dictionary d => d
  | _ => []

end CTorrent
