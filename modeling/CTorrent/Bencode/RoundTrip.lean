import CTorrent.Bencode.Grammar

/-!
# What the encoder writes, the decoder reads back

`Encodable` is the set of values both sides agree on: built from `uint64_t`, strings, vectors and
dictionaries, where no dictionary is empty and no key is. Such a value is written as the sentence
of a canonical value of the grammar (`ofAny`), so the decoder returns it (`decode_encode`).
-/

namespace CTorrent

mutual

/-- Built from `uint64_t`, strings, vectors and non-empty dictionaries with non-empty keys. -/
def Encodable : Any → Prop
  | .uint64 _ => True
  | .string _ => True
  | .vector v => EncodableValues v
  | .dictionary d => d ≠ [] ∧ Dictionary.Sorted d ∧ EncodablePairs d
  | _ => False

/-- `Encodable` for the elements of a vector. -/
def EncodableValues : VectorType → Prop
  | [] => True
  | a :: v => Encodable a ∧ EncodableValues v

/-- `Encodable` for the values of a dictionary, whose keys are not empty. -/
def EncodablePairs : Dictionary → Prop
  | [] => True
  | (k, a) :: d => k ≠ [] ∧ Encodable a ∧ EncodablePairs d

end

open Value

mutual

/-- The value of the grammar an encodable value is written as. -/
def ofAny : Any → Value
  | .uint64 u => int u.toNat
  | .string s => str s
  | .vector v => list (ofAnys v)
  | .dictionary d => dict (ofPairs d)
  | _ => int 0

/-- `ofAny` on the elements of a vector. -/
def ofAnys : VectorType → List Value
  | [] => []
  | a :: v => ofAny a :: ofAnys v

/-- `ofAny` on the values of a dictionary. -/
def ofPairs : Dictionary → List (Bytes × Value)
  | [] => []
  | (k, a) :: d => (k, ofAny a) :: ofPairs d

end

theorem map_fst_ofPairs (d : Dictionary) : (ofPairs d).map Prod.fst = d.map Prod.fst := by
  induction d with
  | nil => rfl
  | cons p d ih =>
    obtain ⟨k, a⟩ := p
    rw [ofPairs, List.map_cons, List.map_cons, ih]

theorem ofPairs_ne_nil {d : Dictionary} (h : d ≠ []) : ofPairs d ≠ [] := by
  cases d with
  | nil => exact absurd rfl h
  | cons p d => simp [ofPairs]

theorem keys_ofPairs_ne_nil {d : Dictionary} (h : EncodablePairs d) :
    ∀ p ∈ ofPairs d, p.1 ≠ [] := by
  induction d with
  | nil => simp [ofPairs]
  | cons q d ih =>
    obtain ⟨k, a⟩ := q
    rw [EncodablePairs] at h
    intro p hp
    rw [ofPairs, List.mem_cons] at hp
    rcases hp with rfl | hp
    · exact h.1
    · exact ih h.2.2 p hp

theorem toUint_natCast (u : UInt64) : toUint (u.toNat : ℤ) = u := by
  rw [toUint, if_neg (by omega), Int.toNat_natCast, UInt64.ofNat_toNat]

theorem intText_natCast (n : ℕ) : intText (n : ℤ) = Decimal.text n := by
  rw [intText, if_neg (by omega), Int.toNat_natCast]

mutual

/-- The encoder writes the sentence of `ofAny`, and the decoder's view of it is the value. -/
theorem ofAny_spec : ∀ a : Any, Encodable a → sentence (ofAny a) = encoding a ∧
    toAny (ofAny a) = a ∧ Canonical (ofAny a) ∧ NoEmptyDict (ofAny a)
  | .uint64 u, _ => by
      have hlt := u.toNat_lt
      refine ⟨?_, ?_, ?_, ?_⟩
      · rw [ofAny, sentence, encoding, intText_natCast]
      · rw [ofAny, toAny, toUint_natCast]
      · exact ⟨by omega, by exact_mod_cast hlt⟩
      · exact Value.noConfusion
  | .string s, _ => ⟨by rw [ofAny, sentence, encoding], by rw [ofAny, toAny], trivial,
      Value.noConfusion⟩
  | .vector v, h => by
      rw [Encodable] at h
      obtain ⟨h1, h2, h3, h4⟩ := ofAnys_spec v h
      refine ⟨by rw [ofAny, sentence, encoding, h1], by rw [ofAny, toAny, h2], ?_, ?_⟩
      · rw [ofAny, Canonical, All]
        exact ⟨trivial, h3⟩
      · rw [ofAny, NoEmptyDict, All]
        exact ⟨Value.noConfusion, h4⟩
  | .dictionary d, h => by
      rw [Encodable] at h
      obtain ⟨h1, h2, h3, h4⟩ := ofPairs_spec d h.2.2
      refine ⟨by rw [ofAny, sentence, encoding, h1], by rw [ofAny, toAny, h2], ?_, ?_⟩
      · rw [ofAny, Canonical, All]
        exact ⟨⟨by rw [map_fst_ofPairs]; exact h.2.1, keys_ofPairs_ne_nil h.2.2⟩, h3⟩
      · rw [ofAny, NoEmptyDict, All]
        exact ⟨fun he => ofPairs_ne_nil h.1 (Value.dict.inj he), h4⟩
  | .int64 _, h => absurd h (by simp [Encodable])
  | .int _, h => absurd h (by simp [Encodable])
  | .uint32 _, h => absurd h (by simp [Encodable])
  | .cstring _, h => absurd h (by simp [Encodable])
  | .empty, h => absurd h (by simp [Encodable])

theorem ofAnys_spec : ∀ v : VectorType, EncodableValues v → sentences (ofAnys v) = valuesEncoding v ∧
    toAnys (ofAnys v) = v ∧ AllList CanonicalAt (ofAnys v) ∧
    AllList (fun w => w ≠ dict []) (ofAnys v)
  | [], _ => ⟨by rw [ofAnys, sentences, valuesEncoding], by rw [ofAnys, toAnys],
      by rw [ofAnys, AllList]; trivial, by rw [ofAnys, AllList]; trivial⟩
  | a :: v, h => by
      rw [EncodableValues] at h
      obtain ⟨h1, h2, h3, h4⟩ := ofAny_spec a h.1
      obtain ⟨g1, g2, g3, g4⟩ := ofAnys_spec v h.2
      rw [ofAnys, sentences, valuesEncoding, toAnys, AllList, AllList, h1, h2, g1, g2]
      exact ⟨rfl, rfl, ⟨h3, g3⟩, ⟨h4, g4⟩⟩

theorem ofPairs_spec : ∀ d : Dictionary, EncodablePairs d →
    pairSentences (ofPairs d) = pairsEncoding d ∧ toPairs (ofPairs d) = d ∧
    AllPairs CanonicalAt (ofPairs d) ∧ AllPairs (fun w => w ≠ dict []) (ofPairs d)
  | [], _ => ⟨by rw [ofPairs, pairSentences, pairsEncoding], by rw [ofPairs, toPairs],
      by rw [ofPairs, AllPairs]; trivial, by rw [ofPairs, AllPairs]; trivial⟩
  | (k, a) :: d, h => by
      rw [EncodablePairs] at h
      obtain ⟨h1, h2, h3, h4⟩ := ofAny_spec a h.2.1
      obtain ⟨g1, g2, g3, g4⟩ := ofPairs_spec d h.2.2
      rw [ofPairs, pairSentences, pairsEncoding, toPairs, AllPairs, AllPairs, h1, h2, g1, g2]
      exact ⟨rfl, rfl, ⟨h3, g3⟩, ⟨h4, g4⟩⟩

end

namespace Bencode

/-- A fresh object writes a dictionary as its encoding. -/
theorem encode_new (fresh : ℕ → UInt8) (d : Dictionary) :
    ∃ e, (new fresh).encode fresh d = some e ∧ e.bufferFrom 0 = encoding (.dictionary d) := by
  have hcap : (new fresh).buffer.cap = 64 := by simp [new, DataBuffer.new, DataBuffer.cap]
  obtain ⟨e, he, -, -, -, hb⟩ := encode_spec fresh (b := new fresh) (Nat.zero_le _) (by omega) d
  exact ⟨e, he, hb⟩

/-- **Bencode round trip.** For every encodable dictionary `d` and every trailing text `t`,
decoding `encode(d)` followed by `t` returns `d` and leaves the cursor behind the final `e`, that
is at the end of the encoding without its first byte. -/
theorem decode_encode (fresh : ℕ → UInt8) (junk : ℕ → UInt64) (d : Dictionary)
    (hd : Encodable (.dictionary d)) :
    ∃ e, (new fresh).encode fresh d = some e ∧ ∀ t : Bytes,
      (e.bufferFrom 0 ++ t).length < 2 ^ 63 →
      ∃ object, decode junk (new fresh) (e.bufferFrom 0 ++ t) = .ok (d, object) object.pos ∧
        object.pos + 1 = (e.bufferFrom 0).length := by
  obtain ⟨e, he, hb⟩ := encode_new fresh d
  refine ⟨e, he, fun t hlen => ?_⟩
  obtain ⟨hs, ht, hc, hn⟩ := ofAny_spec (.dictionary d) hd
  rw [ofAny] at hs ht hc hn
  rw [toAny, Any.dictionary.injEq] at ht
  rw [hb, ← hs] at hlen ⊢
  have hdecode := decode_sentence junk fresh hc hn t (by omega)
  rw [ht] at hdecode
  exact ⟨_, hdecode, Nat.sub_add_cancel (List.length_pos_of_ne_nil (sentence_ne_nil _))⟩

/-- A nested dictionary: `{"a": 7, "b": ["e:", {"c": ""}]}`. -/
def nestedDictionary : Dictionary :=
  [([97], .uint64 7), ([98], .vector [.string [101, 58], .dictionary [([99], .string [])]])]

theorem decode_encode_nested :
    Encodable (.dictionary nestedDictionary) ∧
    ∃ e, (new fun _ => 0).encode (fun _ => 0) nestedDictionary = some e ∧ ∀ t : Bytes,
      (e.bufferFrom 0 ++ t).length < 2 ^ 63 →
      ∃ object, decode (fun _ => 0) (new fun _ => 0) (e.bufferFrom 0 ++ t) =
          .ok (nestedDictionary, object) object.pos ∧
        object.pos + 1 = (e.bufferFrom 0).length := by
  have h : Encodable (.dictionary nestedDictionary) := by
    simp only [nestedDictionary, Encodable, EncodableValues, EncodablePairs, Dictionary.Sorted]
    decide
  exact ⟨h, decode_encode (fun _ => 0) (fun _ => 0) nestedDictionary h⟩

end Bencode

end CTorrent
