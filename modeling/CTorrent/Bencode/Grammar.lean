import CTorrent.Bencode.Decoder

/-!
# The bencode grammar

The abstract layer of the codec: the values of BEP 3 and the sentence each of them is written as.
A sentence is canonical when its integers are in 64-bit range and the keys of its dictionaries
are non-empty and strictly increasing.

* `Value`, `sentence`, `All` (a property of a value and of every value inside it);
* `Canonical`, `NoEmptyDict`, `NonNegative`;
* `toAny`: what the decoder makes of a value, in which a negative integer has wrapped;
* `readAny_spec`, `readVector_spec`, `readDictionary_spec`: on the sentence of a canonical value
  without an empty dictionary the readers return that value and stop behind the sentence.
-/

namespace CTorrent

/-- A value of BEP 3. -/
inductive Value where
  | int (z : ℤ)
  | str (s : Bytes)
  | list (l : List Value)
  | dict (d : List (Bytes × Value))

namespace Value

mutual

/-- The sentence of a value. -/
def sentence : Value → Bytes
  | int z => intEncoding (intText z)
  | str s => stringEncoding s
  | list l => ch 'l' :: (sentences l ++ [ch 'e'])
  | dict d => ch 'd' :: (pairSentences d ++ [ch 'e'])

/-- The sentences of the elements of a list. -/
def sentences : List Value → Bytes
  | [] => []
  | v :: l => sentence v ++ sentences l

/-- The sentences of the pairs of a dictionary. -/
def pairSentences : List (Bytes × Value) → Bytes
  | [] => []
  | (k, v) :: d => stringEncoding k ++ (sentence v ++ pairSentences d)

end

mutual

/-- `P` holds of the value and of every value inside it. -/
def All (P : Value → Prop) : Value → Prop
  | int z => P (int z)
  | str s => P (str s)
  | list l => P (list l) ∧ AllList P l
  | dict d => P (dict d) ∧ AllPairs P d

/-- `All` for the elements of a list. -/
def AllList (P : Value → Prop) : List Value → Prop
  | [] => True
  | v :: l => All P v ∧ AllList P l

/-- `All` for the values of a dictionary. -/
def AllPairs (P : Value → Prop) : List (Bytes × Value) → Prop
  | [] => True
  | (_, v) :: d => All P v ∧ AllPairs P d

end

/-- What BEP 3 asks of one value: an integer in 64-bit range; sorted, distinct, non-empty keys. -/
def CanonicalAt : Value → Prop
  | int z => -2 ^ 63 ≤ z ∧ z < 2 ^ 64
  | dict d => (d.map Prod.fst).Pairwise (· < ·) ∧ ∀ p ∈ d, p.1 ≠ []
  | _ => True

/-- A canonical value. -/
def Canonical (v : Value) : Prop := All CanonicalAt v

/-- There is no empty dictionary in the value. -/
def NoEmptyDict (v : Value) : Prop := All (fun w => w ≠ dict []) v

/-- There is no negative integer in the value. -/
def NonNegative (v : Value) : Prop := All (fun w => ∀ z, w = int z → 0 ≤ z) v

/-- The unsigned number a decimal text is read as. -/
def toUint (z : ℤ) : UInt64 :=
  if z < 0 then UInt64.ofNat (2 ^ 64 - (-z).toNat) else UInt64.ofNat z.toNat

mutual

/-- What the decoder makes of a value. -/
def toAny : Value → Any
  | int z => .uint64 (toUint z)
  | str s => .string s
  | list l => .vector (toAnys l)
  | dict d => .dictionary (toPairs d)

/-- `toAny` on the elements of a list. -/
def toAnys : List Value → VectorType
  | [] => []
  | v :: l => toAny v :: toAnys l

/-- `toAny` on the values of a dictionary. -/
def toPairs : List (Bytes × Value) → Dictionary
  | [] => []
  | (k, v) :: d => (k, toAny v) :: toPairs d

end

theorem sentence_ne_nil (v : Value) : sentence v ≠ [] := by
  cases v <;> simp [sentence, intEncoding, stringEncoding]

theorem toPairs_ne_nil {d : List (Bytes × Value)} (h : d ≠ []) : toPairs d ≠ [] := by
  cases d with
  | nil => exact absurd rfl h
  | cons p d => simp [toPairs]

/-- The sentence of the pairs of a non-empty dictionary begins with a digit. -/
theorem pairSentences_cons {k : Bytes} {v : Value} {d : List (Bytes × Value)} :
    ∃ c tl, pairSentences ((k, v) :: d) = c :: tl ∧ Decimal.isDigit c = true := by
  obtain ⟨c, tl, h, hc⟩ := Decimal.exists_cons_text k.length
  rw [pairSentences, stringEncoding, h]
  exact ⟨c, _, rfl, hc⟩

end Value

namespace Bencode

open Value

variable (junk : ℕ → UInt64) {b : DataBuffer UInt8}

theorem not_mem_intText (z : ℤ) : ch 'e' ∉ intText z := by
  unfold intText
  split_ifs
  · rw [List.mem_cons, not_or]
    exact ⟨by decide, not_mem_text (by decide)⟩
  · exact not_mem_text (by decide)

theorem extractUint_intText {z : ℤ} (h : -2 ^ 63 ≤ z ∧ z < 2 ^ 64) (old : UInt64) :
    extractUint (intText z) old = toUint z := by
  unfold intText toUint
  split_ifs with hz
  · exact extractUint_neg_text (by omega) old
  · exact extractUint_text (by omega) old

/-- **Reading an integer.** Behind the `i`, `readUint` returns the number, wrapped if it is
negative, and stops behind the `e`. -/
theorem readUint_spec {pos : ℕ} {z : ℤ} {rest : Bytes}
    (h : Holds b pos (intText z ++ [ch 'e']) rest) (hz : -2 ^ 63 ≤ z ∧ z < 2 ^ 64) :
    readUint junk b pos = .ok (toUint z) (pos + (intText z).length + 1) := by
  rw [readUint, readIntUntil_spec junk h (not_mem_intText z), extractUint_intText hz]
  rfl

mutual

/-- **Reading a value.** Behind the first byte of a sentence, `readAny` returns its value and
stops behind the sentence. -/
theorem readAny_spec : ∀ (v : Value), Canonical v → NoEmptyDict v → b.cap < 2 ^ 64 →
    ∀ {fuel pos : ℕ} {rest : Bytes}, Holds b pos (sentence v) rest → rest ≠ [] →
      2 * (sentence v).length ≤ fuel →
      ∃ c tl, sentence v = c :: tl ∧ c ≠ ch 'e' ∧
        readAny junk b fuel c (pos + 1) = .ok (toAny v) (pos + (sentence v).length)
  | .int z, hc, _, _, fuel, pos, rest, h, _, hf => by
      rw [sentence, intEncoding] at h hf ⊢
      obtain ⟨f, rfl⟩ : ∃ f, fuel = f + 1 := ⟨fuel - 1, by simp at hf; omega⟩
      refine ⟨_, _, rfl, by decide, ?_⟩
      rw [readAny, if_pos rfl, readUint_spec junk h.tail hc, toAny]
      simp only [Outcome.map_ok, List.length_cons, List.length_append, List.length_nil]
      congr 1
      omega
  | .str s, _, _, hcap, fuel, pos, rest, h, hne, hf => by
      rw [sentence] at h hf ⊢
      obtain ⟨c, tl, hcons, hd⟩ := Decimal.exists_cons_text s.length
      obtain ⟨f, rfl⟩ : ∃ f, fuel = f + 1 := ⟨fuel - 1, by simp [stringEncoding] at hf; omega⟩
      have hce : ∀ x : UInt8, Decimal.isDigit x = false → c ≠ x := fun x => ne_of_isDigit hd
      refine ⟨c, _, by rw [stringEncoding, hcons]; rfl, hce _ (by decide), ?_⟩
      rw [readAny, if_neg (hce _ (by decide)), if_neg (hce _ (by decide)),
        if_neg (hce _ (by decide)), Nat.add_sub_cancel,
        readString_spec junk h hcap (by simp [hne]), toAny]
      rfl
  | .list l, hc, hn, hcap, fuel, pos, rest, h, _, hf => by
      rw [sentence] at h hf ⊢
      rw [Canonical, All] at hc
      rw [NoEmptyDict, All] at hn
      obtain ⟨f, rfl⟩ : ∃ f, fuel = f + 1 := ⟨fuel - 1, by simp at hf; omega⟩
      refine ⟨_, _, rfl, by decide, ?_⟩
      rw [readAny, if_neg (by decide), if_pos rfl,
        readVector_spec l hc.2 hn.2 hcap [] h.tail (by simp at hf; omega), toAny]
      simp only [Outcome.map_ok, List.nil_append, List.length_cons, List.length_append,
        List.length_nil]
      congr 1
      omega
  | .dict d, hc, hn, hcap, fuel, pos, rest, h, _, hf => by
      rw [sentence] at h hf ⊢
      rw [Canonical, All] at hc
      rw [NoEmptyDict, All] at hn
      obtain ⟨f, rfl⟩ : ∃ f, fuel = f + 1 := ⟨fuel - 1, by simp at hf; omega⟩
      refine ⟨_, _, rfl, by decide, ?_⟩
      rw [readAny, if_neg (by decide), if_neg (by decide), if_pos rfl,
        readDictionary_spec d (fun he => hn.1 (by rw [he])) hc.1.1 hc.1.2 hc.2 hn.2 hcap []
          (by simp) h.tail (by simp at hf; omega), toAny]
      simp only [Outcome.map_ok, List.nil_append, List.length_cons, List.length_append,
        List.length_nil]
      congr 1
      omega

/-- **Reading a list.** On the sentences of the elements and the closing `e`, `readVector` appends
the values to what it has and stops behind the `e`. -/
theorem readVector_spec : ∀ (l : List Value), AllList CanonicalAt l →
    AllList (fun w => w ≠ dict []) l → b.cap < 2 ^ 64 → ∀ (ret : VectorType) {fuel pos : ℕ}
    {rest : Bytes}, Holds b pos (sentences l ++ [ch 'e']) rest →
      2 * (sentences l).length + 1 ≤ fuel →
      readVector junk b fuel pos ret =
        .ok (ret ++ toAnys l) (pos + (sentences l).length + 1)
  | [], _, _, _, ret, fuel, pos, rest, h, hf => by
      rw [sentences] at h hf ⊢
      obtain ⟨f, rfl⟩ : ∃ f, fuel = f + 1 := ⟨fuel - 1, by omega⟩
      rw [readVector, h.unpackByte_eq, toAnys, List.append_nil]
      simp only [if_true, List.length_nil, Nat.add_zero]
  | v :: l, hc, hn, hcap, ret, fuel, pos, rest, h, hf => by
      rw [sentences] at h hf ⊢
      rw [AllList] at hc hn
      have hpos := List.length_pos_of_ne_nil (sentence_ne_nil v)
      rw [List.length_append] at hf
      obtain ⟨f, rfl⟩ : ∃ f, fuel = f + 1 := ⟨fuel - 1, by omega⟩
      rw [List.append_assoc] at h
      obtain ⟨c, tl, hv, hce, hread⟩ := readAny_spec v hc.1 hn.1 hcap h.append_assoc (by simp)
        (show _ ≤ f by omega)
      have hbyte : unpackByte b pos = some c :=
        Holds.unpackByte_eq (t := tl) (by rw [← hv]; exact h.append_assoc)
      rw [readVector, hbyte]
      simp only [if_neg hce, hread, Outcome.bind_ok]
      rw [readVector_spec l hc.2 hn.2 hcap _ h.advance (by omega), toAnys, List.append_assoc,
        List.singleton_append, List.length_append]
      congr 1
      omega

/-- **Reading a dictionary.** On the sentences of the pairs, whose keys are above those already
read, and the closing `e`, `readDictionary` appends the pairs and stops behind the `e`. -/
theorem readDictionary_spec : ∀ (d : List (Bytes × Value)), d ≠ [] →
    (d.map Prod.fst).Pairwise (· < ·) → (∀ p ∈ d, p.1 ≠ []) → AllPairs CanonicalAt d →
    AllPairs (fun w => w ≠ dict []) d → b.cap < 2 ^ 64 → ∀ (ret : Dictionary),
    (∀ p ∈ ret, ∀ q ∈ d, p.1 < q.1) → ∀ {fuel pos : ℕ} {rest : Bytes},
      Holds b pos (pairSentences d ++ [ch 'e']) rest →
      2 * (pairSentences d).length + 1 ≤ fuel →
      readDictionary junk b fuel pos ret =
        .ok (ret ++ toPairs d) (pos + (pairSentences d).length + 1)
  | [], hd, _, _, _, _, _, _, _, _, _, _, _, _ => absurd rfl hd
  | (k, v) :: d, _, hs, hk, hc, hn, hcap, ret, hret, fuel, pos, rest, h, hf => by
      rw [pairSentences] at h hf ⊢
      rw [AllPairs] at hc hn
      rw [List.map_cons, List.pairwise_cons] at hs
      simp only [List.length_append] at hf
      obtain ⟨f, rfl⟩ : ∃ f, fuel = f + 1 := ⟨fuel - 1, by omega⟩
      rw [List.append_assoc, List.append_assoc] at h
      have hpos := List.length_pos_of_ne_nil (sentence_ne_nil v)
      -- the key
      have hkey := readString_spec junk h.append_assoc hcap (by simp)
      have hk0 : k ≠ [] := hk (k, v) List.mem_cons_self
      -- the value
      have h2 := h.advance
      obtain ⟨c, tl, hv, -, hread⟩ := readAny_spec v hc.1 hn.1 hcap h2.append_assoc (by simp)
        (show _ ≤ f by omega)
      have hbyte : unpackByte b (pos + (stringEncoding k).length) = some c :=
        Holds.unpackByte_eq (t := tl) (by rw [← hv]; exact h2.append_assoc)
      -- what the map holds after this pair
      have hins : Dictionary.insert ret k (toAny v) = ret ++ [(k, toAny v)] :=
        Dictionary.insert_of_lt fun p hp => hret p hp (k, v) List.mem_cons_self
      have h3 := h2.advance
      rw [readDictionary, hkey]
      simp only [Outcome.bind_ok, if_neg hk0, hbyte, hread, hins]
      cases d with
      | nil =>
        rw [pairSentences] at h3 ⊢
        rw [h3.unpackByte_eq]
        simp only [if_true, toPairs, List.append_nil, List.length_append]
        congr 1
        omega
      | cons q d =>
        obtain ⟨k', v'⟩ := q
        obtain ⟨c', tl', hcons, hdigit⟩ := pairSentences_cons (k := k') (v := v') (d := d)
        have hnext : unpackByte b (pos + (stringEncoding k).length + (sentence v).length) = some c' :=
          Holds.unpackByte_eq (t := tl' ++ [ch 'e']) (by rw [← List.cons_append, ← hcons]; exact h3)
        simp only [hnext, if_neg (ne_of_isDigit hdigit (c := ch 'e') (by decide))]
        rw [readDictionary_spec ((k', v') :: d) (List.cons_ne_nil _ _) hs.2
          (fun p hp => hk p (List.mem_cons_of_mem _ hp)) hc.2 hn.2 hcap _ ?_ h3 (by omega), toPairs,
          List.append_assoc, List.singleton_append]
        · congr 1
          simp only [List.length_append]
          omega
        · intro p hp r hr
          rcases List.mem_append.1 hp with hp | hp
          · exact hret p hp r (List.mem_cons_of_mem _ hr)
          · rw [List.mem_singleton] at hp
            subst hp
            exact hs.1 r.1 (List.mem_map_of_mem hr)

end

/-- **Decoding a canonical dictionary.** On the sentence of a canonical dictionary without an
empty dictionary in it, and whatever follows, a fresh object returns the dictionary and leaves the
cursor behind the sentence (whose first byte is not in the buffer). -/
theorem decode_sentence (fresh : ℕ → UInt8) {d : List (Bytes × Value)} (hc : Canonical (.dict d))
    (hn : NoEmptyDict (.dict d)) (t : Bytes) (hlen : (sentence (.dict d) ++ t).length < 2 ^ 64) :
    decode junk (new fresh) (sentence (.dict d) ++ t) =
      .ok (toPairs d, ⟨DataBuffer.setData ((sentence (.dict d) ++ t).drop 1),
        (sentence (.dict d)).length - 1⟩) ((sentence (.dict d)).length - 1) := by
  rw [Canonical, All] at hc
  rw [NoEmptyDict, All] at hn
  rw [sentence] at hlen ⊢
  have hold : Holds (DataBuffer.setData (pairSentences d ++ [ch 'e'] ++ t)) 0
      (pairSentences d ++ [ch 'e']) t := ⟨rfl, Nat.zero_le _, rfl⟩
  simp only [List.length_append, List.length_cons, List.length_nil] at hlen
  have hread := readDictionary_spec junk d (fun he => hn.1 (by rw [he])) hc.1.1 hc.1.2 hc.2 hn.2
    (by simp only [DataBuffer.cap_setData, List.length_append, List.length_singleton]; omega) []
    (by simp) hold (show _ ≤ 2 * (ch 'd' :: (pairSentences d ++ [ch 'e']) ++ t).length by
      simp only [List.length_append, List.length_cons]
      omega)
  simp only [List.cons_append, decode, ne_eq, not_true_eq_false, if_false, List.drop_succ_cons,
    List.drop_zero] at hread ⊢
  rw [show (new fresh).pos = 0 from rfl, hread]
  simp

end Bencode

end CTorrent
