import CTorrent.Bencode.Readings

/-!
# Sentences and readings

A sentence of the grammar and its value, with any number of leading zeros and with the keys of a
dictionary in any order, against the pieces of a reading.

* `Digits`, `Sentence`: the grammar;
* `Plain`: a piece in which nothing is glossed over;
* `Takes.faithful`, `Takes.plain`: the pieces of a reading are plain exactly if they are sentences
  of the values taken for them, and then the text is.
-/

namespace CTorrent

namespace Bencode

/-! ### The grammar -/

/-- A text of decimal digits. -/
def Digits (t : Bytes) : Prop := t ≠ [] ∧ ∀ c ∈ t, Decimal.isDigit c = true

/-- An entry of a dictionary: key and value with their texts. -/
structure Entry where
  key : Bytes
  keyText : Bytes
  value : Any
  valueText : Bytes

namespace Entry

variable (e : Entry)

/-- The key and the value. -/
def pair : Bytes × Any := (e.key, e.value)

/-- The text of the entry. -/
def text : Bytes := e.keyText ++ e.valueText

end Entry

/-- The sentences of the grammar and their values: integers of 64 bits without a sign, strings
behind their length, lists, and dictionaries in which a later entry replaces an earlier one. -/
inductive Sentence : Any → Bytes → Prop
  | int {t : Bytes} (digits : Digits t) (lt : Decimal.value t < 2 ^ 64) :
      Sentence (.uint64 (UInt64.ofNat (Decimal.value t))) (ch 'i' :: (t ++ [ch 'e']))
  | string {t s : Bytes} (digits : Digits t) (length : Decimal.value t = s.length) :
      Sentence (.string s) (t ++ ch ':' :: s)
  | list {items : List (Any × Bytes)} (all : ∀ p ∈ items, Sentence p.1 p.2) :
      Sentence (.vector (items.map Prod.fst)) (ch 'l' :: (items.flatMap Prod.snd ++ [ch 'e']))
  | dict {entries : List Entry} (keys : ∀ e ∈ entries, Sentence (.string e.key) e.keyText)
      (values : ∀ e ∈ entries, Sentence e.value e.valueText) :
      Sentence (.dictionary (toMap (entries.map Entry.pair)))
        (ch 'd' :: (entries.flatMap Entry.text ++ [ch 'e']))

/-- The input begins with the sentence of a dictionary. -/
def BeginsWithDict (x : Bytes) : Prop :=
  ∃ d u rest, x = u ++ rest ∧ Sentence (.dictionary d) u

/-! ### Plain pieces -/

/-- A piece in which nothing is glossed over: the number or the length is a text of digits, the
integer fits in 64 bits, the string is not longer than the input, and a dictionary is not given
up. -/
def Plain (p : Piece) : Prop :=
  match p.kind with
  | .int => ∃ t r, p.text = ch 'i' :: (t ++ ch 'e' :: r) ∧ Digits t ∧ Decimal.value t < 2 ^ 64
  | .string => ∃ t r, p.text = t ++ ch ':' :: r ∧ Digits t ∧ Decimal.value t ≤ r.length
  | .list => True
  | .dictionary => True
  | .givenUp => False

/-- The bytes of the piece are a sentence of its value. -/
def IsSentence (p : Piece) : Prop := ∃ u, p.text = u ++ p.rest ∧ Sentence p.value u

variable {junk : ℕ → UInt64} {cap : ℕ} {P : Piece → Prop}

/-! ### Plain pieces are sentences -/

/-- A text of digits is read as the number it stands for. -/
theorem extractUint_digits {t : Bytes} (h : Digits t) (hlt : Decimal.value t < 2 ^ 64)
    (old : UInt64) : extractUint t old = UInt64.ofNat (Decimal.value t) := by
  obtain ⟨hne, hall⟩ := h
  cases t with
  | nil => exact absurd rfl hne
  | cons d l =>
    have hd := hall d List.mem_cons_self
    have hdrop : (d :: l).dropWhile isSpace = d :: l := by
      rw [List.dropWhile_cons, isSpace_of_isDigit hd]
      rfl
    have htake : (d :: l).takeWhile Decimal.isDigit = d :: l :=
      List.takeWhile_eq_self_iff.2 hall
    have hsigned : extractSigned (d :: l) = (false, d :: l) := by
      simp only [extractSigned]
      rw [if_neg (ne_of_isDigit hd (by decide)), if_neg (ne_of_isDigit hd (by decide)), htake]
    rw [extractUint, hdrop, if_neg hne, hsigned]
    simp only [hne, if_false, ge_iff_le, Bool.false_eq_true]
    rw [if_neg (by omega)]

/-- The first terminator cuts the text in one way only. -/
theorem Number.eq_of_append {byte : UInt8} {s t r t' r' : Bytes} (h : Number byte s t r)
    (hs : s = t' ++ byte :: r') (hmem : byte ∉ t') : t = t' ∧ r = r' := by
  have hcut : ∀ {u q : Bytes}, byte ∉ u → (u ++ byte :: q).takeWhile (· != byte) = u := by
    intro u q hu
    rw [List.takeWhile_append_of_pos, List.takeWhile_cons_of_neg (by simp), List.append_nil]
    exact fun c hc => bne_iff_ne.2 fun he => hu (he ▸ hc)
  have ht : t = t' := by rw [← hcut (q := r) h.2, ← h.1, hs, hcut hmem]
  refine ⟨ht, ?_⟩
  have happ := h.1.symm.trans hs
  rw [ht] at happ
  exact (List.cons.inj (List.append_cancel_left happ)).2

theorem Digits.not_mem {t : Bytes} (h : Digits t) {c : UInt8} (hc : Decimal.isDigit c = false) :
    c ∉ t := fun hmem => ne_of_isDigit (h.2 c hmem) hc rfl

/-- A plain string is taken with the value it spells. -/
theorem StringText.sentence {s v r : Bytes} (h : StringText junk cap s v r)
    (hlen : s.length < 2 ^ 64) (hp : Plain ⟨.string, s, .string v, r⟩) :
    ∃ u, s = u ++ r ∧ Sentence (.string v) u := by
  obtain ⟨t, q, hs, hd, hle⟩ := hp
  simp only at hs
  have hq : q.length < s.length := by
    rw [hs, List.length_append, List.length_cons]
    omega
  have hvalue : (UInt64.ofNat (Decimal.value t)).toNat = Decimal.value t := by
    rw [UInt64.toNat_ofNat', Nat.mod_eq_of_lt (by omega)]
  cases h with
  | body number nonempty le =>
    obtain ⟨ht, hr⟩ := number.eq_of_append hs (hd.not_mem (by decide))
    rw [ht, hr, lengthOf, extractUint_digits hd (by omega), hvalue]
    have hv : Decimal.value t = (q.take (Decimal.value t)).length := by
      rw [List.length_take, Nat.min_eq_left hle]
    refine ⟨_, ?_, .string hd hv⟩
    rw [hs, List.append_assoc, List.cons_append, List.take_append_drop]
  | tooLong number lt noWrap =>
    obtain ⟨ht, hr⟩ := number.eq_of_append hs (hd.not_mem (by decide))
    rw [ht, hr, lengthOf, extractUint_digits hd (by omega), hvalue] at lt
    omega

/-- A plain integer is taken with the value it spells. -/
theorem Number.sentence {s t r : Bytes} (h : Number (ch 'e') s t r)
    (hp : Plain ⟨.int, ch 'i' :: s, .uint64 (numberOf junk cap s t), r⟩) :
    ∃ u, ch 'i' :: s = u ++ r ∧ Sentence (.uint64 (numberOf junk cap s t)) u := by
  obtain ⟨t', r', hs, hd, hlt⟩ := hp
  obtain ⟨-, hs⟩ := List.cons.inj hs
  obtain ⟨rfl, rfl⟩ := h.eq_of_append hs (hd.not_mem (by decide))
  rw [numberOf, extractUint_digits hd hlt]
  refine ⟨_, ?_, .int hd hlt⟩
  rw [hs, List.cons_append, List.append_assoc]
  rfl

/-- A reading whose pieces are sentences, of a text that spells what is taken. A list has to be
closed, which it is unless nothing is left. -/
def Faithful (junk : ℕ → UInt64) (cap : ℕ) :
    (reader : Reader) → Bytes → reader.Result → Bytes → Prop
  | .any, s, v, r => r ≠ [] → Takes junk cap IsSentence .any s v r ∧
      ∃ u, s = u ++ r ∧ Sentence v u
  | .vector, s, l, r => r ≠ [] → Takes junk cap IsSentence .vector s l r ∧
      ∃ items : List (Any × Bytes), l = items.map Prod.fst ∧
        s = items.flatMap Prod.snd ++ ch 'e' :: r ∧ ∀ p ∈ items, Sentence p.1 p.2
  | .dictionary, _, none, _ => True
  | .dictionary, s, some pairs, r => Takes junk cap IsSentence .dictionary s (some pairs) r ∧
      ∃ entries : List Entry, pairs = entries.map Entry.pair ∧
        s = entries.flatMap Entry.text ++ ch 'e' :: r ∧
        (∀ e ∈ entries, Sentence (.string e.key) e.keyText) ∧
        ∀ e ∈ entries, Sentence e.value e.valueText

/-- **Plain readings are faithful.** -/
theorem Takes.faithful {reader : Reader} {s r : Bytes} {v : reader.Result}
    (h : Takes junk cap Plain reader s v r) (hlen : s.length < 2 ^ 64) :
    Faithful junk cap reader s v r := by
  induction h with
  | int number piece =>
    intro _
    obtain ⟨u, hu, hsent⟩ := number.sentence piece
    exact ⟨.int number ⟨u, hu, hsent⟩, u, hu, hsent⟩
  | list entries piece ih =>
    intro hr
    rw [List.length_cons] at hlen
    obtain ⟨htakes, items, rfl, rfl, hall⟩ := ih (by omega) hr
    have hsent := Sentence.list hall
    refine ⟨.list htakes ⟨_, ?_, hsent⟩, _, ?_, hsent⟩ <;> simp
  | dict entries piece ih =>
    intro _
    rw [List.length_cons] at hlen
    obtain ⟨htakes, es, rfl, rfl, hkeys, hvalues⟩ := ih (by omega)
    have hsent := Sentence.dict hkeys hvalues
    refine ⟨.dict htakes ⟨_, ?_, hsent⟩, _, ?_, hsent⟩ <;> simp
  | giveUp entries piece ih => exact piece.elim
  | string hi hl hd text piece =>
    intro _
    obtain ⟨u, hu, hsent⟩ := text.sentence hlen piece
    exact ⟨.string hi hl hd text ⟨u, hu, hsent⟩, u, hu, hsent⟩
  | stop => exact fun hr => absurd rfl hr
  | close => exact fun _ => ⟨.close, [], rfl, rfl, by simp⟩
  | entry hc value entries ih1 ih2 =>
    intro hq
    have h1 : List.length _ < List.length _ := value.leaves
    have h2 : List.length _ ≤ List.length _ := entries.leaves
    have hpos := List.length_pos_of_ne_nil hq
    obtain ⟨hvalue, u, hu, hsent⟩ := ih1 hlen (List.ne_nil_of_length_pos (by omega))
    obtain ⟨hentries, items, rfl, rfl, hall⟩ := ih2 (by omega) hq
    refine ⟨.entry hc hvalue hentries, (_, u) :: items, rfl, ?_, ?_⟩
    · rw [hu, List.flatMap_cons, List.append_assoc]
    · exact List.forall_mem_cons.2 ⟨hsent, hall⟩
  | noKey key piece => trivial
  | noValue key piece hk => trivial
  | noEnd key piece hk value ih => trivial
  | last key piece hk value ih =>
    have hkey := key.length_lt
    obtain ⟨u, hu, hsent⟩ := key.sentence hlen piece
    obtain ⟨hvalue, w, hw, hsent'⟩ := ih (by omega) (List.cons_ne_nil _ _)
    refine ⟨.last key ⟨u, hu, hsent⟩ hk hvalue, [⟨_, u, _, w⟩], rfl, ?_, ?_, ?_⟩
    · simp [Entry.text, hu, hw]
    · simpa using hsent
    · simpa using hsent'
  | more key piece hk value hc entries ih1 ih2 =>
    rename_i pairs
    cases pairs with
    | none => trivial
    | some pairs =>
      have hkey := key.length_lt
      have hval : List.length _ < List.length _ := value.leaves
      obtain ⟨u, hu, hsent⟩ := key.sentence hlen piece
      obtain ⟨hvalue, w, hw, hsent'⟩ := ih1 (by omega) (List.cons_ne_nil _ _)
      obtain ⟨hentries, es, rfl, hes, hkeys, hvalues⟩ := ih2 (by omega)
      refine ⟨.more key ⟨u, hu, hsent⟩ hk hvalue hc hentries, ⟨_, u, _, w⟩ :: es, rfl, ?_, ?_, ?_⟩
      · simp [Entry.text, hu, hw, hes]
      · exact List.forall_mem_cons.2 ⟨hsent, hkeys⟩
      · exact List.forall_mem_cons.2 ⟨hsent', hvalues⟩

/-! ### Sentences are plain pieces -/

theorem insert_ne_nil (d : Dictionary) (k : Bytes) (v : Any) : d.insert k v ≠ [] := by
  cases d with
  | nil => simp [Dictionary.insert]
  | cons p d =>
    rw [Dictionary.insert]
    split_ifs <;> simp

theorem toMap_ne_nil {p : Bytes × Any} {pairs : List (Bytes × Any)} : toMap (p :: pairs) ≠ [] := by
  have key : ∀ (pairs : List (Bytes × Any)) (d : Dictionary), d ≠ [] →
      pairs.foldl (fun d p => d.insert p.1 p.2) d ≠ [] := by
    intro pairs
    induction pairs with
    | nil => exact fun d hd => hd
    | cons q pairs ih => exact fun d _ => ih _ (insert_ne_nil d q.1 q.2)
  exact key pairs _ (insert_ne_nil [] p.1 p.2)

/-- The sentence of the empty dictionary has no entries. -/
theorem Sentence.eq_of_empty {u : Bytes} (h : Sentence (.dictionary []) u) :
    u = [ch 'd', ch 'e'] := by
  generalize hv : Any.dictionary [] = v at h
  cases h with
  | dict keys values =>
    rename_i entries
    cases entries with
    | nil => rfl
    | cons e entries => exact absurd (Any.dictionary.inj hv).symm toMap_ne_nil
  | _ => cases hv

theorem Sentence.exists_of_string {v u : Bytes} (h : Sentence (.string v) u) :
    ∃ t, u = t ++ ch ':' :: v ∧ Digits t ∧ Decimal.value t = v.length := by
  cases h with
  | string digits length => exact ⟨_, rfl, digits, length⟩

theorem Sentence.exists_of_uint64 {n : UInt64} {u : Bytes} (h : Sentence (.uint64 n) u) :
    ∃ t, u = ch 'i' :: (t ++ [ch 'e']) ∧ Digits t ∧ Decimal.value t < 2 ^ 64 := by
  generalize hv : Any.uint64 n = v at h
  cases h with
  | int digits lt => exact ⟨_, rfl, digits, lt⟩
  | _ => cases hv

/-- A string that is taken as a sentence is plain. -/
theorem IsSentence.plain_string {s v r : Bytes} (h : IsSentence ⟨.string, s, .string v, r⟩) :
    Plain ⟨.string, s, .string v, r⟩ := by
  obtain ⟨u, hu, hsent⟩ := h
  obtain ⟨t, rfl, hd, hv⟩ := hsent.exists_of_string
  refine ⟨t, v ++ r, ?_, hd, ?_⟩
  · simpa using hu
  · rw [hv, List.length_append]
    omega

theorem IsSentence.plain_int {s r : Bytes} {n : UInt64} (h : IsSentence ⟨.int, s, .uint64 n, r⟩) :
    Plain ⟨.int, s, .uint64 n, r⟩ := by
  obtain ⟨u, hu, hsent⟩ := h
  obtain ⟨t, rfl, hd, hv⟩ := hsent.exists_of_uint64
  exact ⟨t, r, by simpa using hu, hd, hv⟩

/-- A dictionary that is given up was not read up to the first byte only. -/
theorem Takes.length_of_none {s r : Bytes} (h : Takes junk cap P .dictionary s none r) :
    ∃ k q, StringText junk cap s k q ∧ r.length ≤ q.length := by
  generalize hv : (none : Option (List (Bytes × Any))) = v at h
  cases h with
  | noKey key => exact ⟨_, _, key, Nat.le_refl _⟩
  | noValue key => exact ⟨_, _, key, Nat.le_refl _⟩
  | noEnd key piece hk value =>
    have hval : List.length _ < List.length _ := value.leaves
    exact ⟨_, _, key, Nat.le_of_lt hval⟩
  | last => cases hv
  | more key piece hk value hc entries =>
    have hval : List.length _ < List.length _ := value.leaves
    have hent : List.length _ < List.length _ := entries.leaves
    exact ⟨_, _, key, by omega⟩

theorem Takes.ne_close_of_none {s r : Bytes} (h : Takes junk cap P .dictionary s none r) :
    s ≠ ch 'e' :: r := by
  rintro rfl
  obtain ⟨k, q, htext, hle⟩ := h.length_of_none
  have hnumber : ∀ {t q' : Bytes}, Number (ch ':') (ch 'e' :: r) t q' → q'.length < r.length := by
    rintro t q' ⟨ht, -⟩
    cases t with
    | nil => exact absurd (List.cons.inj ht).1 (by decide)
    | cons c t =>
      have := congrArg List.length ht
      simp only [List.length_append, List.length_cons] at this
      omega
  cases htext with
  | body number =>
    have := hnumber number
    rw [List.length_drop] at hle
    omega
  | tooLong number =>
    have := hnumber number
    omega

/-- **Faithful readings are plain.** -/
theorem Takes.plain {reader : Reader} {s r : Bytes} {v : reader.Result}
    (h : Takes junk cap IsSentence reader s v r) : Takes junk cap Plain reader s v r := by
  induction h with
  | int number piece => exact .int number piece.plain_int
  | list entries piece ih => exact .list ih trivial
  | dict entries piece ih => exact .dict ih trivial
  | giveUp entries piece ih =>
    obtain ⟨u, hu, hsent⟩ := piece
    rw [hsent.eq_of_empty] at hu
    exact absurd (List.cons.inj hu).2 entries.ne_close_of_none
  | string hi hl hd text piece => exact .string hi hl hd text piece.plain_string
  | stop => exact .stop
  | close => exact .close
  | entry hc value entries ih1 ih2 => exact .entry hc ih1 ih2
  | noKey key piece => exact .noKey key piece.plain_string
  | noValue key piece hk => exact .noValue key piece.plain_string hk
  | noEnd key piece hk value ih => exact .noEnd key piece.plain_string hk ih
  | last key piece hk value ih => exact .last key piece.plain_string hk ih
  | more key piece hk value hc entries ih1 ih2 => exact .more key piece.plain_string hk ih1 hc ih2

end Bencode

end CTorrent
