import CTorrent.Bencode.Language

/-!
# Readings

A reading of a text consists of the pieces that the readers take from it: each number, string,
list and dictionary with the text at the cursor, the value taken for it and what is left. The
readers make the readings of the text at the cursor and nothing else.

* `Reader`, `Piece`, `Takes`: a reading all of whose pieces have a property;
* `ends_takes`: a reader ends in a fault or makes a reading; `run_takes`: it makes every reading;
* `decode_takes`, `decode_of_takes`: the same of `decode`.
-/

namespace CTorrent

namespace Bencode

/-- The readers: of a value of any kind, and of the entries of a list or a dictionary. -/
inductive Reader where
  | any
  | vector
  | dictionary

/-- What a piece was read as. -/
inductive Kind where
  | int
  | string
  | list
  | dictionary
  | givenUp

/-- A piece that a reader takes: the text at the cursor, the value, and what is left. A dictionary
that was given up before its `e` has the empty value. -/
structure Piece where
  kind : Kind
  text : Bytes
  value : Any
  rest : Bytes

/-- What a reader comes to: a value, the values of a list from here on, or the pairs of a
dictionary from here on, unless it is given up. -/
abbrev Reader.Result : Reader → Type
  | .any => Any
  | .vector => List Any
  | .dictionary => Option (List (Bytes × Any))

/-- The map that pairs make, the later ones on top. -/
def toMap (pairs : List (Bytes × Any)) : Dictionary :=
  pairs.foldl (fun d p => d.insert p.1 p.2) []

variable (junk : ℕ → UInt64) (cap : ℕ) (P : Piece → Prop)

/-- The number that `readUint` makes of the text `t`, when `s` remains of the buffer. -/
def numberOf (s t : Bytes) : UInt64 := extractUint t (junk (cap - s.length))

/-- The readings of a text all of whose pieces have the property `P`. -/
inductive Takes : (reader : Reader) → Bytes → reader.Result → Bytes → Prop
  | int {s t r : Bytes} (number : Number (ch 'e') s t r)
      (piece : P ⟨.int, ch 'i' :: s, .uint64 (numberOf junk cap s t), r⟩) :
      Takes .any (ch 'i' :: s) (Any.uint64 (numberOf junk cap s t)) r
  | list {s r : Bytes} {l : List Any} (entries : Takes .vector s l r)
      (piece : P ⟨.list, ch 'l' :: s, .vector l, r⟩) :
      Takes .any (ch 'l' :: s) (Any.vector l) r
  | dict {s r : Bytes} {pairs : List (Bytes × Any)} (entries : Takes .dictionary s (some pairs) r)
      (piece : P ⟨.dictionary, ch 'd' :: s, .dictionary (toMap pairs), r⟩) :
      Takes .any (ch 'd' :: s) (Any.dictionary (toMap pairs)) r
  | giveUp {s r : Bytes} (entries : Takes .dictionary s none r)
      (piece : P ⟨.givenUp, ch 'd' :: s, .dictionary [], r⟩) :
      Takes .any (ch 'd' :: s) (Any.dictionary []) r
  | string {c : UInt8} {s v r : Bytes} (hi : c ≠ ch 'i') (hl : c ≠ ch 'l') (hd : c ≠ ch 'd')
      (text : StringText junk cap (c :: s) v r)
      (piece : P ⟨.string, c :: s, .string v, r⟩) : Takes .any (c :: s) (Any.string v) r
  | stop : Takes .vector [] ([] : List Any) []
  | close {s : Bytes} : Takes .vector (ch 'e' :: s) ([] : List Any) s
  | entry {c : UInt8} {s r q : Bytes} {v : Any} {l : List Any} (hc : c ≠ ch 'e')
      (value : Takes .any (c :: s) v r) (entries : Takes .vector r l q) :
      Takes .vector (c :: s) (v :: l : List Any) q
  | noKey {s r : Bytes} (key : StringText junk cap s [] r)
      (piece : P ⟨.string, s, .string [], r⟩) : Takes .dictionary s none r
  | noValue {s k : Bytes} (key : StringText junk cap s k [])
      (piece : P ⟨.string, s, .string k, []⟩) (hk : k ≠ []) : Takes .dictionary s none []
  | noEnd {s k r : Bytes} {v : Any} (key : StringText junk cap s k r)
      (piece : P ⟨.string, s, .string k, r⟩) (hk : k ≠ []) (value : Takes .any r v []) :
      Takes .dictionary s none []
  | last {s k r q : Bytes} {v : Any} (key : StringText junk cap s k r)
      (piece : P ⟨.string, s, .string k, r⟩) (hk : k ≠ []) (value : Takes .any r v (ch 'e' :: q)) :
      Takes .dictionary s (some [(k, v)]) q
  | more {s k r q q' : Bytes} {v : Any} {c : UInt8} {pairs : Option (List (Bytes × Any))}
      (key : StringText junk cap s k r) (piece : P ⟨.string, s, .string k, r⟩) (hk : k ≠ [])
      (value : Takes .any r v (c :: q)) (hc : c ≠ ch 'e')
      (entries : Takes .dictionary (c :: q) pairs q') :
      Takes .dictionary s (pairs.map ((k, v) :: ·)) q'

variable {junk cap P}

/-- How much of its text a reader leaves. -/
def Leaves (reader : Reader) (s r : Bytes) : Prop :=
  match reader with
  | .any => r.length < s.length
  | .vector => r.length ≤ s.length
  | .dictionary => r.length < s.length

/-- What is left is shorter; only the loop over a list may have found nothing. -/
theorem Takes.leaves {reader : Reader} {s r : Bytes} {v : reader.Result}
    (h : Takes junk cap P reader s v r) : Leaves reader s r := by
  induction h with
  | int number =>
    obtain ⟨rfl, -⟩ := number
    simp only [Leaves, List.length_cons, List.length_append]
    omega
  | list entries piece ih => exact Nat.lt_succ_of_le ih
  | dict entries piece ih => exact Nat.lt_succ_of_lt ih
  | giveUp entries piece ih => exact Nat.lt_succ_of_lt ih
  | string hi hl hd text => exact text.length_lt
  | stop => exact Nat.le_refl 0
  | close => exact Nat.le_succ _
  | entry hc value entries ih1 ih2 => exact Nat.le_trans ih2 (Nat.le_of_lt ih1)
  | noKey key => exact key.length_lt
  | noValue key => exact key.length_lt
  | noEnd key piece hk value ih => exact Nat.lt_trans ih key.length_lt
  | last key piece hk value ih => exact Nat.lt_trans (Nat.lt_of_succ_lt ih) key.length_lt
  | more key piece hk value hc entries ih1 ih2 =>
    exact Nat.lt_trans ih2 (Nat.lt_trans ih1 key.length_lt)

theorem Takes.mono {Q : Piece → Prop} (hPQ : ∀ p, P p → Q p) {reader : Reader} {s r : Bytes}
    {v : reader.Result} (h : Takes junk cap P reader s v r) : Takes junk cap Q reader s v r := by
  induction h with
  | int number piece => exact .int number (hPQ _ piece)
  | list entries piece ih => exact .list ih (hPQ _ piece)
  | dict entries piece ih => exact .dict ih (hPQ _ piece)
  | giveUp entries piece ih => exact .giveUp ih (hPQ _ piece)
  | string hi hl hd text piece => exact .string hi hl hd text (hPQ _ piece)
  | stop => exact .stop
  | close => exact .close
  | entry hc value entries ih1 ih2 => exact .entry hc ih1 ih2
  | noKey key piece => exact .noKey key (hPQ _ piece)
  | noValue key piece hk => exact .noValue key (hPQ _ piece) hk
  | noEnd key piece hk value ih => exact .noEnd key (hPQ _ piece) hk ih
  | last key piece hk value ih => exact .last key (hPQ _ piece) hk ih
  | more key piece hk value hc entries ih1 ih2 => exact .more key (hPQ _ piece) hk ih1 hc ih2

/-! ### The readers make such readings -/

/-- What the loop over a dictionary returns, with `ret` collected so far. -/
def collected (ret : Dictionary) : Option (List (Bytes × Any)) → Dictionary
  | none => []
  | some pairs => pairs.foldl (fun d p => d.insert p.1 p.2) ret

theorem collected_map (ret : Dictionary) (k : Bytes) (v : Any)
    (pairs : Option (List (Bytes × Any))) :
    collected ret (pairs.map ((k, v) :: ·)) = collected (ret.insert k v) pairs := by
  cases pairs <;> rfl

/-- Any property of pieces at all. -/
def Anything (_ : Piece) : Prop := True

section Reader

variable (junk) {b : DataBuffer UInt8} {pos : ℕ} {s r : Bytes}

theorem At.cap_sub (h : At b pos s) : b.cap - s.length = pos := by
  rw [h.cap_eq, Nat.add_sub_cancel]

/-- What a reader comes to on the text `s`: a fault, or the outcome `f` of a reading. -/
def EndsIn (b : DataBuffer UInt8) (reader : Reader) (s : Bytes) {α : Type}
    (f : reader.Result → α) (o : Outcome α) : Prop :=
  (∃ e, o = .fault e) ∨
    ∃ v pos' r, o = .ok (f v) pos' ∧ Takes junk b.cap Anything reader s v r ∧ At b pos' r

theorem endsIn_any (hcap : b.cap < 2 ^ 64) {fuel : ℕ}
    (ihv : ∀ s pos ret, At b pos s → 2 * s.length + 1 ≤ fuel →
      EndsIn junk b .vector s (ret ++ ·) (readVector junk b fuel pos ret))
    (ihd : ∀ s pos ret, At b pos s → 2 * s.length + 1 ≤ fuel →
      EndsIn junk b .dictionary s (collected ret) (readDictionary junk b fuel pos ret))
    {c : UInt8} (h : At b pos (c :: s)) (hfuel : 2 * (s.length + 1) ≤ fuel + 1) :
    EndsIn junk b .any (c :: s) id (readAny junk b (fuel + 1) c (pos + 1)) := by
  rw [readAny]
  split_ifs with hi hl hd
  · subst hi
    by_cases hmem : ch 'e' ∈ s
    · obtain ⟨t, r, hn⟩ := exists_number hmem
      obtain ⟨hread, hat⟩ := h.tail.readIntUntil junk hn
      refine Or.inr ⟨_, _, r, ?_, .int hn trivial, hat⟩
      rw [readUint, hread, numberOf, h.tail.cap_sub]
      rfl
    · rw [readUint, h.tail.readIntUntil_fault junk hmem]
      exact Or.inl ⟨_, rfl⟩
  · subst hl
    rcases ihv s (pos + 1) [] h.tail (by omega) with ⟨f, hf⟩ | ⟨v, pos', r, hv, hr, hat⟩
    · rw [hf]
      exact Or.inl ⟨f, rfl⟩
    · rw [hv]
      exact Or.inr ⟨_, _, r, rfl, .list hr trivial, hat⟩
  · subst hd
    rcases ihd s (pos + 1) [] h.tail (by omega) with ⟨f, hf⟩ | ⟨v, pos', r, hv, hr, hat⟩
    · rw [hf]
      exact Or.inl ⟨f, rfl⟩
    · rw [hv]
      cases v with
      | none => exact Or.inr ⟨_, _, r, rfl, .giveUp hr trivial, hat⟩
      | some pairs => exact Or.inr ⟨_, _, r, rfl, .dict hr trivial, hat⟩
  · rw [Nat.add_sub_cancel]
    rcases readString_total junk h hcap with ⟨f, hf⟩ | ⟨v, r, pos', hv, hr, hat⟩
    · rw [hf]
      exact Or.inl ⟨f, rfl⟩
    · rw [hv]
      exact Or.inr ⟨_, _, r, rfl, .string hi hl hd hr trivial, hat⟩

theorem endsIn_vector {fuel : ℕ}
    (iha : ∀ c s pos, At b pos (c :: s) → 2 * (s.length + 1) ≤ fuel →
      EndsIn junk b .any (c :: s) id (readAny junk b fuel c (pos + 1)))
    (ihv : ∀ s pos ret, At b pos s → 2 * s.length + 1 ≤ fuel →
      EndsIn junk b .vector s (ret ++ ·) (readVector junk b fuel pos ret))
    (ret : VectorType) (h : At b pos s) (hfuel : 2 * s.length + 1 ≤ fuel + 1) :
    EndsIn junk b .vector s (ret ++ ·) (readVector junk b (fuel + 1) pos ret) := by
  rw [readVector]
  cases s with
  | nil =>
    rw [h.unpackByte_nil]
    exact Or.inr ⟨_, _, [], congrArg (Outcome.ok · pos) (List.append_nil ret).symm, .stop, h⟩
  | cons c s =>
    rw [List.length_cons] at hfuel
    rw [h.unpackByte_cons]
    dsimp only
    split_ifs with hc
    · subst hc
      exact Or.inr ⟨_, _, s, congrArg (Outcome.ok · (pos + 1)) (List.append_nil ret).symm, .close,
        h.tail⟩
    · rcases iha c s pos h (by omega) with ⟨f, hf⟩ | ⟨v, pos', r, hv, hr, hat⟩
      · rw [hf]
        exact Or.inl ⟨f, rfl⟩
      · have hlt : r.length < (c :: s).length := hr.leaves
        rw [List.length_cons] at hlt
        rw [hv, Outcome.bind_ok]
        rcases ihv r pos' (ret ++ [v]) hat (by omega) with ⟨f, hf⟩ | ⟨w, pos'', q, hw, hq, hat'⟩
        · exact Or.inl ⟨f, hf⟩
        · refine Or.inr ⟨_, pos'', q, ?_, .entry hc hr hq, hat'⟩
          rw [id, hw]
          exact congrArg (Outcome.ok · pos'') (List.append_assoc ret [v] w)

theorem endsIn_dictionary (hcap : b.cap < 2 ^ 64) {fuel : ℕ}
    (iha : ∀ c s pos, At b pos (c :: s) → 2 * (s.length + 1) ≤ fuel →
      EndsIn junk b .any (c :: s) id (readAny junk b fuel c (pos + 1)))
    (ihd : ∀ s pos ret, At b pos s → 2 * s.length + 1 ≤ fuel →
      EndsIn junk b .dictionary s (collected ret) (readDictionary junk b fuel pos ret))
    (ret : Dictionary) (h : At b pos s) (hfuel : 2 * s.length + 1 ≤ fuel + 1) :
    EndsIn junk b .dictionary s (collected ret) (readDictionary junk b (fuel + 1) pos ret) := by
  rw [readDictionary]
  rcases readString_total junk h hcap with ⟨f, hf⟩ | ⟨k, r, pos', hk, htext, hat⟩
  · rw [hf]
    exact Or.inl ⟨f, rfl⟩
  · have hkey := htext.length_lt
    rw [hk, Outcome.bind_ok]
    split_ifs with hne
    · subst hne
      exact Or.inr ⟨none, _, r, rfl, .noKey htext trivial, hat⟩
    · cases r with
      | nil =>
        rw [hat.unpackByte_nil]
        exact Or.inr ⟨none, _, [], rfl, .noValue htext trivial hne, hat⟩
      | cons c r =>
        rw [List.length_cons] at hkey
        rw [hat.unpackByte_cons]
        dsimp only
        rcases iha c r pos' hat (by omega) with ⟨f, hf⟩ | ⟨v, pos'', q, hv, hq, hat'⟩
        · rw [hf]
          exact Or.inl ⟨f, rfl⟩
        · have hlt : q.length < (c :: r).length := hq.leaves
          rw [List.length_cons] at hlt
          rw [hv, Outcome.bind_ok]
          cases q with
          | nil =>
            rw [hat'.unpackByte_nil]
            exact Or.inr ⟨none, _, [], rfl, .noEnd htext trivial hne hq, hat'⟩
          | cons c' q =>
            rw [hat'.unpackByte_cons]
            dsimp only
            split_ifs with hc
            · subst hc
              exact Or.inr ⟨some [(k, v)], _, q, rfl, .last htext trivial hne hq, hat'.tail⟩
            · rcases ihd (c' :: q) pos'' (Dictionary.insert ret k v) hat' (by omega) with
                ⟨f, hf⟩ | ⟨w, p, q', hw, hq', hat''⟩
              · exact Or.inl ⟨f, hf⟩
              · refine Or.inr ⟨_, p, q', ?_, .more htext trivial hne hq hc hq', hat''⟩
                rw [collected_map]
                exact hw

/-- **Every reader ends in a fault or makes a reading.** -/
theorem ends_takes (hcap : b.cap < 2 ^ 64) (fuel : ℕ) :
    (∀ c s pos, At b pos (c :: s) → 2 * (s.length + 1) ≤ fuel →
      EndsIn junk b .any (c :: s) id (readAny junk b fuel c (pos + 1))) ∧
    (∀ s pos ret, At b pos s → 2 * s.length + 1 ≤ fuel →
      EndsIn junk b .vector s (ret ++ ·) (readVector junk b fuel pos ret)) ∧
    (∀ s pos ret, At b pos s → 2 * s.length + 1 ≤ fuel →
      EndsIn junk b .dictionary s (collected ret) (readDictionary junk b fuel pos ret)) := by
  induction fuel with
  | zero =>
    refine ⟨fun c s pos _ hf => ?_, fun s pos ret _ hf => ?_, fun s pos ret _ hf => ?_⟩
    · omega
    · omega
    · omega
  | succ fuel ih =>
    obtain ⟨iha, ihv, ihd⟩ := ih
    exact ⟨fun c s pos h hf => endsIn_any junk hcap ihv ihd h hf,
      fun s pos ret h hf => endsIn_vector junk iha ihv ret h hf,
      fun s pos ret h hf => endsIn_dictionary junk hcap iha ihd ret h hf⟩

/-- The reader makes the reading of `s` that gives `v` and leaves `r`. -/
def Makes (b : DataBuffer UInt8) : (reader : Reader) → Bytes → reader.Result → Bytes → Prop
  | .any, s, v, r => ∀ c s', s = c :: s' → ∀ fuel pos, At b pos s → 2 * s.length ≤ fuel →
      ∃ pos', readAny junk b fuel c (pos + 1) = .ok v pos' ∧ At b pos' r
  | .vector, s, l, r => ∀ fuel pos ret, At b pos s → 2 * s.length + 1 ≤ fuel →
      ∃ pos', readVector junk b fuel pos ret = .ok (ret ++ l) pos' ∧ At b pos' r
  | .dictionary, s, pairs, r => ∀ fuel pos ret, At b pos s → 2 * s.length + 1 ≤ fuel →
      ∃ pos', readDictionary junk b fuel pos ret = .ok (collected ret pairs) pos' ∧ At b pos' r

/-- What follows the key in an entry of a dictionary: the value is read, and the loop looks at the
byte behind it. -/
theorem readDictionary_taken (hcap : b.cap < 2 ^ 64) {k q : Bytes} {v : Any} {fuel : ℕ}
    (hat : At b pos s) (key : StringText junk b.cap s k r) (hk : k ≠ [])
    (hval : q.length < r.length) (ih : Makes junk b .any r v q)
    (hfuel : 2 * s.length + 1 ≤ fuel + 1) (ret : Dictionary) :
    ∃ pos', readDictionary junk b (fuel + 1) pos ret =
        (match unpackByte b pos' with
        | none => .ok [] pos'
        | some byte =>
            if byte = ch 'e' then .ok (Dictionary.insert ret k v) (pos' + 1)
            else readDictionary junk b fuel pos' (Dictionary.insert ret k v)) ∧
      At b pos' q := by
  obtain ⟨pos1, hread, hat1⟩ := readString_of_text junk hat hcap key
  have hkey := key.length_lt
  cases r with
  | nil => exact absurd hval (Nat.not_lt_zero _)
  | cons c r =>
    obtain ⟨pos', hv, hat'⟩ := ih c r rfl fuel pos1 hat1 (by omega)
    refine ⟨pos', ?_, hat'⟩
    rw [readDictionary, hread, Outcome.bind_ok, if_neg hk, hat1.unpackByte_cons]
    dsimp only
    rw [hv]
    rfl

/-- **Every reading is made.** -/
theorem run_takes (hcap : b.cap < 2 ^ 64) {reader : Reader} {v : reader.Result}
    (h : Takes junk b.cap P reader s v r) : Makes junk b reader s v r := by
  induction h with
  | int number piece =>
    rintro c s' hs fuel pos hat hfuel
    obtain ⟨rfl, rfl⟩ := List.cons.inj hs
    obtain ⟨fuel, rfl⟩ : ∃ n, fuel = n + 1 := ⟨fuel - 1, by simp at hfuel; omega⟩
    obtain ⟨hread, hat'⟩ := hat.tail.readIntUntil junk number
    rw [readAny, if_pos rfl, readUint, hread, numberOf, hat.tail.cap_sub]
    exact ⟨_, rfl, hat'⟩
  | list entries piece ih =>
    rintro c s' hs fuel pos hat hfuel
    obtain ⟨rfl, rfl⟩ := List.cons.inj hs
    rw [List.length_cons] at hfuel
    obtain ⟨fuel, rfl⟩ : ∃ n, fuel = n + 1 := ⟨fuel - 1, by omega⟩
    obtain ⟨pos', hv, hat'⟩ := ih fuel (pos + 1) [] hat.tail (by omega)
    rw [readAny, if_neg (by decide), if_pos rfl, hv]
    exact ⟨pos', rfl, hat'⟩
  | dict entries piece ih =>
    rintro c s' hs fuel pos hat hfuel
    obtain ⟨rfl, rfl⟩ := List.cons.inj hs
    rw [List.length_cons] at hfuel
    obtain ⟨fuel, rfl⟩ : ∃ n, fuel = n + 1 := ⟨fuel - 1, by omega⟩
    obtain ⟨pos', hv, hat'⟩ := ih fuel (pos + 1) [] hat.tail (by omega)
    rw [readAny, if_neg (by decide), if_neg (by decide), if_pos rfl, hv]
    exact ⟨pos', rfl, hat'⟩
  | giveUp entries piece ih =>
    rintro c s' hs fuel pos hat hfuel
    obtain ⟨rfl, rfl⟩ := List.cons.inj hs
    rw [List.length_cons] at hfuel
    obtain ⟨fuel, rfl⟩ : ∃ n, fuel = n + 1 := ⟨fuel - 1, by omega⟩
    obtain ⟨pos', hv, hat'⟩ := ih fuel (pos + 1) [] hat.tail (by omega)
    rw [readAny, if_neg (by decide), if_neg (by decide), if_pos rfl, hv]
    exact ⟨pos', rfl, hat'⟩
  | string hi hl hd text piece =>
    rintro c s' hs fuel pos hat hfuel
    obtain ⟨rfl, rfl⟩ := List.cons.inj hs
    obtain ⟨fuel, rfl⟩ : ∃ n, fuel = n + 1 := ⟨fuel - 1, by simp at hfuel; omega⟩
    obtain ⟨pos', hv, hat'⟩ := readString_of_text junk hat hcap text
    rw [readAny, if_neg hi, if_neg hl, if_neg hd, Nat.add_sub_cancel, hv]
    exact ⟨_, rfl, hat'⟩
  | stop =>
    rintro fuel pos ret hat hfuel
    obtain ⟨fuel, rfl⟩ : ∃ n, fuel = n + 1 := ⟨fuel - 1, by omega⟩
    refine ⟨pos, ?_, hat⟩
    rw [readVector, hat.unpackByte_nil, List.append_nil]
  | close =>
    rintro fuel pos ret hat hfuel
    obtain ⟨fuel, rfl⟩ : ∃ n, fuel = n + 1 := ⟨fuel - 1, by omega⟩
    refine ⟨pos + 1, ?_, hat.tail⟩
    rw [readVector, hat.unpackByte_cons, List.append_nil]
    exact if_pos rfl
  | entry hc value entries ih1 ih2 =>
    rintro fuel pos ret hat hfuel
    obtain ⟨fuel, rfl⟩ : ∃ n, fuel = n + 1 := ⟨fuel - 1, by omega⟩
    have hlt : List.length _ < List.length _ := value.leaves
    obtain ⟨pos', hv, hat'⟩ := ih1 _ _ rfl fuel pos hat (by omega)
    obtain ⟨pos'', hw, hat''⟩ := ih2 fuel pos' (ret ++ [_]) hat' (by omega)
    refine ⟨pos'', ?_, hat''⟩
    rw [readVector, hat.unpackByte_cons]
    dsimp only
    rw [if_neg hc, hv, Outcome.bind_ok, hw, List.append_assoc]
    rfl
  | noKey key piece =>
    rintro fuel pos ret hat hfuel
    obtain ⟨fuel, rfl⟩ : ∃ n, fuel = n + 1 := ⟨fuel - 1, by omega⟩
    obtain ⟨pos', hk, hat'⟩ := readString_of_text junk hat hcap key
    refine ⟨pos', ?_, hat'⟩
    rw [readDictionary, hk]
    rfl
  | noValue key piece hk =>
    rintro fuel pos ret hat hfuel
    obtain ⟨fuel, rfl⟩ : ∃ n, fuel = n + 1 := ⟨fuel - 1, by omega⟩
    obtain ⟨pos', hread, hat'⟩ := readString_of_text junk hat hcap key
    refine ⟨pos', ?_, hat'⟩
    rw [readDictionary, hread, Outcome.bind_ok, if_neg hk, hat'.unpackByte_nil]
    rfl
  | noEnd key piece hk value ih =>
    rintro fuel pos ret hat hfuel
    obtain ⟨fuel, rfl⟩ : ∃ n, fuel = n + 1 := ⟨fuel - 1, by omega⟩
    obtain ⟨pos', hv, hat'⟩ := readDictionary_taken junk hcap hat key hk value.leaves ih hfuel ret
    rw [hv, hat'.unpackByte_nil]
    exact ⟨pos', rfl, hat'⟩
  | last key piece hk value ih =>
    rintro fuel pos ret hat hfuel
    obtain ⟨fuel, rfl⟩ : ∃ n, fuel = n + 1 := ⟨fuel - 1, by omega⟩
    obtain ⟨pos', hv, hat'⟩ := readDictionary_taken junk hcap hat key hk value.leaves ih hfuel ret
    rw [hv, hat'.unpackByte_cons]
    exact ⟨pos' + 1, if_pos rfl, hat'.tail⟩
  | more key piece hk value hc entries ih1 ih2 =>
    rintro fuel pos ret hat hfuel
    obtain ⟨fuel, rfl⟩ : ∃ n, fuel = n + 1 := ⟨fuel - 1, by omega⟩
    obtain ⟨pos', hv, hat'⟩ := readDictionary_taken junk hcap hat key hk value.leaves ih1 hfuel ret
    have hkey := key.length_lt
    have hval : List.length _ < List.length _ := value.leaves
    obtain ⟨pos'', hw, hat''⟩ := ih2 fuel pos' _ hat' (by omega)
    rw [hv, hat'.unpackByte_cons]
    dsimp only
    rw [if_neg hc, hw, collected_map]
    exact ⟨pos'', rfl, hat''⟩

end Reader

/-! ### `decode` -/

section Decode

variable (junk) (fresh : ℕ → UInt8) {rest r : Bytes}

theorem decode_takes (hlen : rest.length < 2 ^ 64) :
    (∃ e, decode junk (new fresh) (ch 'd' :: rest) = .fault e) ∨
      ∃ v pos r, decode junk (new fresh) (ch 'd' :: rest) =
          .ok (collected [] v, ⟨DataBuffer.setData rest, pos⟩) pos ∧
        Takes junk rest.length Anything .dictionary rest v r ∧ rest.length = pos + r.length := by
  have hat : At (DataBuffer.setData rest) 0 rest := ⟨rfl, Nat.zero_le _, rfl⟩
  have hcap : (DataBuffer.setData rest).cap < 2 ^ 64 := hlen
  have hends := (ends_takes junk hcap (2 * (ch 'd' :: rest).length)).2.2 rest 0 [] hat
    (by rw [List.length_cons]; omega)
  have hdecode : decode junk (new fresh) (ch 'd' :: rest) =
      (readDictionary junk (DataBuffer.setData rest) (2 * (ch 'd' :: rest).length) 0 []).bind
        fun d pos => .ok (d, ⟨DataBuffer.setData rest, pos⟩) pos := rfl
  rw [hdecode]
  rcases hends with ⟨e, he⟩ | ⟨v, pos, r, hv, htakes, hat'⟩
  · rw [he]
    exact Or.inl ⟨e, rfl⟩
  · rw [hv]
    exact Or.inr ⟨v, pos, r, rfl, htakes, hat'.cap_eq⟩

theorem decode_of_takes (hlen : rest.length < 2 ^ 64) {P : Piece → Prop}
    {v : Option (List (Bytes × Any))} (h : Takes junk rest.length P .dictionary rest v r) :
    ∃ object pos, decode junk (new fresh) (ch 'd' :: rest) = .ok (collected [] v, object) pos ∧
      rest.length = pos + r.length := by
  have hat : At (DataBuffer.setData rest) 0 rest := ⟨rfl, Nat.zero_le _, rfl⟩
  have hcap : (DataBuffer.setData rest).cap < 2 ^ 64 := hlen
  obtain ⟨pos, hv, hat'⟩ := run_takes junk hcap h (2 * (ch 'd' :: rest).length) 0 [] hat
    (by rw [List.length_cons]; omega)
  refine ⟨⟨DataBuffer.setData rest, pos⟩, pos, ?_, hat'.cap_eq⟩
  have hdecode : decode junk (new fresh) (ch 'd' :: rest) =
      (readDictionary junk (DataBuffer.setData rest) (2 * (ch 'd' :: rest).length) 0 []).bind
        fun d pos => .ok (d, ⟨DataBuffer.setData rest, pos⟩) pos := rfl
  rw [hdecode, hv, Outcome.bind_ok]

end Decode

end Bencode

end CTorrent
