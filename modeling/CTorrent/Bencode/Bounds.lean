import CTorrent.Bencode.Readings

/-!
# Which inputs the decoder stays inside of

Three things lead out of the buffer: a number or a length without its terminator, a string of
length zero at the very end, and a length so large that adding it to the cursor wraps. `Reads` is
the language of the texts without them: what the readers get through, and what they leave unread.

* `Reads`: the texts; `Takes.reads`, `Reads.takes`: they are those of which there is a reading;
* `decode_inBounds_iff`: the inputs of `decode`.
-/

namespace CTorrent

namespace Bencode

variable (junk : ℕ → UInt64) (cap : ℕ)

/-- The texts that the readers get through, and what they leave. -/
inductive Reads : Reader → Bytes → Bytes → Prop
  | int {s t r : Bytes} (number : Number (ch 'e') s t r) : Reads .any (ch 'i' :: s) r
  | list {s r : Bytes} (entries : Reads .vector s r) : Reads .any (ch 'l' :: s) r
  | dict {s r : Bytes} (entries : Reads .dictionary s r) : Reads .any (ch 'd' :: s) r
  | string {c : UInt8} {s v r : Bytes} (hi : c ≠ ch 'i') (hl : c ≠ ch 'l') (hd : c ≠ ch 'd')
      (text : StringText junk cap (c :: s) v r) : Reads .any (c :: s) r
  | stop : Reads .vector [] []
  | close {s : Bytes} : Reads .vector (ch 'e' :: s) s
  | entry {c : UInt8} {s r q : Bytes} (hc : c ≠ ch 'e') (value : Reads .any (c :: s) r)
      (entries : Reads .vector r q) : Reads .vector (c :: s) q
  | noKey {s r : Bytes} (key : StringText junk cap s [] r) : Reads .dictionary s r
  | noValue {s k : Bytes} (key : StringText junk cap s k []) (hk : k ≠ []) :
      Reads .dictionary s []
  | noEnd {s k r : Bytes} (key : StringText junk cap s k r) (hk : k ≠ []) (value : Reads .any r []) :
      Reads .dictionary s []
  | last {s k r q : Bytes} (key : StringText junk cap s k r) (hk : k ≠ [])
      (value : Reads .any r (ch 'e' :: q)) : Reads .dictionary s q
  | more {s k r q q' : Bytes} {c : UInt8} (key : StringText junk cap s k r) (hk : k ≠ [])
      (value : Reads .any r (c :: q)) (hc : c ≠ ch 'e') (entries : Reads .dictionary (c :: q) q') :
      Reads .dictionary s q'

variable {junk cap}

/-- A text of which there is a reading is read. -/
theorem Takes.reads {P : Piece → Prop} {reader : Reader} {s r : Bytes} {v : reader.Result}
    (h : Takes junk cap P reader s v r) : Reads junk cap reader s r := by
  induction h with
  | int number => exact .int number
  | list entries piece ih => exact .list ih
  | dict entries piece ih => exact .dict ih
  | giveUp entries piece ih => exact .dict ih
  | string hi hl hd text => exact .string hi hl hd text
  | stop => exact .stop
  | close => exact .close
  | entry hc value entries ih1 ih2 => exact .entry hc ih1 ih2
  | noKey key => exact .noKey key
  | noValue key piece hk => exact .noValue key hk
  | noEnd key piece hk value ih => exact .noEnd key hk ih
  | last key piece hk value ih => exact .last key hk ih
  | more key piece hk value hc entries ih1 ih2 => exact .more key hk ih1 hc ih2

/-- There is a reading of every text of the language. -/
theorem Reads.takes {reader : Reader} {s r : Bytes} (h : Reads junk cap reader s r) :
    ∃ v, Takes junk cap Anything reader s v r := by
  induction h with
  | int number => exact ⟨_, .int number trivial⟩
  | list entries ih =>
    obtain ⟨l, hl⟩ := ih
    exact ⟨_, .list hl trivial⟩
  | dict entries ih =>
    obtain ⟨pairs, hpairs⟩ := ih
    cases pairs with
    | none => exact ⟨_, .giveUp hpairs trivial⟩
    | some pairs => exact ⟨_, .dict hpairs trivial⟩
  | string hi hl hd text => exact ⟨_, .string hi hl hd text trivial⟩
  | stop => exact ⟨_, .stop⟩
  | close => exact ⟨_, .close⟩
  | entry hc value entries ih1 ih2 =>
    obtain ⟨v, hv⟩ := ih1
    obtain ⟨l, hl⟩ := ih2
    exact ⟨_, .entry hc hv hl⟩
  | noKey key => exact ⟨_, .noKey key trivial⟩
  | noValue key hk => exact ⟨_, .noValue key trivial hk⟩
  | noEnd key hk value ih =>
    obtain ⟨v, hv⟩ := ih
    exact ⟨_, .noEnd key trivial hk hv⟩
  | last key hk value ih =>
    obtain ⟨v, hv⟩ := ih
    exact ⟨_, .last key trivial hk hv⟩
  | more key hk value hc entries ih1 ih2 =>
    obtain ⟨v, hv⟩ := ih1
    obtain ⟨pairs, hpairs⟩ := ih2
    exact ⟨_, .more key trivial hk hv hc hpairs⟩

/-! ### `decode` -/

variable (junk) (fresh : ℕ → UInt8)

/-- `decode` on a fresh object returns, without a fault on the way and with the cursor inside the
buffer of the bytes behind the first. -/
def InBounds (data : Bytes) : Prop :=
  ∃ r pos, decode junk (new fresh) data = .ok r pos ∧ pos ≤ data.length - 1

/-- **The inputs that are decoded inside the buffer.** For an input that begins with `d`, the
decoder stays inside its buffer exactly if the bytes behind the `d` are a text of the language;
otherwise it ends in a fault. -/
theorem decode_inBounds_iff (rest : Bytes) (hlen : rest.length < 2 ^ 64) :
    (InBounds junk fresh (ch 'd' :: rest) ↔ ∃ r, Reads junk rest.length .dictionary rest r) ∧
      (¬ InBounds junk fresh (ch 'd' :: rest) →
        ∃ f, decode junk (new fresh) (ch 'd' :: rest) = .fault f) := by
  have htakes := decode_takes junk fresh hlen
  refine ⟨⟨?_, ?_⟩, fun hnot => ?_⟩
  · rintro ⟨r, pos, hr, -⟩
    rcases htakes with ⟨f, hf⟩ | ⟨v, pos', q, -, hq, -⟩
    · rw [hf] at hr
      cases hr
    · exact ⟨q, hq.reads⟩
  · rintro ⟨r, hr⟩
    obtain ⟨v, hv⟩ := hr.takes
    obtain ⟨object, pos, hd, hpos⟩ := decode_of_takes junk fresh hlen hv
    exact ⟨_, pos, hd, by rw [List.length_cons]; omega⟩
  · rcases htakes with hfault | ⟨v, pos, q, hd, -, hpos⟩
    · exact hfault
    · exact absurd ⟨_, pos, hd, by rw [List.length_cons]; omega⟩ hnot

/-- The input `d1:ai7ee`, without its first byte. -/
def oneEntry : Bytes := [49, 58, 97, 105, 55, 101, 101]

theorem decode_inBounds_iff_oneEntry :
    (InBounds (fun _ => 0) (fun _ => 0) (ch 'd' :: oneEntry) ↔
      ∃ r, Reads (fun _ => 0) oneEntry.length .dictionary oneEntry r) ∧
    (¬ InBounds (fun _ => 0) (fun _ => 0) (ch 'd' :: oneEntry) →
      ∃ f, decode (fun _ => 0) (new fun _ => 0) (ch 'd' :: oneEntry) = .fault f) :=
  decode_inBounds_iff (fun _ => 0) (fun _ => 0) oneEntry (by decide)

/-- The input `d18446744073709551615:a`. -/
def hugeLength : Bytes := ch 'd' :: (Decimal.text (2 ^ 64 - 1) ++ [ch ':', ch 'a'])

/-- **Hostile inputs.** The input `d` has no terminator, `d0:` ends with an empty string, and in
`hugeLength` the sum of the length and the cursor wraps. -/
theorem not_inBounds_hostile :
    ¬ InBounds (fun _ => 0) (fun _ => 0) [ch 'd'] ∧
    ¬ InBounds (fun _ => 0) (fun _ => 0) [ch 'd', ch '0', ch ':'] ∧
    ¬ InBounds (fun _ => 0) (fun _ => 0) hugeLength := by
  have hfault : ∀ {data : Bytes} {f : Fault},
      decode (fun _ => 0) (new fun _ => 0) data = .fault f →
        ¬ InBounds (fun _ => 0) (fun _ => 0) data := by
    rintro data f hf ⟨r, pos, hr, -⟩
    rw [hf] at hr
    cases hr
  have h1 : decode (fun _ => 0) (new fun _ => 0) [ch 'd'] = .fault .assertion := by rfl
  have h2 : decode (fun _ => 0) (new fun _ => 0) [ch 'd', ch '0', ch ':'] = .fault .assertion := by rfl
  have h3 : decode (fun _ => 0) (new fun _ => 0) hugeLength =
      .fault .overrun := by rfl
  exact ⟨hfault h1, hfault h2, hfault h3⟩

end Bencode

end CTorrent
