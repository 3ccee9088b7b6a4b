import CTorrent.Bencode.Grammar
import CTorrent.Meta.TorrentMeta

/-!
# The info hash

`internalParse` hashes a re-encoding of the `info` value. The decoder reads every integer as
unsigned, so the re-encoding of what it makes of a value (`toAny`) is the sentence of the value
exactly if the value has no negative integer (`encoding_toAny_append`). An empty dictionary sends
the decoder past its end: the key is looked for in the bytes behind it.

* `processedBytes`: what is hashed when an input is parsed;
* `processedBytes_iff`: on canonical metainfo without an empty dictionary this is the sentence of
  the `info` value if and only if there is no negative integer in it.
-/

namespace CTorrent

open Value

/-! ### The decoded dictionary -/

theorem find?_toPairs {d : List (Bytes × Value)} (hs : (d.map Prod.fst).Pairwise (· < ·))
    {k : Bytes} {v : Value} (h : (k, v) ∈ d) :
    Dictionary.find? (toPairs d) k = some (toAny v) := by
  induction d with
  | nil => cases h
  | cons p d ih =>
    obtain ⟨k', v'⟩ := p
    rw [List.map_cons, List.pairwise_cons] at hs
    rw [toPairs, Dictionary.find?]
    rcases List.mem_cons.1 h with he | hd
    · obtain ⟨rfl, rfl⟩ := Prod.mk.inj he
      rw [if_pos rfl]
    · have hlt : k' < k := hs.1 k (List.mem_map_of_mem hd)
      have hne : k' ≠ k := fun he => List.lt_irrefl _ (he ▸ hlt)
      rw [if_neg hne, ih hs.2 hd]

theorem count_toPairs {d : List (Bytes × Value)} (hs : (d.map Prod.fst).Pairwise (· < ·))
    {k : Bytes} {v : Value} (h : (k, v) ∈ d) : Dictionary.count (toPairs d) k = true := by
  rw [Dictionary.count, find?_toPairs hs h]
  rfl

theorem at_toPairs {d : List (Bytes × Value)} (hs : (d.map Prod.fst).Pairwise (· < ·))
    {k : Bytes} {v : Value} (h : (k, v) ∈ d) : Dictionary.at_ (toPairs d) k = toAny v := by
  rw [Dictionary.at_, find?_toPairs hs h]
  rfl

theorem allPairs_of_mem {P : Value → Prop} {d : List (Bytes × Value)} (hd : AllPairs P d)
    {k : Bytes} {v : Value} (h : (k, v) ∈ d) : All P v := by
  induction d with
  | nil => cases h
  | cons p d ih =>
    obtain ⟨k', v'⟩ := p
    rw [AllPairs] at hd
    rcases List.mem_cons.1 h with he | h
    · rw [(Prod.mk.inj he).2]
      exact hd.1
    · exact ih hd.2 h

/-! ### The re-encoding of a decoded value -/

/-- The re-encoded integer and the original one agree, also as beginnings of longer texts, if and
only if the number is not negative. -/
theorem intEncoding_toUint_append {z : ℤ} (h : CanonicalAt (.int z)) (s t : Bytes) :
    intEncoding (Decimal.text (toUint z).toNat) ++ s = intEncoding (intText z) ++ t ↔
      0 ≤ z ∧ s = t := by
  obtain ⟨hlo, hhi⟩ : -2 ^ 63 ≤ z ∧ z < 2 ^ 64 := h
  rcases Int.lt_or_le z 0 with hz | hz
  · obtain ⟨c, l, hcl, hc⟩ := Decimal.exists_cons_text (toUint z).toNat
    refine ⟨fun he => ?_, fun he => absurd he.1 (by omega)⟩
    -- the one text begins with a digit, the other with a minus sign
    rw [hcl, intText, if_pos hz] at he
    simp only [intEncoding, List.cons_append, List.cons.injEq, true_and] at he
    exact absurd he.1 (Bencode.ne_of_isDigit hc (by decide))
  · have hu : (toUint z).toNat = z.toNat := by
      rw [toUint, if_neg (by omega), UInt64.toNat_ofNat', Nat.mod_eq_of_lt (by omega)]
    rw [hu, intText, if_neg (by omega), List.append_cancel_left_eq]
    exact ⟨fun he => ⟨hz, he⟩, And.right⟩

mutual

/-- **Decoding and encoding again.** What the encoder makes of the decoded value is the sentence
of the value, also as beginnings of longer texts, if and only if no integer in it is negative. -/
theorem encoding_toAny_append : ∀ (v : Value), Canonical v → ∀ s t : Bytes,
    encoding (toAny v) ++ s = sentence v ++ t ↔ NonNegative v ∧ s = t
  | .int z, hc, s, t => by
      rw [toAny, encoding, sentence, intEncoding_toUint_append hc, NonNegative, All]
      exact and_congr_left fun _ => ⟨fun h _ he => Value.int.inj he ▸ h, fun h => h z rfl⟩
  | .str x, _, s, t => by
      rw [toAny, encoding, sentence, List.append_cancel_left_eq, NonNegative, All]
      exact ⟨fun h => ⟨fun _ he => Value.noConfusion he, h⟩, And.right⟩
  | .list l, hc, s, t => by
      rw [Canonical, All] at hc
      have ih := valuesEncoding_toAnys_append l hc.2 (ch 'e' :: s) (ch 'e' :: t)
      rw [toAny, encoding, sentence, NonNegative, All]
      simp only [List.cons_append, List.cons.injEq, true_and, List.append_assoc, List.nil_append]
        at ih ⊢
      rw [ih]
      exact ⟨fun h => ⟨⟨fun _ he => Value.noConfusion he, h.1⟩, h.2⟩, fun h => ⟨h.1.2, h.2⟩⟩
  | .dict d, hc, s, t => by
      rw [Canonical, All] at hc
      have ih := pairsEncoding_toPairs_append d hc.2 (ch 'e' :: s) (ch 'e' :: t)
      rw [toAny, encoding, sentence, NonNegative, All]
      simp only [List.cons_append, List.cons.injEq, true_and, List.append_assoc, List.nil_append]
        at ih ⊢
      rw [ih]
      exact ⟨fun h => ⟨⟨fun _ he => Value.noConfusion he, h.1⟩, h.2⟩, fun h => ⟨h.1.2, h.2⟩⟩

theorem valuesEncoding_toAnys_append : ∀ (l : List Value), AllList CanonicalAt l →
    ∀ s t : Bytes, valuesEncoding (toAnys l) ++ s = sentences l ++ t ↔
      AllList (fun w => ∀ z, w = int z → 0 ≤ z) l ∧ s = t
  | [], _, s, t => by
      rw [toAnys, valuesEncoding, sentences, AllList, true_and]
      rfl
  | v :: l, hc, s, t => by
      rw [AllList] at hc
      rw [toAnys, valuesEncoding, sentences, AllList, List.append_assoc, List.append_assoc,
        encoding_toAny_append v hc.1, valuesEncoding_toAnys_append l hc.2, and_assoc]
      rfl

theorem pairsEncoding_toPairs_append : ∀ (d : List (Bytes × Value)), AllPairs CanonicalAt d →
    ∀ s t : Bytes, pairsEncoding (toPairs d) ++ s = pairSentences d ++ t ↔
      AllPairs (fun w => ∀ z, w = int z → 0 ≤ z) d ∧ s = t
  | [], _, s, t => by
      rw [toPairs, pairsEncoding, pairSentences, AllPairs, true_and]
      rfl
  | (k, v) :: d, hc, s, t => by
      rw [AllPairs] at hc
      rw [toPairs, pairsEncoding, pairSentences, AllPairs]
      simp only [List.append_assoc]
      rw [List.append_cancel_left_eq, encoding_toAny_append v hc.1,
        pairsEncoding_toPairs_append d hc.2, and_assoc]
      rfl

end

theorem encoding_toAny_eq_iff {v : Value} (hc : Canonical v) :
    encoding (toAny v) = sentence v ↔ NonNegative v := by
  simpa using encoding_toAny_append v hc [] []

/-! ### The hashed bytes -/

section Processed

variable (sha1 : Bytes → Sha1sum) (fresh past : ℕ → UInt8) (junk : ℕ → UInt64)

/-- The bytes that are fed to `sha1.process_bytes` when `data` is parsed, if it comes to that. -/
def processedBytes (m : TorrentMeta) (data : Bytes) : Option Bytes :=
  match m.parse sha1 fresh past junk data with
  | .ok r _ => r.processed
  | _ => none

/-- Metainfo with an `announce` string and an `info` dictionary with `pieces` and `piece length`. -/
structure HasInfo (d i : List (Bytes × Value)) : Prop where
  announce : ∃ s, (key "announce", .str s) ∈ d
  info : (key "info", .dict i) ∈ d
  pieces : ∃ v, (key "pieces", v) ∈ i
  pieceLength : ∃ v, (key "piece length", v) ∈ i

theorem canonical_info {d i : List (Bytes × Value)} (hc : Canonical (.dict d))
    (hi : HasInfo d i) : Canonical (.dict i) := by
  rw [Canonical, All] at hc
  exact allPairs_of_mem hc.2 hi.info

/-- On canonical metainfo in which no dictionary is empty, the encoding of the decoded `info` value
is hashed. -/
theorem processedBytes_sentence (m : TorrentMeta) {d i : List (Bytes × Value)}
    (hc : Canonical (.dict d)) (hi : HasInfo d i) (hlen : (sentence (.dict d)).length < 2 ^ 64)
    (hn : NoEmptyDict (.dict d)) :
    processedBytes sha1 fresh past junk m (sentence (.dict d)) =
      some (encoding (toAny (.dict i))) := by
  have hdecode := Bencode.decode_sentence junk fresh hc hn [] (by rwa [List.append_nil])
  rw [List.append_nil] at hdecode
  have hci := canonical_info hc hi
  obtain ⟨⟨a, ha⟩, hinfo, ⟨p, hp⟩, ⟨l, hl⟩⟩ := hi
  rw [Canonical, All] at hc hci
  -- what `internalParse` finds in the decoded dictionary
  have hcast : castDictionary (Dictionary.at_ (toPairs d) (key "info")) = toPairs i := by
    rw [at_toPairs hc.1.1 hinfo]
    rfl
  obtain ⟨r, hr, hproc⟩ := TorrentMeta.internalParse_processed sha1 fresh past (m := m)
    ⟨DataBuffer.setData ((sentence (.dict d)).drop 1), (sentence (.dict d)).length - 1⟩
    (count_toPairs hc.1.1 ha) hcast (count_toPairs hci.1.1 hp) (count_toPairs hci.1.1 hl)
    (by simp) (by simp [sentence])
  have hne : List.isEmpty (toPairs d) = false := by
    rw [List.isEmpty_eq_false_iff]
    exact toPairs_ne_nil (List.ne_nil_of_mem ha)
  rw [processedBytes, TorrentMeta.parse, hdecode]
  simp only [Outcome.bind_ok, hne, hr, Bool.false_eq_true, if_false]
  rw [hproc, toAny]

/-- **Info-hash fidelity.** On canonical metainfo in which no dictionary is empty, what is hashed
is the sentence of the `info` value if and only if no integer in that value is negative. -/
theorem processedBytes_iff (m : TorrentMeta) {d i : List (Bytes × Value)}
    (hc : Canonical (.dict d)) (hi : HasInfo d i) (hlen : (sentence (.dict d)).length < 2 ^ 64)
    (hn : NoEmptyDict (.dict d)) :
    processedBytes sha1 fresh past junk m (sentence (.dict d)) = some (sentence (.dict i)) ↔
      NonNegative (.dict i) := by
  rw [processedBytes_sentence sha1 fresh past junk m hc hi hlen hn, Option.some.injEq,
    encoding_toAny_eq_iff (canonical_info hc hi)]

end Processed

/-- Metainfo around an `info` value. -/
def metainfoOf (i : List (Bytes × Value)) : List (Bytes × Value) :=
  [(key "announce", .str []), (key "info", .dict i)]

/-- An `info` value whose first pair has the key `a`. -/
def infoWith (v : Value) : List (Bytes × Value) :=
  [(key "a", v), (key "piece length", .int 1), (key "pieces", .str [])]

theorem hasInfo_infoWith (v : Value) : HasInfo (metainfoOf (infoWith v)) (infoWith v) :=
  ⟨⟨[], List.mem_cons_self⟩, List.mem_cons_of_mem _ List.mem_cons_self,
    ⟨.str [], by simp [infoWith]⟩, ⟨.int 1, by simp [infoWith]⟩⟩

theorem canonical_infoWith {v : Value} (hv : Canonical v) :
    Canonical (.dict (metainfoOf (infoWith v))) := by
  rw [Canonical] at hv
  simp only [Canonical, metainfoOf, infoWith, All, AllPairs, CanonicalAt, hv, List.map_cons,
    List.map_nil, List.forall_mem_cons]
  decide

/-- The object before parsing, and zero for whatever is not initialised. -/
def processedZero (data : Bytes) : Option Bytes :=
  processedBytes (fun _ _ => 0) (fun _ => 0) (fun _ => 0) (fun _ => 0) { checkSum := fun _ => 0 } data

theorem processedBytes_iff_list : processedZero (sentence (.dict (metainfoOf (infoWith (.list []))))) =
      some (sentence (.dict (infoWith (.list [])))) ↔ NonNegative (.dict (infoWith (.list []))) := by
  refine processedBytes_iff _ _ _ _ _ (canonical_infoWith ?_) (hasInfo_infoWith _)
    (by decide +kernel) ?_
  · simp only [Canonical, All, AllList, CanonicalAt, and_self]
  · simp [NoEmptyDict, metainfoOf, infoWith, All, AllPairs, AllList]

/-- A negative integer and an empty dictionary in `info`: the one wraps, behind the other nothing
comes to be hashed. -/
theorem processedBytes_ne :
    (Canonical (.dict (metainfoOf (infoWith (.int (-1))))) ∧
      HasInfo (metainfoOf (infoWith (.int (-1)))) (infoWith (.int (-1))) ∧
      processedZero (sentence (.dict (metainfoOf (infoWith (.int (-1)))))) ≠
        some (sentence (.dict (infoWith (.int (-1)))))) ∧
    Canonical (.dict (metainfoOf (infoWith (.dict [])))) ∧
      HasInfo (metainfoOf (infoWith (.dict []))) (infoWith (.dict [])) ∧
      processedZero (sentence (.dict (metainfoOf (infoWith (.dict []))))) ≠
        some (sentence (.dict (infoWith (.dict [])))) := by
  refine ⟨⟨canonical_infoWith ?_, hasInfo_infoWith _, by decide +kernel⟩, canonical_infoWith ?_,
    hasInfo_infoWith _, by decide +kernel⟩
  · simp only [Canonical, All, CanonicalAt]
    omega
  · simp [Canonical, All, CanonicalAt, AllPairs]

-- an empty dictionary may be read past and `info` still be hashed as it stands
example : processedZero
    (key "d8:announce1:a4:infod12:piece lengthi1e6:pieces0:1:zldeleee5:leeee0:e") =
      some (key "d12:piece lengthi1e6:pieces0:1:zldeleee") := by decide +kernel

end CTorrent
