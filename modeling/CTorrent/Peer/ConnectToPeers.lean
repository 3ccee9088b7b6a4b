import CTorrent.Meta.InfoHash
import CTorrent.Peer.Peer

/-!
# `Torrent::connectToPeers`: the peers of a tracker's reply

A reply lists the peers under `peers`, either as one string of six bytes a peer or as a list of
dictionaries. Both are decoded by `Bencode::decode` and handed to `connectToPeers`. An address in
`m_peers` and `m_blacklisted` is the number that the four bytes are in little-endian order. What a
connection is started with is kept in `started`.

* `ip2str`, `str2ip`, `rawConnectPeers`, `rawConnectPeer`, `connectToPeers`;
* `PeerInfo`, `compactForm`, `listForm`: a list of peers in the two forms; `Reply`;
* `connectToPeers_of_ne_string`: `connectToPeers` does nothing with a decoded value that is not a
  string, since `port` is cast to `int64_t` and the decoder returns only `uint64_t`;
* `connectToPeers_compactForm`, `started_compactForm`: what it does with the compact form;
* `sameEffect_iff`: when the two forms have the same effect.
-/

namespace CTorrent

/-! ### Addresses -/

/-- `ip2str`. -/
def ip2str (ip : UInt32) : Bytes :=
  Decimal.text (ip &&& 255).toNat ++ ch '.' :: Decimal.text ((ip >>> 8) &&& 255).toNat ++
    ch '.' :: Decimal.text ((ip >>> 16) &&& 255).toNat ++ ch '.' :: Decimal.text (ip >>> 24).toNat

/-- `str2ip`, which takes the first four characters. `past` is what stands behind the text, from
its terminator on. -/
def str2ip (past : ℕ → UInt8) (ip : Bytes) : UInt32 :=
  let c := byteAt (ip ++ (List.range 4).map past)
  ((c 0).toUInt32 <<< 24) ||| ((c 1).toUInt32 <<< 16) ||| ((c 2).toUInt32 <<< 8) |||
    (c 3).toUInt32

/-! ### `connectToPeers` -/

namespace Any

/-- `boost::any_cast<std::string>`; `none` where it throws `bad_any_cast`. -/
def string? : Any → Option Bytes
  | .string s => some s
  | _ => none

/-- `boost::any_cast<int64_t>`. -/
def int64? : Any → Option Int64
  | .int64 i => some i
  | _ => none

/-- `boost::any_cast<Dictionary>`. -/
def dictionary? : Any → Option Dictionary
  | .dictionary d => some d
  | _ => none

end Any

/-- A connection that was started: what `setId` and `Peer::connect` were given. -/
structure Attempt where
  id : Bytes := []
  ip : Bytes
  port : Bytes
  deriving DecidableEq

/-- A torrent, the connections it has started, and the lines it has logged. -/
structure Dialler where
  torrent : Torrent
  started : List Attempt := []
  log : List String := []

namespace Dialler

variable (past : ℕ → UInt8)

/-- `peer->connect(..)` and `m_blacklisted.insert(ip)`. -/
def start (s : Dialler) (ip : UInt32) (a : Attempt) : Dialler :=
  { s with
    torrent := { s.torrent with blacklisted := ip :: s.torrent.blacklisted }
    started := s.started ++ [a] }

/-- A pass of the loop of `rawConnectPeers`, on the record at `i`. -/
def rawConnectRecord (memory : Bytes) (s : Dialler) (i : ℕ) : Dialler :=
  let ip := readLE32 memory i
  if ip = 0 ∨ ip ∈ s.torrent.blacklisted then s
  else if (s.torrent.findPeer ip).isSome then s
  else s.start ip { ip := ip2str ip, port := Decimal.text (readBE16 memory (i + 4)).toNat }

/-- `rawConnectPeers`. `past` is what stands behind the peers: a last record of less than six bytes
reads it. -/
def rawConnectPeers (s : Dialler) (peers : Bytes) : Dialler :=
  ((List.range ((peers.length + 5) / 6)).map (6 * ·)).foldl
    (rawConnectRecord (peers ++ (List.range 5).map past)) s

/-- `rawConnectPeer`; `none` where a cast throws. -/
def rawConnectPeer (s : Dialler) (peerInfo : Dictionary) : Option Dialler := do
  let peerId ← (peerInfo.at_ (key "peer id")).string?
  let ip ← (peerInfo.at_ (key "ip")).string?
  let port ← (peerInfo.at_ (key "port")).int64?
  let strip := str2ip past ip
  if strip ∈ s.torrent.blacklisted ∨ (s.torrent.findPeer strip).isSome then some s
  else some (s.start strip { id := peerId, ip := ip, port := intText port.toInt })

/-- The loop over the dictionaries in its `try`: an exception ends it and is logged. -/
def connectAll (type : String) : Dialler → VectorType → Dialler
  | s, [] => s
  | s, any :: peers =>
      match any.dictionary?.bind (rawConnectPeer past s) with
      | none => { s with log := s.log ++ ["connectToPeers(): non-compat " ++ type ++
          "-type, exception: boost::bad_any_cast: failed conversion using boost::any_cast"] }
      | some s => connectAll type s peers

/-- `connectToPeers`. -/
def connectToPeers (s : Dialler) (peers : Any) : Dialler :=
  if s.torrent.isFinished then s
  else
    match peers with
    | .string peers => rawConnectPeers past s peers
    | .dictionary peers => connectAll past "Dictionary" s (peers.map Prod.snd)
    | .vector peers => connectAll past "Vector" s peers
    | _ => s

end Dialler

/-! ### The two forms of a list of peers -/

/-- A peer of a tracker's reply. -/
structure PeerInfo where
  id : Bytes
  ip : UInt32
  port : UInt16

namespace PeerInfo

/-- The six bytes of a peer: the address and the port in network order. -/
def record (p : PeerInfo) : Bytes := writeLE32 p.ip ++ writeBE16 p.port

/-- The dictionary of a peer. -/
def dict (p : PeerInfo) : Value :=
  .dict [(key "ip", .str (ip2str p.ip)), (key "peer id", .str p.id), (key "port", .int p.port.toNat)]

end PeerInfo

/-- The peers as one string. -/
def compactForm (l : List PeerInfo) : Value := .str (l.flatMap PeerInfo.record)

/-- The peers as a list of dictionaries. -/
def listForm (l : List PeerInfo) : Value := .list (l.map PeerInfo.dict)

/-- A tracker's reply: a canonical dictionary without an empty dictionary, which has `v` under
`peers`, and what follows it. -/
structure Reply (v : Value) where
  pairs : List (Bytes × Value)
  rest : Bytes
  peers : (key "peers", v) ∈ pairs
  canonical : Value.Canonical (.dict pairs)
  noEmptyDict : Value.NoEmptyDict (.dict pairs)
  length_lt : (Value.sentence (.dict pairs) ++ rest).length < 2 ^ 64

namespace Reply

variable {v : Value}

/-- The text of the reply. -/
def bytes (r : Reply v) : Bytes := Value.sentence (.dict r.pairs) ++ r.rest

/-- The reply in which `peers` is the only key. -/
def only (v : Value) (hc : Value.Canonical v) (hn : Value.NoEmptyDict v)
    (hlen : (Value.sentence (.dict [(key "peers", v)])).length < 2 ^ 64) : Reply v where
  pairs := [(key "peers", v)]
  rest := []
  peers := List.mem_singleton_self _
  canonical := ⟨⟨List.pairwise_singleton _ _, by simp [key]⟩, hc, trivial⟩
  noEmptyDict := ⟨by simp, hn, trivial⟩
  length_lt := by simpa using hlen

/-- `Bencode::decode` yields the dictionary from the reply. -/
def Yields (junk : ℕ → UInt64) (fresh : ℕ → UInt8) (r : Reply v) (d : Dictionary) : Prop :=
  ∃ object pos, Bencode.decode junk (Bencode.new fresh) r.bytes = .ok (d, object) pos

/-- The decoder yields a dictionary from every reply, with its view of the peers in it. -/
theorem exists_yields (junk : ℕ → UInt64) (fresh : ℕ → UInt8) (r : Reply v) :
    ∃ d, r.Yields junk fresh d ∧ d.at_ (key "peers") = Value.toAny v := by
  have hdecode := Bencode.decode_sentence junk fresh r.canonical r.noEmptyDict r.rest r.length_lt
  have hc := r.canonical
  rw [Value.Canonical, Value.All] at hc
  exact ⟨_, ⟨_, _, hdecode⟩, at_toPairs hc.1.1 r.peers⟩

end Reply

theorem canonical_compactForm (l : List PeerInfo) :
    Value.Canonical (compactForm l) ∧ Value.NoEmptyDict (compactForm l) :=
  ⟨trivial, Value.noConfusion⟩

theorem canonical_dict (p : PeerInfo) :
    Value.Canonical p.dict ∧ Value.NoEmptyDict p.dict := by
  have hport : p.port.toNat < 65536 := p.port.toNat_lt
  have hkeys : ([key "ip", key "peer id", key "port"]).Pairwise (· < ·) := by decide
  constructor
  · exact ⟨⟨hkeys, by simp [key]⟩, trivial, trivial, ⟨by omega, by omega⟩, trivial⟩
  · exact ⟨by simp, Value.noConfusion, Value.noConfusion, Value.noConfusion, trivial⟩

theorem canonical_listForm (l : List PeerInfo) :
    Value.Canonical (listForm l) ∧ Value.NoEmptyDict (listForm l) := by
  suffices h : Value.AllList Value.CanonicalAt (l.map PeerInfo.dict) ∧
      Value.AllList (fun w => w ≠ .dict []) (l.map PeerInfo.dict) from
    ⟨⟨trivial, h.1⟩, ⟨Value.noConfusion, h.2⟩⟩
  induction l with
  | nil => exact ⟨trivial, trivial⟩
  | cons p l ih => exact ⟨⟨(canonical_dict p).1, ih.1⟩, ⟨(canonical_dict p).2, ih.2⟩⟩

/-! ### What the list form does -/

/-- The decoder returns no `int64_t`. -/
theorem int64?_toAny (v : Value) : (Value.toAny v).int64? = none := by
  cases v <;> rw [Value.toAny] <;> rfl

theorem int64?_at_toPairs (d : List (Bytes × Value)) (k : Bytes) :
    (Dictionary.at_ (Value.toPairs d) k).int64? = none := by
  induction d with
  | nil => rfl
  | cons p d ih =>
    obtain ⟨k', v⟩ := p
    by_cases hk : k' = k
    · simp only [Value.toPairs, Dictionary.at_, Dictionary.find?, if_pos hk, Option.getD_some]
      exact int64?_toAny v
    · simp only [Value.toPairs, Dictionary.at_, Dictionary.find?, if_neg hk] at ih ⊢
      exact ih

namespace Dialler

variable (past : ℕ → UInt8)

/-- On a dictionary from the decoder a cast throws: at the latest the cast of `port`. -/
theorem rawConnectPeer_toPairs (s : Dialler) (d : List (Bytes × Value)) :
    rawConnectPeer past s (Value.toPairs d) = none := by
  simp [rawConnectPeer, int64?_at_toPairs]

/-- The first element ends the loop. -/
theorem connectAll_toAny (s : Dialler) (type : String) (v : Value) (peers : VectorType) :
    (connectAll past type s (Value.toAny v :: peers)).torrent = s.torrent ∧
      (connectAll past type s (Value.toAny v :: peers)).started = s.started := by
  have hnone : (Value.toAny v).dictionary?.bind (rawConnectPeer past s) = none := by
    cases v with
    | dict d =>
      rw [Value.toAny]
      exact rawConnectPeer_toPairs past s d
    | _ =>
      rw [Value.toAny]
      rfl
  rw [connectAll, hnone]
  exact ⟨rfl, rfl⟩

/-- **What is not a string connects to nobody.** For every value the decoder returns that is not a
string, `connectToPeers` starts no connection and leaves the torrent as it is. -/
theorem connectToPeers_of_ne_string (s : Dialler) {v : Value} (hv : ∀ peers, v ≠ .str peers) :
    (connectToPeers past s (Value.toAny v)).torrent = s.torrent ∧
      (connectToPeers past s (Value.toAny v)).started = s.started := by
  unfold connectToPeers
  split_ifs
  · exact ⟨rfl, rfl⟩
  · cases v with
    | int z => exact ⟨rfl, rfl⟩
    | str peers => exact absurd rfl (hv peers)
    | list l =>
      cases l with
      | nil => exact ⟨rfl, rfl⟩
      | cons v l => exact connectAll_toAny past s _ v _
    | dict d =>
      cases d with
      | nil => exact ⟨rfl, rfl⟩
      | cons p d => exact connectAll_toAny past s _ p.2 _

end Dialler

/-! ### What the compact form does -/

theorem length_record (p : PeerInfo) : p.record.length = 6 := rfl

/-- The address and the port of a record are read back. -/
theorem read_record (p : PeerInfo) (s t : Bytes) :
    readLE32 (s ++ p.record ++ t) s.length = p.ip ∧
      readBE16 (s ++ p.record ++ t) (s.length + 4) = p.port.toUInt32 := by
  have hip := readLE32_writeLE32 p.ip s (writeBE16 p.port ++ t)
  have hport := readBE16_writeBE16 p.port (s ++ writeLE32 p.ip) t
  rw [List.length_append, length_writeLE32] at hport
  rw [PeerInfo.record]
  simp only [List.append_assoc] at hip hport ⊢
  exact ⟨hip, hport⟩

namespace Dialler

variable (past : ℕ → UInt8)

/-- The connection `rawConnectPeers` starts to a peer. -/
def attempt (p : PeerInfo) : Attempt := { ip := ip2str p.ip, port := Decimal.text p.port.toNat }

/-- The address is neither blacklisted nor connected. -/
def Unknown (s : Dialler) (p : PeerInfo) : Prop :=
  p.ip ∉ s.torrent.blacklisted ∧ s.torrent.findPeer p.ip = none

instance (s : Dialler) (p : PeerInfo) : Decidable (s.Unknown p) :=
  inferInstanceAs (Decidable (_ ∧ _))

/-- What stands at an offset, taken as a record. -/
def recordAt (bytes : Bytes) (i : ℕ) : PeerInfo :=
  { id := [], ip := readLE32 bytes i, port := (readBE16 bytes (i + 4)).toUInt16 }

/-- What `rawConnectPeers` does with a peer. -/
def dial (s : Dialler) (p : PeerInfo) : Dialler :=
  if p.ip ≠ 0 ∧ s.Unknown p then s.start p.ip (attempt p) else s

/-- A pass dials what it takes for a record. -/
theorem rawConnectRecord_eq_dial (memory : Bytes) (s : Dialler) (i : ℕ) :
    rawConnectRecord memory s i = s.dial (recordAt memory i) := by
  have hport : (recordAt memory i).port.toNat = (readBE16 memory (i + 4)).toNat := by
    rw [recordAt, UInt32.toNat_toUInt16, Nat.mod_eq_of_lt (readBE16_lt _ _)]
  have hip : (recordAt memory i).ip = readLE32 memory i := rfl
  simp only [rawConnectRecord, dial, attempt, Unknown, hport, hip]
  by_cases h0 : readLE32 memory i = 0
  · simp [h0]
  · by_cases hb : readLE32 memory i ∈ s.torrent.blacklisted
    · simp [hb]
    · by_cases hf : s.torrent.findPeer (readLE32 memory i) = none
      · simp [h0, hb, hf]
      · simp [h0, hb, hf, Option.isSome_iff_ne_none]

theorem rawConnectRecord_eq (s : Dialler) (p : PeerInfo) (before behind : Bytes) :
    rawConnectRecord (before ++ p.record ++ behind) s before.length = s.dial p := by
  obtain ⟨hip, hport⟩ := read_record p before behind
  have hrecord : recordAt (before ++ p.record ++ behind) before.length = { p with id := [] } := by
    rw [recordAt, hip, hport, UInt16.toUInt16_toUInt32]
  rw [rawConnectRecord_eq_dial, hrecord]
  rfl

/-- The loop over the records of `l`, which stand behind `before`. -/
theorem foldl_rawConnectRecord (l : List PeerInfo) : ∀ (s : Dialler) (before behind : Bytes) (k : ℕ),
    before.length = 6 * k →
    ((List.range' k l.length).map (6 * ·)).foldl
      (rawConnectRecord (before ++ l.flatMap PeerInfo.record ++ behind)) s = l.foldl dial s := by
  induction l with
  | nil => exact fun _ _ _ _ _ => rfl
  | cons p l ih =>
    intro s before behind k hk
    have hmem : before ++ (p :: l).flatMap PeerInfo.record ++ behind =
        before ++ p.record ++ l.flatMap PeerInfo.record ++ behind := by
      rw [List.flatMap_cons, ← List.append_assoc before]
    rw [List.length_cons, List.range'_succ, List.map_cons, List.foldl_cons, List.foldl_cons, ← hk,
      hmem, List.append_assoc (before ++ p.record), rawConnectRecord_eq,
      ← List.append_assoc (before ++ p.record)]
    exact ih _ _ _ _ (by rw [List.length_append, length_record, hk]; omega)

/-- **The compact form.** `connectToPeers` dials the peers one by one, unless it is finished. -/
theorem connectToPeers_compactForm (s : Dialler) (l : List PeerInfo) :
    connectToPeers past s (Value.toAny (compactForm l)) =
      if s.torrent.isFinished then s else l.foldl dial s := by
  have hlen : (l.flatMap PeerInfo.record).length = 6 * l.length := by
    induction l with
    | nil => rfl
    | cons p l ih =>
      rw [List.flatMap_cons, List.length_append, length_record, ih, List.length_cons]
      omega
  rw [compactForm, Value.toAny, connectToPeers]
  congr 1
  show rawConnectPeers past s (l.flatMap PeerInfo.record) = l.foldl dial s
  rw [rawConnectPeers, hlen, show (6 * l.length + 5) / 6 = l.length by omega,
    List.range_eq_range' (n := l.length)]
  exact foldl_rawConnectRecord l s [] _ 0 rfl

@[simp] theorem findPeer_dial (s : Dialler) (p : PeerInfo) (ip : UInt32) :
    (s.dial p).torrent.findPeer ip = s.torrent.findPeer ip := by
  unfold dial
  split_ifs <;> rfl

theorem mem_blacklisted_dial (s : Dialler) (p : PeerInfo) (ip : UInt32) :
    ip ∈ (s.dial p).torrent.blacklisted ↔ ip ∈ s.torrent.blacklisted ∨
      p.ip = ip ∧ ip ≠ 0 ∧ s.torrent.findPeer ip = none := by
  unfold dial Unknown
  split_ifs with h
  · simp only [start, List.mem_cons]
    constructor
    · rintro (rfl | hb)
      · exact .inr ⟨rfl, h.1, h.2.2⟩
      · exact .inl hb
    · rintro (hb | ⟨rfl, -⟩)
      · exact .inr hb
      · exact .inl rfl
  · refine ⟨.inl, ?_⟩
    rintro (hb | ⟨rfl, h0, hf⟩)
    · exact hb
    · by_contra hb
      exact h ⟨h0, hb, hf⟩

/-- The blacklist gains the listed addresses that are not connected. -/
theorem mem_blacklisted_foldl_dial (l : List PeerInfo) (s : Dialler) (ip : UInt32) :
    ip ∈ (l.foldl dial s).torrent.blacklisted ↔ ip ∈ s.torrent.blacklisted ∨
      (∃ p ∈ l, p.ip = ip) ∧ ip ≠ 0 ∧ s.torrent.findPeer ip = none := by
  induction l generalizing s with
  | nil => simp
  | cons p l ih =>
    rw [List.foldl_cons, ih, mem_blacklisted_dial, findPeer_dial]
    simp only [List.mem_cons, exists_eq_or_imp]
    tauto

theorem foldl_dial_of_known {l : List PeerInfo} {s : Dialler} (h : ∀ p ∈ l, ¬ s.Unknown p) :
    l.foldl dial s = s := by
  induction l with
  | nil => rfl
  | cons p l ih =>
    have hp : s.dial p = s := if_neg fun hd => h p List.mem_cons_self hd.2
    rw [List.foldl_cons, hp]
    exact ih fun q hq => h q (List.mem_cons_of_mem p hq)

theorem unknown_start {s : Dialler} {p : PeerInfo} {ip : UInt32} (a : Attempt) (h : p.ip ≠ ip) :
    (s.start ip a).Unknown p ↔ s.Unknown p := by
  unfold Unknown
  rw [show (s.start ip a).torrent.blacklisted = ip :: s.torrent.blacklisted from rfl,
    List.mem_cons, or_iff_right h]
  exact Iff.rfl

/-- A peer that was dialled is known from then on, so with distinct addresses each is dialled by
what was known at the start. -/
theorem started_foldl_dial {l : List PeerInfo} {s : Dialler} (h0 : ∀ p ∈ l, p.ip ≠ 0)
    (hd : (l.map PeerInfo.ip).Nodup) :
    (l.foldl dial s).started = s.started ++ (l.filter (s.Unknown ·)).map attempt := by
  induction l generalizing s with
  | nil => simp
  | cons p l ih =>
    rw [List.map_cons, List.nodup_cons] at hd
    have hl := fun q hq => h0 q (List.mem_cons_of_mem p hq)
    by_cases hp : s.Unknown p
    · have hdial : s.dial p = s.start p.ip (attempt p) := if_pos ⟨h0 p List.mem_cons_self, hp⟩
      -- the address of `p` is now known, but no other peer of the list has it
      have hrest : l.filter ((s.start p.ip (attempt p)).Unknown ·) = l.filter (s.Unknown ·) := by
        refine List.filter_congr fun q hq => ?_
        have hne : q.ip ≠ p.ip := fun he => hd.1 (he ▸ List.mem_map_of_mem hq)
        exact decide_eq_decide.2 (unknown_start _ hne)
      rw [List.foldl_cons, hdial, ih hl hd.2, hrest, List.filter_cons_of_pos (by simpa using hp)]
      simp [start]
    · rw [List.foldl_cons, show s.dial p = s from if_neg fun h => hp h.2, ih hl hd.2,
        List.filter_cons_of_neg (by simpa using hp)]

/-- **One connection for each unknown peer.** Where the addresses are distinct and not zero and the
torrent is not finished, the compact form starts a connection to each peer of the list that is
unknown, in the order of the list, and to nobody else. -/
theorem started_compactForm {l : List PeerInfo} {s : Dialler}
    (hfinished : s.torrent.isFinished = false) (h0 : ∀ p ∈ l, p.ip ≠ 0)
    (hd : (l.map PeerInfo.ip).Nodup) :
    (connectToPeers past s (Value.toAny (compactForm l))).started =
      s.started ++ (l.filter (s.Unknown ·)).map attempt := by
  rw [connectToPeers_compactForm, if_neg (by rw [hfinished]; exact Bool.false_ne_true),
    started_foldl_dial h0 hd]

/-! ### When the two forms have the same effect -/

/-- The same connections have been started, by address and port, and the same addresses are
blacklisted. -/
structure SameEffect (s s' : Dialler) : Prop where
  started : ∀ ip port, (∃ a ∈ s.started, a.ip = ip ∧ a.port = port) ↔
    ∃ a ∈ s'.started, a.ip = ip ∧ a.port = port
  blacklisted : ∀ ip, ip ∈ s.torrent.blacklisted ↔ ip ∈ s'.torrent.blacklisted

theorem SameEffect.of_eq {s s' : Dialler} (hb : s.torrent.blacklisted = s'.torrent.blacklisted)
    (hs : s.started = s'.started) : SameEffect s s' := by
  constructor
  · rw [hs]
    exact fun _ _ => Iff.rfl
  · rw [hb]
    exact fun _ => Iff.rfl

/-- The forms have the same effect if and only if the compact form has none. -/
theorem sameEffect_forms_iff {s : Dialler} {l : List PeerInfo} (h0 : ∀ p ∈ l, p.ip ≠ 0) :
    SameEffect (connectToPeers past s (Value.toAny (compactForm l)))
        (connectToPeers past s (Value.toAny (listForm l))) ↔
      s.torrent.isFinished = true ∨ ∀ p ∈ l, ¬ s.Unknown p := by
  obtain ⟨ht, hs⟩ := connectToPeers_of_ne_string past s (v := listForm l) fun _ => Value.noConfusion
  rw [connectToPeers_compactForm]
  constructor
  · intro h
    by_cases hfin : s.torrent.isFinished = true
    · exact .inl hfin
    · rw [if_neg hfin] at h
      refine .inr fun p hp hu => hu.1 ?_
      have hmem : p.ip ∈ (l.foldl dial s).torrent.blacklisted :=
        (mem_blacklisted_foldl_dial l s p.ip).2 (.inr ⟨⟨p, hp, rfl⟩, h0 p hp, hu.2⟩)
      rw [← ht]
      exact (h.blacklisted p.ip).1 hmem
  · intro h
    have heq : (if s.torrent.isFinished then s else l.foldl dial s) = s := by
      rcases h with hfin | hknown
      · rw [if_pos hfin]
      · rw [foldl_dial_of_known hknown, ite_self]
    rw [heq]
    exact .of_eq (by rw [ht]) hs.symm

end Dialler

open Dialler

/-- **The two forms of a tracker's reply.** For every torrent and every list of peers with non-zero
addresses, the decoder yields the peers from a reply in the one form and from one in the other, and
`connectToPeers` has the same effect on them exactly if the torrent is finished or every listed
address is already blacklisted or connected. -/
theorem sameEffect_iff (junk : ℕ → UInt64) (fresh past : ℕ → UInt8) (t : Torrent)
    {l : List PeerInfo} (h0 : ∀ p ∈ l, p.ip ≠ 0) (r : Reply (compactForm l))
    (r' : Reply (listForm l)) :
    ∃ d d', r.Yields junk fresh d ∧ r'.Yields junk fresh d' ∧
      (SameEffect (connectToPeers past { torrent := t } (d.at_ (key "peers")))
          (connectToPeers past { torrent := t } (d'.at_ (key "peers"))) ↔
        t.isFinished = true ∨
          ∀ p ∈ l, p.ip ∈ t.blacklisted ∨ (t.findPeer p.ip).isSome = true) := by
  obtain ⟨d, hd, hpeers⟩ := r.exists_yields junk fresh
  obtain ⟨d', hd', hpeers'⟩ := r'.exists_yields junk fresh
  refine ⟨d, d', hd, hd', ?_⟩
  have hknown : ∀ p : PeerInfo, ¬ Unknown { torrent := t } p ↔
      p.ip ∈ t.blacklisted ∨ (t.findPeer p.ip).isSome = true := by
    intro p
    rw [Unknown, Decidable.not_and_iff_not_or_not, not_not, Option.isSome_iff_ne_none]
  rw [hpeers, hpeers', sameEffect_forms_iff past h0]
  simp only [hknown]

/-- The peer 1.2.3.4:80. -/
def webPeer : PeerInfo := { id := key "-AA0001-000000000000", ip := 0x04030201, port := 80 }

/-- A reply that lists this peer in the compact form. -/
def compactReply : Reply (compactForm [webPeer]) :=
  .only _ (canonical_compactForm _).1 (canonical_compactForm _).2 (by decide +kernel)

/-- A reply that lists this peer as a dictionary. -/
def listReply : Reply (listForm [webPeer]) :=
  .only _ (canonical_listForm _).1 (canonical_listForm _).2 (by decide +kernel)

theorem sameEffect_iff_webPeer :
    (∀ p ∈ [webPeer], p.ip ≠ 0) ∧
    ∃ d d', compactReply.Yields (fun _ => 0) (fun _ => 0) d ∧
      listReply.Yields (fun _ => 0) (fun _ => 0) d' ∧
      (SameEffect (connectToPeers (fun _ => 0) { torrent := onePiece 2 } (d.at_ (key "peers")))
          (connectToPeers (fun _ => 0) { torrent := onePiece 2 } (d'.at_ (key "peers"))) ↔
        (onePiece 2).isFinished = true ∨ ∀ p ∈ [webPeer], p.ip ∈ (onePiece 2).blacklisted ∨
          ((onePiece 2).findPeer p.ip).isSome = true) := by
  have h0 : ∀ p ∈ [webPeer], p.ip ≠ 0 := by decide
  exact ⟨h0, sameEffect_iff _ _ _ _ h0 compactReply listReply⟩

/-- Of an unknown peer, the compact form starts a connection and the list form does not. -/
theorem not_sameEffect_webPeer :
    ∃ d d', compactReply.Yields (fun _ => 0) (fun _ => 0) d ∧
      listReply.Yields (fun _ => 0) (fun _ => 0) d' ∧
      ¬ SameEffect (connectToPeers (fun _ => 0) { torrent := onePiece 2 } (d.at_ (key "peers")))
        (connectToPeers (fun _ => 0) { torrent := onePiece 2 } (d'.at_ (key "peers"))) := by
  obtain ⟨d, hd, hpeers⟩ := compactReply.exists_yields (fun _ => 0) fun _ => 0
  obtain ⟨d', hd', hpeers'⟩ := listReply.exists_yields (fun _ => 0) fun _ => 0
  refine ⟨d, d', hd, hd', ?_⟩
  rw [hpeers, hpeers', sameEffect_forms_iff _ (by decide)]
  rintro (hfin | hknown)
  · exact absurd hfin (by decide +kernel)
  · exact hknown webPeer List.mem_cons_self (by decide +kernel)

end CTorrent
