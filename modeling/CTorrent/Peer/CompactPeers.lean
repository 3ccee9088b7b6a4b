import CTorrent.Peer.ConnectToPeers

/-!
# `rawConnectPeers` on any buffer

The size of a compact list of peers is the tracker's choice. `Scan` is the loop of
`rawConnectPeers` with what it treats as records and the bytes that it reads; a record has six
bytes, and only the port of a peer that is dialled is read.

* `scan`, `scan_dialler`: the loop with its log, which is only a log;
* `records`: the complete records of a buffer;
* `started_dial`: of peers dialled in turn, the first with each unknown address is connected to;
* `ReadsRecords`: what is promised; `readsRecords_iff`: it holds where the size is a multiple of 6;
* `reads_lt_iff`: when the bytes behind the buffer are left alone.
-/

namespace CTorrent

namespace Dialler

variable (past : ℕ → UInt8)

/-- The state of the loop, the offsets that it has treated as records, and the bytes it has read. -/
structure Scan where
  dialler : Dialler
  treated : List ℕ := []
  reads : List ℕ := []

/-- A pass of the loop, on the record at `i`. -/
def scanRecord (memory : Bytes) (c : Scan) (i : ℕ) : Scan :=
  let ip := readLE32 memory i
  let c := { c with treated := c.treated ++ [i], reads := c.reads ++ [i, i + 1, i + 2, i + 3] }
  if ip = 0 ∨ ip ∈ c.dialler.torrent.blacklisted then c
  else if (c.dialler.torrent.findPeer ip).isSome then c
  else { c with
    dialler := c.dialler.start ip
      { ip := ip2str ip, port := Decimal.text (readBE16 memory (i + 4)).toNat }
    reads := c.reads ++ [i + 4, i + 5] }

/-- The loop of `rawConnectPeers`. -/
def scan (s : Dialler) (peers : Bytes) : Scan :=
  ((List.range ((peers.length + 5) / 6)).map (6 * ·)).foldl
    (scanRecord (peers ++ (List.range 5).map past)) { dialler := s }

/-- The complete records of a buffer. -/
def records (peers : Bytes) : List PeerInfo :=
  (List.range (peers.length / 6)).map fun k => recordAt peers (6 * k)

/-- What is promised: only the buffer is read, its complete records are treated and nothing else, the
first of them with each unknown address is connected to, and these addresses are blacklisted. -/
structure ReadsRecords (s : Dialler) (peers : Bytes) : Prop where
  reads : ∀ k ∈ (scan past s peers).reads, k < peers.length
  treated : (scan past s peers).treated = (List.range (peers.length / 6)).map (6 * ·)
  started : ∃ new : List PeerInfo,
    (rawConnectPeers past s peers).started = s.started ++ new.map attempt ∧
      (new.map PeerInfo.ip).Nodup ∧
      ∀ p, p ∈ new ↔ p.ip ≠ 0 ∧ s.Unknown p ∧
        (records peers).find? (fun q => q.ip = p.ip) = some p
  blacklisted : ∀ ip, ip ∈ (rawConnectPeers past s peers).torrent.blacklisted ↔
    ip ∈ s.torrent.blacklisted ∨
      ip ≠ 0 ∧ s.torrent.findPeer ip = none ∧ ∃ p ∈ records peers, p.ip = ip

/-! ### The log -/

variable {past} {memory : Bytes}

theorem scanRecord_dialler (c : Scan) (i : ℕ) :
    (scanRecord memory c i).dialler = rawConnectRecord memory c.dialler i := by
  rw [scanRecord, rawConnectRecord]
  dsimp only
  split_ifs <;> rfl

theorem scanRecord_treated (c : Scan) (i : ℕ) :
    (scanRecord memory c i).treated = c.treated ++ [i] := by
  rw [scanRecord]
  dsimp only
  split_ifs <;> rfl

theorem foldl_scanRecord (l : List ℕ) (c : Scan) :
    (l.foldl (scanRecord memory) c).dialler = l.foldl (rawConnectRecord memory) c.dialler ∧
      (l.foldl (scanRecord memory) c).treated = c.treated ++ l := by
  induction l generalizing c with
  | nil => exact ⟨rfl, (List.append_nil _).symm⟩
  | cons i l ih =>
    obtain ⟨hdialler, htreated⟩ := ih (scanRecord memory c i)
    rw [List.foldl_cons, List.foldl_cons, hdialler, htreated, scanRecord_dialler,
      scanRecord_treated, List.append_assoc]
    exact ⟨rfl, rfl⟩

/-- Apart from its log, the logged loop is the loop. -/
theorem scan_dialler (s : Dialler) (peers : Bytes) :
    (scan past s peers).dialler = rawConnectPeers past s peers := (foldl_scanRecord _ _).1

/-- The loop begins a record at every sixth byte. -/
theorem scan_treated (s : Dialler) (peers : Bytes) :
    (scan past s peers).treated = (List.range ((peers.length + 5) / 6)).map (6 * ·) :=
  (foldl_scanRecord _ _).2

/-! ### Records -/

/-- A complete record does not depend on what stands behind the buffer. -/
theorem recordAt_append {s t : Bytes} {i : ℕ} (h : i + 6 ≤ s.length) :
    recordAt (s ++ t) i = recordAt s i := by
  have hbyte : ∀ j < 6, byteAt (s ++ t) (i + j) = byteAt s (i + j) := fun j hj =>
    byteAt_append_left (by omega)
  have h0 := hbyte 0 (by decide)
  rw [Nat.add_zero] at h0
  simp only [recordAt, readLE32, readLE16, readBE16, Nat.add_assoc, Nat.reduceAdd, h0,
    hbyte 1 (by decide), hbyte 2 (by decide), hbyte 3 (by decide), hbyte 4 (by decide),
    hbyte 5 (by decide)]

/-- The passes over the complete records dial these. -/
theorem foldl_complete (s : Dialler) (peers behind : Bytes) :
    ((List.range (peers.length / 6)).map (6 * ·)).foldl (rawConnectRecord (peers ++ behind)) s =
      (records peers).foldl dial s := by
  rw [records, List.foldl_map, List.foldl_map]
  refine List.foldl_ext _ _ _ fun s' k hk => ?_
  have hlt := List.mem_range.1 hk
  rw [rawConnectRecord_eq_dial, recordAt_append (by omega)]

/-! ### Dialling the same address twice -/

theorem unknown_congr {s : Dialler} {p q : PeerInfo} (h : p.ip = q.ip) :
    s.Unknown p ↔ s.Unknown q := by rw [Unknown, Unknown, h]

/-- **One connection for each unknown address.** Of the peers of a list that are dialled in turn, the
first with each unknown address is connected to. -/
theorem started_dial (l : List PeerInfo) (s : Dialler) :
    ∃ new : List PeerInfo, (l.foldl dial s).started = s.started ++ new.map attempt ∧
      (new.map PeerInfo.ip).Nodup ∧
      ∀ p, p ∈ new ↔ p.ip ≠ 0 ∧ s.Unknown p ∧ l.find? (fun q => q.ip = p.ip) = some p := by
  induction l generalizing s with
  | nil => exact ⟨[], by simp, List.nodup_nil, by simp⟩
  | cons p l ih =>
    by_cases hp : p.ip ≠ 0 ∧ s.Unknown p
    · have hdial : s.dial p = s.start p.ip (attempt p) := if_pos hp
      obtain ⟨new, hstarted, hnodup, hmem⟩ := ih (s.start p.ip (attempt p))
      -- the address of `p` is known from now on
      have hknown : ∀ q ∈ new, p.ip ≠ q.ip := by
        intro q hq he
        exact ((hmem q).1 hq).2.1.1 (he ▸ List.mem_cons_self)
      refine ⟨p :: new, ?_, ?_, fun q => ?_⟩
      · rw [List.foldl_cons, hdial, hstarted]
        simp [start]
      · rw [List.map_cons, List.nodup_cons]
        refine ⟨fun hin => ?_, hnodup⟩
        obtain ⟨q, hq, he⟩ := List.mem_map.1 hin
        exact hknown q hq he.symm
      · by_cases he : p.ip = q.ip
        · have hfind : (p :: l).find? (fun r => r.ip = q.ip) = some p :=
            List.find?_cons_of_pos (by simpa using he)
          rw [hfind, List.mem_cons, Option.some.injEq, ← he, unknown_congr he.symm]
          constructor
          · rintro (rfl | hq)
            · exact ⟨hp.1, hp.2, rfl⟩
            · exact absurd he (hknown q hq)
          · exact fun h => Or.inl h.2.2.symm
        · have hfind : (p :: l).find? (fun r => r.ip = q.ip) = l.find? (fun r => r.ip = q.ip) :=
            List.find?_cons_of_neg (by simpa using he)
          rw [hfind, List.mem_cons, hmem, unknown_start _ (Ne.symm he)]
          exact or_iff_right fun h => he (congrArg PeerInfo.ip h.symm)
    · have hdial : s.dial p = s := if_neg hp
      obtain ⟨new, hstarted, hnodup, hmem⟩ := ih s
      refine ⟨new, by rw [List.foldl_cons, hdial, hstarted], hnodup, fun q => ?_⟩
      rw [hmem]
      by_cases he : p.ip = q.ip
      · have hno : ¬ (q.ip ≠ 0 ∧ s.Unknown q) := by rwa [← he, ← unknown_congr he]
        exact iff_of_false (fun h => hno ⟨h.1, h.2.1⟩) fun h => hno ⟨h.1, h.2.1⟩
      · rw [List.find?_cons_of_neg (by simpa using he)]

/-! ### What is read -/

/-- A pass reads the address, and the port if it dials. -/
theorem scanRecord_reads (c : Scan) (i : ℕ) :
    (scanRecord memory c i).reads = c.reads ++ [i, i + 1, i + 2, i + 3] ++
      if readLE32 memory i ≠ 0 ∧ c.dialler.Unknown (recordAt memory i) then [i + 4, i + 5]
      else [] := by
  have hunknown : c.dialler.Unknown (recordAt memory i) ↔
      readLE32 memory i ∉ c.dialler.torrent.blacklisted ∧
        c.dialler.torrent.findPeer (readLE32 memory i) = none := Iff.rfl
  simp only [scanRecord, hunknown]
  by_cases h0 : readLE32 memory i = 0
  · simp [h0]
  · by_cases hb : readLE32 memory i ∈ c.dialler.torrent.blacklisted
    · simp [hb]
    · by_cases hf : c.dialler.torrent.findPeer (readLE32 memory i) = none
      · simp [h0, hb, hf]
      · simp [h0, hb, hf, Option.isSome_iff_ne_none]

theorem mem_reads_foldl {l : List ℕ} {c : Scan} {k : ℕ}
    (h : k ∈ (l.foldl (scanRecord memory) c).reads) : k ∈ c.reads ∨ ∃ i ∈ l, k < i + 6 := by
  induction l generalizing c with
  | nil => exact Or.inl h
  | cons i l ih =>
    rcases ih h with hk | ⟨j, hj, hk⟩
    · rw [scanRecord_reads] at hk
      simp only [List.mem_append, List.mem_cons, List.not_mem_nil, or_false] at hk
      rcases hk with (hk | hk) | hk
      · exact Or.inl hk
      · exact Or.inr ⟨i, List.mem_cons_self, by omega⟩
      · split_ifs at hk
        · simp only [List.mem_cons, List.not_mem_nil, or_false] at hk
          exact Or.inr ⟨i, List.mem_cons_self, by omega⟩
        · cases hk
    · exact Or.inr ⟨j, List.mem_cons_of_mem i hj, hk⟩

/-- The passes over the complete records stay within these. -/
theorem reads_complete {s : Dialler} {n k : ℕ}
    (h : k ∈ (((List.range n).map (6 * ·)).foldl (scanRecord memory) { dialler := s }).reads) :
    k < 6 * n := by
  rcases mem_reads_foldl h with hk | ⟨i, hi, hk⟩
  · cases hk
  · obtain ⟨j, hj, rfl⟩ := List.mem_map.1 hi
    have := List.mem_range.1 hj
    omega

variable (past)

/-- **When the bytes behind the buffer are left alone.** Either the size is a multiple of six, or the
last record has an address, which is zero or known by then. -/
theorem reads_lt_iff (s : Dialler) (peers : Bytes) :
    (∀ k ∈ (scan past s peers).reads, k < peers.length) ↔
      peers.length % 6 = 0 ∨ 4 ≤ peers.length % 6 ∧
        ¬ (readLE32 (peers ++ (List.range 5).map past) (6 * (peers.length / 6)) ≠ 0 ∧
          ((records peers).foldl dial s).Unknown
            (recordAt (peers ++ (List.range 5).map past) (6 * (peers.length / 6)))) := by
  by_cases hmod : peers.length % 6 = 0
  · refine iff_of_true (fun k hk => ?_) (Or.inl hmod)
    have := reads_complete hk
    omega
  · have hpasses : (peers.length + 5) / 6 = peers.length / 6 + 1 := by omega
    generalize hmemory : peers ++ (List.range 5).map past = memory
    generalize hc : ((List.range (peers.length / 6)).map (6 * ·)).foldl (scanRecord memory)
      { dialler := s } = c
    have hcomplete : ∀ k ∈ c.reads, k < 6 * (peers.length / 6) := fun k hk =>
      reads_complete (hc ▸ hk)
    have hdialler : c.dialler = (records peers).foldl dial s := by
      rw [← hc, (foldl_scanRecord _ _).1, ← hmemory]
      exact foldl_complete s peers _
    have hscan : (scan past s peers).reads =
        (scanRecord memory c (6 * (peers.length / 6))).reads := by
      rw [scan, hpasses, hmemory, List.range_succ, List.map_append, List.foldl_append, hc]
      rfl
    rw [hscan, scanRecord_reads, hdialler, or_iff_right hmod]
    split_ifs with hdials
    · refine iff_of_false (fun h => ?_) fun h => h.2 hdials
      have := h (6 * (peers.length / 6) + 5) (by simp)
      omega
    · simp only [List.append_nil, List.mem_append, List.mem_cons, List.not_mem_nil, or_false]
      constructor
      · intro h
        have := h (6 * (peers.length / 6) + 3) (by simp)
        exact ⟨by omega, hdials⟩
      · rintro ⟨hfour, -⟩ k (hk | hk)
        · have := hcomplete k hk
          omega
        · omega

/-! ### What is promised -/

/-- **Which buffers are read as promised**: those that consist of complete records. -/
theorem readsRecords_iff (s : Dialler) (peers : Bytes) :
    ReadsRecords past s peers ↔ peers.length % 6 = 0 := by
  constructor
  · intro h
    have hlength := congrArg List.length ((scan_treated s peers).symm.trans h.treated)
    simp only [List.length_map, List.length_range] at hlength
    omega
  · intro hmod
    have hpasses : (peers.length + 5) / 6 = peers.length / 6 := by omega
    have heq : rawConnectPeers past s peers = (records peers).foldl dial s := by
      rw [rawConnectPeers, hpasses]
      exact foldl_complete s peers _
    refine ⟨(reads_lt_iff past s peers).2 (Or.inl hmod), by rw [scan_treated, hpasses], ?_, ?_⟩
    · rw [heq]
      exact started_dial (records peers) s
    · intro ip
      rw [heq, mem_blacklisted_foldl_dial]
      tauto

/-- A reply with one byte behind its only record: a second connection is started, to an address that
is read behind the buffer. -/
theorem not_readsRecords_sevenBytes :
    ¬ ReadsRecords (fun _ => 9) { torrent := onePiece 2 } [1, 2, 3, 4, 0, 80, 5] := by
  intro h
  have hread : 11 ∈ (scan (fun _ => 9) { torrent := onePiece 2 } [1, 2, 3, 4, 0, 80, 5]).reads := by
    decide +kernel
  exact absurd (h.reads 11 hread) (by decide)

end Dialler

end CTorrent
