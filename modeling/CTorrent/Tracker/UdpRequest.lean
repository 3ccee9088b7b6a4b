import CTorrent.Peer.TrackerQuery
import CTorrent.Tracker.QueryTrackers
import CTorrent.Util.Serializer

/-!
# `Tracker::udpRequest`

`udpRequest` sends a connect request and reads the answer into the buffer of the request; it then
sends an announce and reads the answer to it. What it does is kept as a list of events; what the
resolver and the socket do is up to `UdpAnswers`. After the connect request the code reads until a
datagram fills the 16 bytes, ten times at most, but goes on with the buffer either way. After the
announce it reads fifteen times and appends each datagram to the one before.

* `connectLoop`, `announceLoop`, `udpAnnounce`, `udpRequest`;
* `Sound`: what a tracker's answers are to be used for;
* `Patched`, `Spliced`: answers put together of several datagrams;
* `udpRequest_sound_iff`: the answers for which `udpRequest` is sound.
-/

namespace CTorrent

open Splice

/-- `(uint32_t)event`. -/
def TrackerEvent.code : TrackerEvent → UInt32
  | .none => 0
  | .completed => 1
  | .started => 2
  | .stopped => 3

/-- What the resolver and the socket do while `udpRequest` runs. -/
structure UdpAnswers where
  /-- The message of the error, if the host is not resolved. -/
  resolveError : Option String := none
  /-- What `send_to` returns for the connect request; `none` where it throws. -/
  connectSent : Option ℕ := some 16
  /-- The results of `receive_from` in the first loop: an error or no data, or a datagram. -/
  connect : ℕ → Option Bytes
  /-- What `send_to` returns for the announce. -/
  announceSent : Option ℕ := some 98
  /-- The results of `receive_from` in the second loop. -/
  announce : ℕ → Option Bytes

/-- What `udpRequest` does. -/
inductive UdpEvent where
  | connect (datagram : Bytes)
  | announce (datagram : Bytes)
  /-- `receive_from` has stored these bytes. -/
  | receive (chunk : Bytes)
  | handleTrackerError (message : String)
  /-- The seconds until the next request. -/
  | timeToNextRequest (seconds : UInt32)
  | rawConnectPeers (peers : Bytes)
  deriving DecidableEq

/-- What `udpRequest` returns (`none` where `send_to` throws), and what it did. -/
structure UdpRun where
  returned : Option Bool
  events : List UdpEvent

/-- `handleTrackerError`, and `return false`. -/
def UdpRun.fail (events : List UdpEvent) (message : String) : UdpRun :=
  ⟨some false, events ++ [.handleTrackerError message]⟩

namespace Tracker

/-- What `receive_from` stores in a buffer of `room` bytes. -/
def received (result : Option Bytes) (room : ℕ) : Bytes := (result.getD []).take room

/-- The connect request. -/
def connectRequest (tx : UInt32) : Bytes :=
  writeBE64 0x41727101980 ++ writeBE32 0x00 ++ writeBE32 tx

/-- The announce. -/
def announceRequest (tracker : Tracker) (handshake peerId : Bytes) (r : TrackerQuery) (cid : UInt64)
    (tx : UInt32) : Bytes :=
  writeBE64 cid ++ writeBE32 1 ++ writeBE32 tx ++ region handshake 28 20 ++ peerId.take 20 ++
    writeBE64 (UInt64.ofNat r.downloaded) ++ writeBE64 (UInt64.ofNat r.remaining) ++
    writeBE64 (UInt64.ofNat r.uploaded) ++ writeBE32 r.event.code ++ writeBE32 0 ++ writeBE32 0 ++
    writeBE32 0xFFFFFFFF ++ writeBE16 tracker.tport

/-- The first loop, of `count` more tries at most: the buffer behind it, and what was received. -/
def connectLoop (results : ℕ → Option Bytes) : ℕ → ℕ → ℕ → Bytes → Bytes × List Bytes
  | 0, _, _, buf => (buf, [])
  | count + 1, tries, len, buf =>
      if len = 16 then (buf, [])
      else
        let chunk := received (results tries) 16
        let r := connectLoop results count (tries + 1) chunk.length (overwrite buf 0 chunk)
        (r.1, chunk :: r.2)

/-- The second loop: the first `len` bytes of `response` behind it, and what was received. -/
def announceLoop (results : ℕ → Option Bytes) : ℕ → ℕ → Bytes → Bytes × List Bytes
  | 0, _, response => (response, [])
  | count + 1, tries, response =>
      let chunk := received (results tries) (1500 - response.length)
      let r := announceLoop results count (tries + 1) (response ++ chunk)
      (r.1, chunk :: r.2)

/-- `udpRequest` from the announce `re` on. -/
def udpAnnounce (a : UdpAnswers) (tx : UInt32) (re : Bytes) (events : List UdpEvent) : UdpRun :=
  let events := events ++ [.announce re]
  if a.announceSent = none then ⟨none, events⟩
  else if a.announceSent ≠ some 98 then .fail events "failed to send announce data"
  else
    let r := announceLoop a.announce 15 0 []
    let events := events ++ r.2.map .receive
    if r.1.length < 20 then .fail events "expected at least 20 bytes response"
    else if readBE32 r.1 0 ≠ 1 then .fail events "2: action mismatch"
    else if readBE32 r.1 4 ≠ tx then .fail events "2: transaction mismatch"
    else
      ⟨some true,
        events ++ [.timeToNextRequest (readBE32 r.1 8), .rawConnectPeers (r.1.drop 20)]⟩

/-- `udpRequest`, where `tx` was drawn. -/
def udpRequest (tracker : Tracker) (handshake peerId : Bytes) (r : TrackerQuery) (tx : UInt32)
    (a : UdpAnswers) : UdpRun :=
  match a.resolveError with
  | some message => .fail [] ("Unable to resolve host: " ++ message)
  | none =>
      let events := [.connect (connectRequest tx)]
      if a.connectSent = none then ⟨none, events⟩
      else if a.connectSent ≠ some 16 then .fail events "Failed to initiate UDP transaction"
      else
        let c := connectLoop a.connect 10 0 0 (connectRequest tx)
        let events := events ++ c.2.map .receive
        if readBE32 c.1 0 ≠ 0 then .fail events "action mismatch"
        else if readBE32 c.1 4 ≠ tx then .fail events "transaction id mismatch"
        else
          udpAnnounce a tx (announceRequest tracker handshake peerId r (readBE64 c.1 8) tx) events

/-! ### What the answers are used for -/

/-- A complete response to the connect request. -/
structure ConnectResponse (tx : UInt32) (d : Bytes) : Prop where
  length : d.length = 16
  action : readBE32 d 0 = 0
  transaction : readBE32 d 4 = tx

/-- A response to the announce. -/
structure AnnounceResponse (tx : UInt32) (d : Bytes) : Prop where
  length : 20 ≤ d.length
  action : readBE32 d 0 = 1
  transaction : readBE32 d 4 = tx

/-- An announce is sent only after a complete connect response was received, with the connection id
of that response; and only the peers of a single announce response that was received are connected
to. -/
structure Sound (tx : UInt32) (events : List UdpEvent) : Prop where
  announce : ∀ before re behind, events = before ++ .announce re :: behind →
    ∃ d, .receive d ∈ before ∧ ConnectResponse tx d ∧ readBE64 re 0 = readBE64 d 8
  peers : ∀ before peers behind, events = before ++ .rawConnectPeers peers :: behind →
    ∃ d, .receive d ∈ before ∧ AnnounceResponse tx d ∧ peers = d.drop 20

/-- The datagrams among `count` results from `tries` on, empty ones for errors. -/
def datagrams (results : ℕ → Option Bytes) (tries count : ℕ) : List Bytes :=
  (List.range' tries count).map fun i => (results i).getD []

/-- The byte at `j` when datagrams were stored one over the other: that of the last one which is
long enough, or of the request. -/
def lastAt (request : Bytes) (ds : List Bytes) (j : ℕ) : UInt8 :=
  ((ds.filterMap fun d => d[j]?).getLast?).getD (byteAt request j)

/-- Datagrams cut to what is left of a buffer of `room` bytes. -/
def chop : ℕ → List Bytes → List Bytes
  | _, [] => []
  | room, d :: ds => d.take room :: chop (room - d.length) ds

/-- The bytes of the datagrams and of the request make up the header of a connect response. -/
def Patched (tx : UInt32) (ds : List Bytes) : Prop :=
  ∀ j < 8, lastAt (connectRequest tx) ds j = byteAt (writeBE32 0 ++ writeBE32 tx) j

/-- Several datagrams that are not empty, the first of which leaves room for more, begin with the
header of an announce response. -/
def Spliced (tx : UInt32) (ds : List Bytes) : Prop :=
  AnnounceResponse tx ds.flatten ∧
    ∃ d rest, ds.filter (· ≠ []) = d :: rest ∧ rest ≠ [] ∧ d.length < 1500

/-! ### The first loop -/

section Connect

variable {results : ℕ → Option Bytes}

theorem datagrams_succ (results : ℕ → Option Bytes) (tries count : ℕ) :
    datagrams results tries (count + 1) =
      (results tries).getD [] :: datagrams results (tries + 1) count := by
  rw [datagrams, List.range'_succ, List.map_cons]
  rfl

/-- Short datagrams are stored one over the other. -/
theorem connectLoop_short {count : ℕ} : ∀ {tries len : ℕ} {buf : Bytes}, len ≠ 16 →
    (∀ d ∈ datagrams results tries count, d.length < 16) →
    connectLoop results count tries len buf =
      ((datagrams results tries count).foldl (fun buf d => overwrite buf 0 d) buf,
        datagrams results tries count) := by
  induction count with
  | zero => exact fun _ _ => rfl
  | succ count ih =>
    intro tries len buf hlen hshort
    rw [datagrams_succ] at hshort ⊢
    obtain ⟨hd, hds⟩ := List.forall_mem_cons.1 hshort
    have hchunk : received (results tries) 16 = (results tries).getD [] :=
      List.take_of_length_le hd.le
    rw [connectLoop, if_neg hlen]
    simp only [hchunk, ih hd.ne hds, List.foldl_cons]

/-- The first complete datagram ends the loop, and is all that the buffer holds. -/
theorem connectLoop_complete {count : ℕ} {d : Bytes} : ∀ (tries len : ℕ) (buf : Bytes), len ≠ 16 →
    buf.length = 16 → (datagrams results tries count).find? (fun d => 16 ≤ d.length) = some d →
    ∃ short, connectLoop results count tries len buf = (d.take 16, short ++ [d.take 16]) ∧
      ∀ c ∈ short, c.length < 16 := by
  induction count with
  | zero => exact fun _ _ _ _ _ h => absurd h (by simp [datagrams])
  | succ count ih =>
    intro tries len buf hlen hbuf hfind
    rw [datagrams_succ, List.find?_cons] at hfind
    rw [connectLoop, if_neg hlen]
    by_cases hfirst : 16 ≤ ((results tries).getD []).length
    · rw [decide_eq_true hfirst, Option.some.injEq] at hfind
      have hchunk : received (results tries) 16 = d.take 16 := by rw [received, hfind]
      have hsize : (d.take 16).length = 16 := by
        rw [List.length_take, ← hfind]
        exact Nat.min_eq_left hfirst
      have hstop : connectLoop results count (tries + 1) 16 (d.take 16) = (d.take 16, []) := by
        cases count <;> rfl
      simp only [hchunk, overwrite_all (hsize.trans hbuf.symm), hsize, hstop]
      exact ⟨[], rfl, by simp⟩
    · rw [decide_eq_false hfirst] at hfind
      have hchunk : received (results tries) 16 = (results tries).getD [] :=
        List.take_of_length_le (by omega)
      have hbuf' : (overwrite buf 0 ((results tries).getD [])).length = 16 := by
        rw [length_overwrite (by omega), hbuf]
      obtain ⟨short, hloop, hshort⟩ :=
        ih (tries + 1) ((results tries).getD []).length _ (by omega) hbuf' hfind
      simp only [hchunk, hloop]
      exact ⟨_ :: short, rfl, List.forall_mem_cons.2 ⟨by omega, hshort⟩⟩

/-- The buffer byte for byte. -/
theorem byteAt_foldl_overwrite (ds : List Bytes) (request : Bytes) (j : ℕ) :
    byteAt (ds.foldl (fun buf d => overwrite buf 0 d) request) j = lastAt request ds j := by
  induction ds generalizing request with
  | nil => rfl
  | cons d ds ih =>
    have hbyte : byteAt (overwrite request 0 d) j = (d[j]?).getD (byteAt request j) := by
      rw [byteAt, getElem?_overwrite (Nat.zero_le _), if_neg (Nat.not_lt_zero j), Nat.zero_add,
        Nat.sub_zero]
      split_ifs with hj
      · rw [List.getElem?_eq_getElem hj]
        rfl
      · rw [List.getElem?_eq_none (Nat.not_lt.1 hj)]
        rfl
    rw [List.foldl_cons, ih, lastAt, lastAt, hbyte, List.filterMap_cons]
    cases d[j]? with
    | none => rfl
    | some b => simp [List.getLast?_cons]

/-- A header is known by its bytes. -/
theorem header_iff (b : Bytes) (action tx : UInt32) :
    readBE32 b 0 = action ∧ readBE32 b 4 = tx ↔
      ∀ j < 8, byteAt b j = byteAt (writeBE32 action ++ writeBE32 tx) j := by
  rw [readBE32_eq_iff, readBE32_eq_iff]
  constructor
  · rintro ⟨haction, htx⟩ j hj
    by_cases hlow : j < 4
    · have h := haction j hlow
      rw [Nat.zero_add] at h
      rw [h, byteAt_append_left (by simpa using hlow)]
    · have h := htx (j - 4) (by omega)
      rw [Nat.add_sub_cancel' (by omega)] at h
      have hbehind := byteAt_append (writeBE32 action) (writeBE32 tx) [] (k := j - 4)
        (by simp only [length_writeBE32]; omega)
      rw [List.append_nil, length_writeBE32, Nat.add_sub_cancel' (by omega)] at hbehind
      rw [h, hbehind]
  · intro h
    refine ⟨fun j hj => ?_, fun j hj => ?_⟩
    · rw [Nat.zero_add, h j (by omega), byteAt_append_left (by simpa using hj)]
    · have hbehind := byteAt_append (writeBE32 action) (writeBE32 tx) [] (k := j)
        (by simpa using hj)
      rw [List.append_nil, length_writeBE32] at hbehind
      rw [h (4 + j) (by omega), hbehind]

end Connect

/-! ### The second loop -/

section Announce

variable {results : ℕ → Option Bytes} {tx : UInt32}

/-- Each datagram is stored behind the one before, as far as there is room. -/
theorem announceLoop_eq (results : ℕ → Option Bytes) (count : ℕ) : ∀ (tries : ℕ) (response : Bytes),
    announceLoop results count tries response =
      (response ++ (chop (1500 - response.length) (datagrams results tries count)).flatten,
        chop (1500 - response.length) (datagrams results tries count)) := by
  induction count with
  | zero =>
    intro tries response
    simp [announceLoop, datagrams, chop]
  | succ count ih =>
    intro tries response
    have hroom : 1500 - (response ++ received (results tries) (1500 - response.length)).length =
        1500 - response.length - ((results tries).getD []).length := by
      simp only [received, List.length_append, List.length_take]
      omega
    rw [announceLoop, datagrams_succ, chop, ih, hroom, List.flatten_cons, received,
      List.append_assoc]

theorem flatten_chop (ds : List Bytes) : ∀ room : ℕ,
    (chop room ds).flatten = ds.flatten.take room := by
  induction ds with
  | nil => simp [chop]
  | cons d ds ih =>
    intro room
    rw [chop, List.flatten_cons, List.flatten_cons, ih, List.take_append]

theorem length_le_of_mem_chop {ds : List Bytes} {room : ℕ} {c : Bytes} (h : c ∈ chop room ds) :
    c.length ≤ (ds.flatten.take room).length := by
  rw [← flatten_chop]
  exact (List.sublist_flatten_of_mem h).length_le

/-- One datagram makes up the whole, unless there are several that are not empty and the first of
them leaves room. -/
theorem exists_whole_iff {ds : List Bytes} {room : ℕ} (hroom : 0 < room) (hne : ds.flatten ≠ []) :
    ds.flatten.take room ∈ chop room ds ↔
      ¬ ∃ d rest, ds.filter (· ≠ []) = d :: rest ∧ rest ≠ [] ∧ d.length < room := by
  induction ds with
  | nil => exact absurd rfl hne
  | cons d ds ih =>
    rw [chop, List.flatten_cons, List.mem_cons]
    by_cases hd : d = []
    · subst hd
      rw [List.flatten_cons, List.nil_append] at hne
      have hpos : ds.flatten.take room ≠ [] := by
        simp only [ne_eq, List.take_eq_nil_iff, not_or]
        exact ⟨hroom.ne', hne⟩
      rw [List.nil_append, List.take_nil, or_iff_right hpos, List.filter_cons_of_neg (by simp)]
      exact ih hne
    · have hpos : 0 < d.length := List.length_pos_of_ne_nil hd
      rw [List.filter_cons_of_pos (by simpa using hd)]
      by_cases hfull : room ≤ d.length
      · -- nothing else fits behind the first one
        refine iff_of_true (Or.inl ?_) ?_
        · rw [List.take_append_of_le_length hfull]
        · rintro ⟨d', rest, heq, -, hlt⟩
          rw [← (List.cons.inj heq).1] at hlt
          omega
      · by_cases hrest : ds.flatten = []
        · refine iff_of_true (Or.inl (by rw [hrest, List.append_nil])) ?_
          rintro ⟨d', rest, heq, hrest', -⟩
          rw [← (List.cons.inj heq).2] at hrest'
          refine hrest' (List.filter_eq_nil_iff.2 fun c hc => ?_)
          simpa using List.flatten_eq_nil_iff.1 hrest c hc
        · refine iff_of_false ?_ (not_not.2 ⟨d, _, rfl, ?_, Nat.not_le.1 hfull⟩)
          · -- the whole is longer than each part of it
            have hlen : 0 < (ds.flatten.take (room - d.length)).length := by
              have := List.length_pos_of_ne_nil hrest
              rw [List.length_take]
              omega
            rw [List.take_append, List.take_of_length_le (by omega)]
            rintro (heq | hmem)
            · have := congrArg List.length heq
              rw [List.length_append] at this
              omega
            · have := length_le_of_mem_chop hmem
              rw [List.length_append] at this
              omega
          · intro hnil
            refine hrest (List.flatten_eq_nil_iff.2 fun c hc => ?_)
            simpa using List.filter_eq_nil_iff.1 hnil c hc

/-- The header stands in the first twenty bytes. -/
theorem announceResponse_take {d : Bytes} {n : ℕ} (hn : 20 ≤ n) :
    AnnounceResponse tx (d.take n) ↔ AnnounceResponse tx d := by
  have hbyte : ∀ j < 8, byteAt (d.take n) j = byteAt d j := fun j hj => by
    rw [byteAt, byteAt, List.getElem?_take_of_lt (by omega)]
  have hheader : readBE32 (d.take n) 0 = 1 ∧ readBE32 (d.take n) 4 = tx ↔
      readBE32 d 0 = 1 ∧ readBE32 d 4 = tx := by
    rw [header_iff, header_iff]
    exact forall₂_congr fun j hj => by rw [hbyte j hj]
  constructor
  · rintro ⟨hlen, haction, htx⟩
    rw [List.length_take] at hlen
    exact ⟨by omega, (hheader.1 ⟨haction, htx⟩).1, (hheader.1 ⟨haction, htx⟩).2⟩
  · rintro ⟨hlen, haction, htx⟩
    refine ⟨?_, (hheader.2 ⟨haction, htx⟩).1, (hheader.2 ⟨haction, htx⟩).2⟩
    rw [List.length_take]
    omega

end Announce

/-! ### Runs -/

section Runs

variable {tx : UInt32} {a : UdpAnswers} {before : List UdpEvent}

/-- No announce is sent, and no peers are connected to. -/
def Preliminary (events : List UdpEvent) : Prop :=
  ∀ e ∈ events, ∀ re peers, e ≠ .announce re ∧ e ≠ .rawConnectPeers peers

theorem preliminary_receive (ds : List Bytes) : Preliminary (ds.map .receive) := by
  intro e he re peers
  obtain ⟨d, -, rfl⟩ := List.mem_map.1 he
  exact ⟨by simp, by simp⟩

theorem Preliminary.append {l m : List UdpEvent} (hl : Preliminary l) (hm : Preliminary m) :
    Preliminary (l ++ m) :=
  fun e he => (List.mem_append.1 he).elim (hl e) (hm e)

theorem Preliminary.sound {events : List UdpEvent} (h : Preliminary events) : Sound tx events where
  announce := by
    rintro before re behind rfl
    exact absurd rfl (h _ (by simp) re []).1
  peers := by
    rintro before peers behind rfl
    exact absurd rfl (h _ (by simp) [] peers).2

/-- A run with an announce, and without peers. -/
theorem sound_announce_iff {re : Bytes} {behind : List UdpEvent} (hbefore : Preliminary before)
    (hbehind : Preliminary behind) :
    Sound tx (before ++ .announce re :: behind) ↔
      ∃ d, .receive d ∈ before ∧ ConnectResponse tx d ∧ readBE64 re 0 = readBE64 d 8 := by
  refine ⟨fun h => h.announce before re behind rfl, fun h => ⟨?_, ?_⟩⟩
  · intro before' re' behind' heq
    rw [List.append_cons_inj_of_notMem (fun hmem => (hbefore _ hmem re' []).1 rfl)
      (fun hmem => (hbehind _ hmem re' []).1 rfl)] at heq
    obtain ⟨rfl, hre, -⟩ := heq
    rwa [← UdpEvent.announce.inj hre]
  · intro before' peers behind' heq
    have hmem : UdpEvent.rawConnectPeers peers ∈ before ++ .announce re :: behind := heq ▸ by simp
    rcases List.mem_append.1 hmem with hmem | hmem
    · exact absurd rfl (hbefore _ hmem [] peers).2
    · rcases List.mem_cons.1 hmem with hmem | hmem
      · cases hmem
      · exact absurd rfl (hbehind _ hmem [] peers).2

/-- A run with an announce, and peers at its end. -/
theorem sound_peers_iff (re peers : Bytes) {behind : List UdpEvent} (hbefore : Preliminary before)
    (hbehind : Preliminary behind) :
    Sound tx (before ++ .announce re :: (behind ++ [.rawConnectPeers peers])) ↔
      (∃ d, .receive d ∈ before ∧ ConnectResponse tx d ∧ readBE64 re 0 = readBE64 d 8) ∧
        ∃ d, .receive d ∈ before ++ .announce re :: behind ∧ AnnounceResponse tx d ∧
          peers = d.drop 20 := by
  have hsplit : before ++ .announce re :: (behind ++ [.rawConnectPeers peers]) =
      (before ++ .announce re :: behind) ++ .rawConnectPeers peers :: [] := by simp
  refine ⟨fun h => ⟨h.announce before re _ rfl, h.peers _ peers [] hsplit⟩, fun h => ?_⟩
  obtain ⟨hannounce, hpeers⟩ := h
  refine ⟨?_, ?_⟩
  · intro before' re' behind' heq
    rw [List.append_cons_inj_of_notMem (fun hmem => (hbefore _ hmem re' []).1 rfl)] at heq
    · obtain ⟨rfl, hre, -⟩ := heq
      rwa [← UdpEvent.announce.inj hre]
    · intro hmem
      rcases List.mem_append.1 hmem with hmem | hmem
      · exact (hbehind _ hmem re' []).1 rfl
      · simp at hmem
  · intro before' peers' behind' heq
    rw [hsplit, List.append_cons_inj_of_notMem _ List.not_mem_nil] at heq
    · obtain ⟨rfl, hps, -⟩ := heq
      rwa [← UdpEvent.rawConnectPeers.inj hps]
    · intro hmem
      rcases List.mem_append.1 hmem with hmem | hmem
      · exact (hbefore _ hmem [] peers').2 rfl
      · rcases List.mem_cons.1 hmem with hmem | hmem
        · cases hmem
        · exact (hbehind _ hmem [] peers').2 rfl

/-- A run that fails behind the announce. -/
theorem sound_fail_iff {re : Bytes} {behind : List UdpEvent} (hbefore : Preliminary before)
    (hbehind : Preliminary behind) (message : String) :
    Sound tx (UdpRun.fail (before ++ [.announce re] ++ behind) message).events ↔
      ∃ d, .receive d ∈ before ∧ ConnectResponse tx d ∧ readBE64 re 0 = readBE64 d 8 := by
  have herror : Preliminary [.handleTrackerError message] := by
    intro e he re peers
    rw [List.mem_singleton] at he
    subst he
    exact ⟨by simp, by simp⟩
  rw [UdpRun.fail, List.append_assoc, List.append_assoc, List.singleton_append]
  exact sound_announce_iff hbefore (hbehind.append herror)

/-- The peers are those of one datagram if this is all that was received. -/
theorem exists_response_iff {re response : Bytes} {got : List Bytes} {seconds : UInt32}
    (hsize : ∀ d, .receive d ∈ before → d.length ≤ 16) (hgot : got.flatten = response)
    (hresponse : AnnounceResponse tx response) :
    (∃ d, .receive d ∈
        before ++ .announce re :: (got.map .receive ++ [.timeToNextRequest seconds]) ∧
        AnnounceResponse tx d ∧ response.drop 20 = d.drop 20) ↔ response ∈ got := by
  constructor
  · rintro ⟨d, hmem, hd, heq⟩
    simp only [List.mem_append, List.mem_cons, List.mem_map, reduceCtorEq, false_or,
      UdpEvent.receive.injEq, exists_eq_right, List.not_mem_nil, or_false] at hmem
    rcases hmem with hmem | hmem
    · exact absurd (hsize d hmem) (by have := hd.length; omega)
    · have hlen := congrArg List.length heq
      rw [List.length_drop, List.length_drop] at hlen
      have hsub := List.sublist_flatten_of_mem hmem
      rw [hgot] at hsub
      have := hd.length
      have := hresponse.length
      rwa [← hsub.eq_of_length (by omega)]
  · intro hmem
    refine ⟨response, ?_, hresponse, rfl⟩
    simp [hmem]

/-- From the announce on: the announce itself, and whether the answer to it is one datagram. -/
theorem sound_udpAnnounce_iff {re : Bytes} (hbefore : Preliminary before)
    (hsize : ∀ d, .receive d ∈ before → d.length ≤ 16) :
    Sound tx (udpAnnounce a tx re before).events ↔
      (∃ d, .receive d ∈ before ∧ ConnectResponse tx d ∧ readBE64 re 0 = readBE64 d 8) ∧
        (a.announceSent = some 98 → ¬ Spliced tx (datagrams a.announce 0 15)) := by
  have hloop := announceLoop_eq a.announce 15 0 []
  rw [List.length_nil, Nat.sub_zero, List.nil_append] at hloop
  have hflat := flatten_chop (datagrams a.announce 0 15) 1500
  by_cases hsent : a.announceSent = some 98
  · rw [udpAnnounce, if_neg (by simp [hsent]), if_neg (not_not.2 hsent)]
    simp only [hloop, hflat]
    generalize datagrams a.announce 0 15 = ds at hflat
    have hreceived := preliminary_receive (chop 1500 ds)
    by_cases hresponse : AnnounceResponse tx (ds.flatten.take 1500)
    · have hne : ds.flatten ≠ [] := by
        intro hnil
        have := hresponse.length
        rw [hnil] at this
        simp at this
      have hbehind : Preliminary ((chop 1500 ds).map .receive ++
          [.timeToNextRequest (readBE32 (ds.flatten.take 1500) 8)]) :=
        hreceived.append (by simp [Preliminary])
      rw [if_neg (Nat.not_lt.2 hresponse.length), if_neg (not_not.2 hresponse.action),
        if_neg (not_not.2 hresponse.transaction)]
      have hpeers : Sound tx _ ↔ _ :=
        sound_peers_iff re ((ds.flatten.take 1500).drop 20) hbefore hbehind
      rw [exists_response_iff hsize hflat hresponse, exists_whole_iff (by decide) hne] at hpeers
      have hspliced : (a.announceSent = some 98 → ¬ Spliced tx ds) ↔
          ¬ ∃ d rest, ds.filter (· ≠ []) = d :: rest ∧ rest ≠ [] ∧ d.length < 1500 := by
        rw [imp_iff_right hsent, Spliced,
          and_iff_right ((announceResponse_take (by decide)).1 hresponse)]
      rw [hspliced, ← hpeers]
      simp only [List.append_assoc, List.cons_append, List.nil_append]
    · have hspliced : ¬ Spliced tx ds := fun h =>
        hresponse ((announceResponse_take (by decide)).2 h.1)
      rw [and_iff_left fun _ => hspliced]
      split_ifs with hlen haction htx
      · exact sound_fail_iff hbefore hreceived _
      · exact sound_fail_iff hbefore hreceived _
      · exact sound_fail_iff hbefore hreceived _
      · exact absurd ⟨Nat.not_lt.1 hlen, not_not.1 haction, not_not.1 htx⟩ hresponse
  · rw [and_iff_left fun h => absurd h hsent, udpAnnounce]
    split_ifs
    · exact sound_announce_iff hbefore (by simp [Preliminary])
    · have hnone : Preliminary [] := by simp [Preliminary]
      have hfail : Sound tx (UdpRun.fail (before ++ [.announce re] ++ []) _).events ↔ _ :=
        sound_fail_iff hbefore hnone "failed to send announce data"
      rwa [List.append_nil] at hfail

/-- The header of the connect response is checked before the announce. -/
theorem sound_checked_iff {b : Bytes} {run : UdpRun} (hbefore : Preliminary before)
    (s s' : String) :
    Sound tx (if readBE32 b 0 ≠ 0 then UdpRun.fail before s
        else if readBE32 b 4 ≠ tx then UdpRun.fail before s' else run).events ↔
      (readBE32 b 0 = 0 ∧ readBE32 b 4 = tx → Sound tx run.events) := by
  have hfail : ∀ s, Sound tx (UdpRun.fail before s).events := fun s =>
    Preliminary.sound (hbefore.append (by simp [Preliminary]))
  split_ifs with haction htx
  · exact iff_of_true (hfail s) fun h => absurd h.1 haction
  · exact iff_of_true (hfail s') fun h => absurd h.2 htx
  · exact (imp_iff_right ⟨not_not.1 haction, not_not.1 htx⟩).symm

theorem preliminary_connect (got : List Bytes) :
    Preliminary ([.connect (connectRequest tx)] ++ got.map .receive) := by
  have hrequest : Preliminary [.connect (connectRequest tx)] := by simp [Preliminary]
  exact hrequest.append (preliminary_receive got)

theorem receive_mem_connect {got : List Bytes} {d : Bytes} :
    .receive d ∈ [UdpEvent.connect (connectRequest tx)] ++ got.map .receive ↔ d ∈ got := by simp

/-- Where no datagram was complete, there is nothing to send an announce for. -/
theorem not_sound_of_short {ds : List Bytes} (hshort : ∀ d ∈ ds, d.length < 16) (re : Bytes) :
    ¬ Sound tx (udpAnnounce a tx re
      ([.connect (connectRequest tx)] ++ ds.map .receive)).events := by
  rw [sound_udpAnnounce_iff (preliminary_connect ds) fun d hd =>
    (hshort d (receive_mem_connect.1 hd)).le]
  rintro ⟨⟨d, hd, hresponse, -⟩, -⟩
  exact absurd hresponse.length (hshort d (receive_mem_connect.1 hd)).ne

/-- An announce for a complete response, with its connection id. -/
theorem sound_of_response_iff {short : List Bytes} {d re : Bytes}
    (hshort : ∀ c ∈ short, c.length < 16) (hd : ConnectResponse tx d)
    (hre : readBE64 re 0 = readBE64 d 8) :
    Sound tx (udpAnnounce a tx re
        ([.connect (connectRequest tx)] ++ (short ++ [d]).map .receive)).events ↔
      (a.announceSent = some 98 → ¬ Spliced tx (datagrams a.announce 0 15)) := by
  rw [sound_udpAnnounce_iff (preliminary_connect _), and_iff_right]
  · exact ⟨d, by simp, hd, hre⟩
  · intro c hc
    rcases List.mem_append.1 (receive_mem_connect.1 hc) with hc | hc
    · exact (hshort c hc).le
    · rw [List.mem_singleton.1 hc, hd.length]

/-- **A tracker over UDP.** An announce is sent for a complete connect response only, and the peers
come from a single announce response, if and only if: where none of the first ten datagrams is
complete, they do not make up the header of a response together with the request; and where the
first complete one is a response and the announce is sent, the answer to it is not put together of
several datagrams. -/
theorem udpRequest_sound_iff (tracker : Tracker) (handshake peerId : Bytes) (r : TrackerQuery)
    (tx : UInt32) (a : UdpAnswers) :
    Sound tx (tracker.udpRequest handshake peerId r tx a).events ↔
      (a.resolveError = none → a.connectSent = some 16 →
        match (datagrams a.connect 0 10).find? (fun d => 16 ≤ d.length) with
        | none => ¬ Patched tx (datagrams a.connect 0 10)
        | some d => ConnectResponse tx (d.take 16) → a.announceSent = some 98 →
            ¬ Spliced tx (datagrams a.announce 0 15)) := by
  have hcid : ∀ cid, readBE64 (tracker.announceRequest handshake peerId r cid tx) 0 = cid := by
    intro cid
    simp only [announceRequest, List.append_assoc]
    exact readBE64_writeBE64 cid [] _
  rw [udpRequest]
  cases hresolve : a.resolveError with
  | some message =>
    refine iff_of_true (Preliminary.sound ?_) (fun h => by cases h)
    simp [UdpRun.fail, Preliminary]
  | none =>
    rw [imp_iff_right rfl]
    by_cases hsent : a.connectSent = some 16
    · rw [imp_iff_right hsent]
      dsimp only
      rw [if_neg (by simp [hsent]), if_neg (not_not.2 hsent),
        sound_checked_iff (preliminary_connect _)]
      cases hfind : (datagrams a.connect 0 10).find? (fun d => 16 ≤ d.length) with
      | none =>
        have hshort : ∀ d ∈ datagrams a.connect 0 10, d.length < 16 := by
          simpa using List.find?_eq_none.1 hfind
        rw [connectLoop_short (by decide) hshort]
        dsimp only
        rw [header_iff]
        simp only [byteAt_foldl_overwrite]
        exact imp_congr_right fun _ => iff_of_false (not_sound_of_short hshort _) id
      | some d =>
        obtain ⟨short, hloop, hshort⟩ :=
          connectLoop_complete 0 0 (connectRequest tx) (by decide) rfl hfind
        have hsize : (d.take 16).length = 16 := by
          rw [List.length_take]
          exact Nat.min_eq_left (by simpa using List.find?_some hfind)
        rw [hloop]
        have hheader : readBE32 (d.take 16) 0 = 0 ∧ readBE32 (d.take 16) 4 = tx ↔
            ConnectResponse tx (d.take 16) :=
          ⟨fun h => ⟨hsize, h.1, h.2⟩, fun h => ⟨h.action, h.transaction⟩⟩
        rw [hheader]
        exact imp_congr_right fun hresponse => sound_of_response_iff hshort hresponse (hcid _)
    · refine iff_of_true (Preliminary.sound ?_) (fun h => absurd h hsent)
      dsimp only
      split_ifs
      · simp [Preliminary]
      · simp [UdpRun.fail, Preliminary]

end Runs

/-- The run of a tracker with empty names, for a torrent of zeros and the transaction 7. -/
def sampleRun (a : UdpAnswers) : UdpRun :=
  udpRequest ⟨.udp, 6881, [], []⟩ (List.replicate 68 0) (List.replicate 20 0)
    ⟨.started, 0, 0, 0⟩ 7 a

/-- The connect request is answered by a datagram of eight bytes. -/
def shortReply : UdpAnswers where
  connect tries := if tries = 0 then some [0, 0, 0, 0, 0, 0, 0, 7] else none
  announce _ := none

/-- The announce is answered twice. -/
def doubleReply : UdpAnswers where
  connect _ := some [0, 0, 0, 0, 0, 0, 0, 7, 1, 2, 3, 4, 5, 6, 7, 8]
  announce tries :=
    if tries < 2 then some [0, 0, 0, 1, 0, 0, 0, 7, 0, 0, 0, 9, 0, 0, 0, 0, 0, 0, 0, 1] else none

/-- After eight bytes an announce is sent, with a connection id that nobody has given; and the
header of a second answer is taken for peers. -/
theorem not_sound_shortReply_doubleReply :
    ¬ Sound 7 (sampleRun shortReply).events ∧ ¬ Sound 7 (sampleRun doubleReply).events := by
  refine ⟨fun h => ?_, fun h => ?_⟩
  · have hevents : (sampleRun shortReply).events = (sampleRun shortReply).events.take 11 ++
        .announce (announceRequest ⟨.udp, 6881, [], []⟩ (List.replicate 68 0)
          (List.replicate 20 0) ⟨.started, 0, 0, 0⟩ 7 7) ::
        (sampleRun shortReply).events.drop 12 := by decide +kernel
    have hbefore : (sampleRun shortReply).events.take 11 =
        [.connect (connectRequest 7), .receive [0, 0, 0, 0, 0, 0, 0, 7]] ++
          List.replicate 9 (.receive []) := by decide +kernel
    obtain ⟨d, hd, hresponse, -⟩ := h.announce _ _ _ hevents
    have hlen := hresponse.length
    rw [hbefore] at hd
    simp only [List.mem_append, List.mem_cons, List.mem_replicate, reduceCtorEq, false_or,
      UdpEvent.receive.injEq, List.not_mem_nil, or_false] at hd
    rcases hd with rfl | ⟨-, rfl⟩
    · exact absurd hlen (by decide)
    · exact absurd hlen (by decide)
  · have hevents : (sampleRun doubleReply).events = (sampleRun doubleReply).events.take 19 ++
        .rawConnectPeers [0, 0, 0, 1, 0, 0, 0, 7, 0, 0, 0, 9, 0, 0, 0, 0, 0, 0, 0, 1] :: [] := by
      decide +kernel
    have hbefore : (sampleRun doubleReply).events.take 19 =
        [.connect (connectRequest 7), .receive [0, 0, 0, 0, 0, 0, 0, 7, 1, 2, 3, 4, 5, 6, 7, 8],
          .announce (announceRequest ⟨.udp, 6881, [], []⟩ (List.replicate 68 0)
            (List.replicate 20 0) ⟨.started, 0, 0, 0⟩ 0x102030405060708 7)] ++
        List.replicate 2
          (.receive [0, 0, 0, 1, 0, 0, 0, 7, 0, 0, 0, 9, 0, 0, 0, 0, 0, 0, 0, 1]) ++
        List.replicate 13 (.receive []) ++ [.timeToNextRequest 9] := by decide +kernel
    obtain ⟨d, hd, -, hpeers⟩ := h.peers _ _ _ hevents
    rw [hbefore] at hd
    simp only [List.mem_append, List.mem_cons, List.mem_replicate, reduceCtorEq, false_or, or_false,
      UdpEvent.receive.injEq, List.not_mem_nil] at hd
    rcases hd with (rfl | ⟨-, rfl⟩) | ⟨-, rfl⟩ <;> exact absurd hpeers (by decide)

end Tracker

end CTorrent
