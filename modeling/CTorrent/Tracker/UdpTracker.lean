import CTorrent.Peer.CompactPeers
import CTorrent.Tracker.UdpRequest

/-!
# The other end of `Tracker::udpRequest`

A tracker that keeps to the protocol answers a connect request with a connection id of its own, and
an announce that carries this id with the interval and the peers. `udpRequest` polls ten times for
the first answer and fifteen times for the second one, into a buffer of 1500 bytes: 20 of header,
246 peers, and the address of one more.

* `Announced`, `UdpTracker`: what the tracker hears and answers;
* `hears_announceRequest`: the tracker hears what `udpRequest` is asked to say;
* `Answered`: each datagram is answered, at a certain poll;
* `dialled`: the peers that `rawConnectPeers` makes of the list;
* `udpRequest_answered`: what comes of the request, by the polls of the two answers.
-/

namespace CTorrent

open Splice

/-- What a client tells a tracker. -/
structure Announced where
  infoHash : Bytes
  peerId : Bytes
  downloaded : UInt64
  left : UInt64
  uploaded : UInt64
  event : UInt32
  port : UInt16
  deriving DecidableEq

/-- What a tracker has to say to a client. -/
structure UdpTracker where
  connectionId : UInt64
  interval : UInt32
  leechers : UInt32
  seeders : UInt32
  peers : List PeerInfo

namespace UdpTracker

variable (T : UdpTracker)

/-- The announcement in a datagram with the tracker's connection id. -/
def hears (d : Bytes) : Option Announced :=
  if d.length = 98 ∧ readBE64 d 0 = T.connectionId ∧ readBE32 d 8 = 1 then
    some
      { infoHash := region d 16 20
        peerId := region d 36 20
        downloaded := readBE64 d 56
        left := readBE64 d 64
        uploaded := readBE64 d 72
        event := readBE32 d 80
        port := (readBE16 d 96).toUInt16 }
  else none

/-- The answer to a connect request with the transaction `tx`. -/
def connectResponse (tx : UInt32) : Bytes :=
  writeBE32 0 ++ writeBE32 tx ++ writeBE64 T.connectionId

/-- The answer to an announce with the transaction `tx`. -/
def announceResponse (tx : UInt32) : Bytes :=
  writeBE32 1 ++ writeBE32 tx ++ writeBE32 T.interval ++ writeBE32 T.leechers ++
    writeBE32 T.seeders ++ T.peers.flatMap PeerInfo.record

/-- The answer to a datagram. -/
def answer (d : Bytes) : Option Bytes :=
  if d.length = 16 ∧ readBE64 d 0 = 0x41727101980 ∧ readBE32 d 8 = 0 then
    some (T.connectResponse (readBE32 d 12))
  else (T.hears d).map fun _ => T.announceResponse (readBE32 d 12)

/-- The peers that are dialled: 246 fit behind the header. Of the next one there is the address;
its port is what stands behind the buffer. -/
def dialled (past : ℕ → UInt8) : List PeerInfo :=
  T.peers.take 246 ++ T.peers[246]?.toList.map fun p =>
    { p with port := (readBE16 [past 0, past 1] 0).toUInt16 }

/-- A result that is received at one poll only. -/
def arriving (poll : ℕ) (result : Option Bytes) (tries : ℕ) : Option Bytes :=
  if tries = poll then result else none

/-- The host is resolved, both datagrams are sent, and the tracker answers them: the answer to the
connect request is received at the poll `k`, that to the announce at the poll `j`. -/
structure Answered (k j : ℕ) (a : UdpAnswers) (events : List UdpEvent) : Prop where
  resolveError : a.resolveError = none
  connectSent : a.connectSent = some 16
  announceSent : a.announceSent = some 98
  connect : ∀ d, .connect d ∈ events → a.connect = arriving k (T.answer d)
  announce : ∀ d, .announce d ∈ events → a.announce = arriving j (T.answer d)

end UdpTracker

/-! ### Reading at an offset -/

theorem byteAt_drop (bytes : Bytes) (pos k : ℕ) :
    byteAt (bytes.drop pos) k = byteAt bytes (pos + k) := by
  rw [byteAt, byteAt, List.getElem?_drop]

theorem readBE32_drop (bytes : Bytes) (pos : ℕ) :
    readBE32 bytes pos = readBE32 (bytes.drop pos) 0 := by
  simp only [readBE32, readBE16, byteAt_drop, Nat.add_assoc, Nat.zero_add, Nat.add_zero]

theorem readBE64_drop (bytes : Bytes) (pos : ℕ) :
    readBE64 bytes pos = readBE64 (bytes.drop pos) 0 := by
  simp only [readBE64, readBE32, readBE16, byteAt_drop, Nat.add_assoc, Nat.zero_add, Nat.add_zero]

theorem readBE16_drop (bytes : Bytes) (pos : ℕ) :
    readBE16 bytes pos = readBE16 (bytes.drop pos) 0 := by
  simp only [readBE16, byteAt_drop, Nat.zero_add, Nat.add_zero]

/-! ### What the tracker hears -/

namespace Tracker

variable {T : UdpTracker} {tracker : Tracker} {handshake peerId : Bytes} {r : TrackerQuery}
  {tx : UInt32} {a : UdpAnswers}

/-- The fields of the announce. -/
def announceFields (tracker : Tracker) (handshake peerId : Bytes) (r : TrackerQuery) (cid : UInt64)
    (tx : UInt32) : List Bytes :=
  [writeBE64 cid, writeBE32 1, writeBE32 tx, region handshake 28 20, peerId.take 20,
    writeBE64 (UInt64.ofNat r.downloaded), writeBE64 (UInt64.ofNat r.remaining),
    writeBE64 (UInt64.ofNat r.uploaded), writeBE32 r.event.code, writeBE32 0, writeBE32 0,
    writeBE32 0xFFFFFFFF, writeBE16 tracker.tport]

theorem announceRequest_eq (cid : UInt64) :
    tracker.announceRequest handshake peerId r cid tx =
      (tracker.announceFields handshake peerId r cid tx).flatten := by
  simp only [announceRequest, announceFields, List.flatten_cons, List.flatten_nil,
    List.append_nil, List.append_assoc]

theorem announceFields_length (hhandshake : handshake.length = 68) (hpeerId : peerId.length = 20)
    (cid : UInt64) :
    (tracker.announceFields handshake peerId r cid tx).map List.length =
      [8, 4, 4, 20, 20, 8, 8, 8, 4, 4, 4, 4, 2] := by
  have hregion : (region handshake 28 20).length = 20 := by
    rw [region, List.length_take, List.length_drop, hhandshake]
    rfl
  simp [announceFields, hregion, hpeerId]

/-- What stands behind the first fields of the announce. -/
theorem drop_announceRequest (hhandshake : handshake.length = 68) (hpeerId : peerId.length = 20)
    (cid : UInt64) {n pos : ℕ}
    (hpos : (([8, 4, 4, 20, 20, 8, 8, 8, 4, 4, 4, 4, 2] : List ℕ).take n).sum = pos) :
    (tracker.announceRequest handshake peerId r cid tx).drop pos =
      ((tracker.announceFields handshake peerId r cid tx).drop n).flatten := by
  rw [announceRequest_eq, ← hpos, ← announceFields_length hhandshake hpeerId cid]
  exact List.drop_sum_flatten _ n

/-- **The tracker hears what it is told.** The announce of `udpRequest` carries the info hash of the
handshake, the peer id, the numbers of the query, the event and the port. -/
theorem hears_announceRequest (T : UdpTracker) (tracker : Tracker) (r : TrackerQuery) (tx : UInt32)
    (hhandshake : handshake.length = 68) (hpeerId : peerId.length = 20) :
    T.hears (tracker.announceRequest handshake peerId r T.connectionId tx) = some
        { infoHash := region handshake 28 20
          peerId := peerId
          downloaded := UInt64.ofNat r.downloaded
          left := UInt64.ofNat r.remaining
          uploaded := UInt64.ofNat r.uploaded
          event := r.event.code
          port := tracker.tport } ∧
      readBE32 (tracker.announceRequest handshake peerId r T.connectionId tx) 12 = tx := by
  generalize hre : tracker.announceRequest handshake peerId r T.connectionId tx = re
  have hdrop : ∀ n pos : ℕ,
      (([8, 4, 4, 20, 20, 8, 8, 8, 4, 4, 4, 4, 2] : List ℕ).take n).sum = pos →
      re.drop pos =
        ((tracker.announceFields handshake peerId r T.connectionId tx).drop n).flatten :=
    fun _ _ hpos => hre ▸ drop_announceRequest hhandshake hpeerId T.connectionId hpos
  have hlength : re.length = 98 := by
    rw [← hre, announceRequest_eq, List.length_flatten,
      announceFields_length hhandshake hpeerId T.connectionId]
    rfl
  have h64 : ∀ {pos : ℕ} (w : UInt64) (t : Bytes), re.drop pos = writeBE64 w ++ t →
      readBE64 re pos = w := fun w t h => by
    rw [readBE64_drop, h]
    exact readBE64_writeBE64 w [] t
  have h32 : ∀ {pos : ℕ} (w : UInt32) (t : Bytes), re.drop pos = writeBE32 w ++ t →
      readBE32 re pos = w := fun w t h => by
    rw [readBE32_drop, h]
    exact readBE32_writeBE32 w [] t
  have hport : readBE16 re 96 = tracker.tport.toUInt32 := by
    rw [readBE16_drop, hdrop 12 96 rfl]
    exact readBE16_writeBE16 tracker.tport [] []
  have hhash : region re 16 20 = region handshake 28 20 := by
    rw [region, hdrop 3 16 rfl]
    refine List.take_left' ?_
    rw [region, List.length_take, List.length_drop, hhandshake]
    rfl
  have hid : region re 36 20 = peerId := by
    have htake : peerId.take 20 = peerId := List.take_of_length_le hpeerId.le
    rw [region, hdrop 4 36 rfl, announceFields, htake]
    exact List.take_left' hpeerId
  refine ⟨?_, h32 tx _ (hdrop 2 12 rfl)⟩
  rw [UdpTracker.hears, if_pos ⟨hlength, h64 _ _ (hdrop 0 0 rfl),
    h32 1 _ (hdrop 1 8 rfl)⟩, hhash, hid, h64 _ _ (hdrop 5 56 rfl),
    h64 _ _ (hdrop 6 64 rfl), h64 _ _ (hdrop 7 72 rfl), h32 _ _ (hdrop 8 80 rfl), hport,
    UInt16.toUInt16_toUInt32]

end Tracker

/-! ### The peers of the answer -/

namespace Dialler

variable {past : ℕ → UInt8} {s : Dialler}

/-- The bytes of a port that was read. -/
theorem writeBE16_readBE16 (b c : UInt8) : writeBE16 (readBE16 [b, c] 0).toUInt16 = [b, c] := by
  have hread : readBE16 [b, c] 0 = c.toUInt32 ||| (b.toUInt32 <<< 8) := rfl
  rw [hread, writeBE16, List.cons.injEq, List.cons.injEq]
  refine ⟨?_, ?_, rfl⟩ <;>
  · apply UInt8.eq_of_toBitVec_eq
    apply BitVec.eq_of_getLsbD_eq
    intro i hi
    simp only [UInt16.toBitVec_toUInt8, UInt16.toBitVec_shiftRight, UInt32.toBitVec_toUInt16,
      UInt32.toBitVec_or, UInt32.toBitVec_shiftLeft, UInt8.toBitVec_toUInt32]
    interval_cases i <;> simp

theorem length_flatMap_record (l : List PeerInfo) :
    (l.flatMap PeerInfo.record).length = 6 * l.length := by
  induction l with
  | nil => rfl
  | cons p l ih =>
    rw [List.flatMap_cons, List.length_append, length_record, ih, List.length_cons]
    omega

/-- The passes of the loop take the bytes from the start of `peers` on for the records of `l`. -/
theorem rawConnectPeers_of_records {l : List PeerInfo} {peers behind : Bytes}
    (hmemory : peers ++ (List.range 5).map past = l.flatMap PeerInfo.record ++ behind)
    (hpasses : (peers.length + 5) / 6 = l.length) :
    rawConnectPeers past s peers = l.foldl dial s := by
  rw [rawConnectPeers, hpasses, hmemory, List.range_eq_range' (n := l.length)]
  exact foldl_rawConnectRecord l s [] behind 0 rfl

end Dialler

open Dialler

/-- A list that fits is dialled as it is. -/
theorem UdpTracker.dialled_eq (T : UdpTracker) (hall : T.peers.length ≤ 246) (past : ℕ → UInt8) :
    T.dialled past = T.peers := by
  rw [UdpTracker.dialled, List.getElem?_eq_none hall, List.take_of_length_le hall]
  simp

/-- What `rawConnectPeers` does with the part of the list that is received. -/
theorem UdpTracker.rawConnectPeers_eq (T : UdpTracker) (past : ℕ → UInt8) (s : Dialler) :
    rawConnectPeers past s ((T.peers.flatMap PeerInfo.record).take 1480) =
      (T.dialled past).foldl dial s := by
  by_cases hall : T.peers.length ≤ 246
  · have htake : (T.peers.flatMap PeerInfo.record).take 1480 =
        T.peers.flatMap PeerInfo.record :=
      List.take_of_length_le (by rw [length_flatMap_record]; omega)
    rw [htake, T.dialled_eq hall]
    exact rawConnectPeers_of_records rfl (by rw [length_flatMap_record]; omega)
  · -- the buffer ends behind the address of the peer at 246
    obtain ⟨p, hp⟩ : ∃ p, T.peers[246]? = some p :=
      ⟨_, List.getElem?_eq_getElem (Nat.not_le.1 hall)⟩
    have hfirst : (T.peers.take 246).length = 246 := by
      rw [List.length_take]
      omega
    have hsplit : T.peers = T.peers.take 246 ++ p :: T.peers.drop 247 := by
      conv_lhs => rw [← List.take_append_drop 246 T.peers]
      rw [List.drop_eq_getElem_cons (Nat.not_le.1 hall)]
      rw [List.getElem?_eq_getElem (Nat.not_le.1 hall), Option.some.injEq] at hp
      rw [hp]
    have hbytes : T.peers.flatMap PeerInfo.record =
        ((T.peers.take 246).flatMap PeerInfo.record ++ writeLE32 p.ip) ++
          (writeBE16 p.port ++ (T.peers.drop 247).flatMap PeerInfo.record) := by
      conv_lhs => rw [hsplit]
      rw [List.flatMap_append, List.flatMap_cons, PeerInfo.record]
      simp only [List.append_assoc]
    have hlength : ((T.peers.take 246).flatMap PeerInfo.record ++ writeLE32 p.ip).length =
        1480 := by
      rw [List.length_append, length_flatMap_record, hfirst, length_writeLE32]
    have hmemory : (T.peers.take 246).flatMap PeerInfo.record ++ writeLE32 p.ip ++
        (List.range 5).map past =
        (T.dialled past).flatMap PeerInfo.record ++ [past 2, past 3, past 4] := by
      rw [UdpTracker.dialled, hp]
      simp only [Option.toList_some, List.map_cons, List.map_nil, List.flatMap_append,
        List.flatMap_cons, List.flatMap_nil, PeerInfo.record, writeBE16_readBE16, List.append_nil,
        List.append_assoc, List.append_cancel_left_eq]
      rfl
    rw [hbytes, List.take_left' hlength]
    refine rawConnectPeers_of_records hmemory ?_
    rw [hlength, UdpTracker.dialled, hp]
    simp [hfirst]

/-! ### The polls -/

namespace Tracker

variable {T : UdpTracker} {tracker : Tracker} {handshake peerId : Bytes} {r : TrackerQuery}
  {tx : UInt32} {a : UdpAnswers} {k j n : ℕ} {d : Bytes}

open UdpTracker

/-- An answer that is late is as good as none. -/
theorem datagrams_late (x : Option Bytes) (h : n ≤ k) :
    datagrams (arriving k x) 0 n = List.replicate n [] := by
  refine List.eq_replicate_iff.2 ⟨by simp [datagrams], fun c hc => ?_⟩
  obtain ⟨i, hi, rfl⟩ := List.mem_map.1 hc
  have hlt := (List.mem_range'_1.1 hi).2
  rw [arriving, if_neg (by omega)]
  rfl

/-- An answer in time is the only datagram which is not empty. -/
theorem find?_datagrams (h : k < n) (hd : 16 ≤ d.length) :
    (datagrams (arriving k (some d)) 0 n).find? (fun d => 16 ≤ d.length) = some d := by
  have hmem : d ∈ datagrams (arriving k (some d)) 0 n :=
    List.mem_map.2 ⟨k, List.mem_range'_1.2 ⟨Nat.zero_le k, by omega⟩, by simp [arriving]⟩
  obtain ⟨c, hc⟩ : ∃ c, (datagrams (arriving k (some d)) 0 n).find? (fun d => 16 ≤ d.length) =
      some c :=
    Option.isSome_iff_exists.1 (List.find?_isSome.2 ⟨d, hmem, by simpa using hd⟩)
  have hlength : 16 ≤ c.length := by simpa using List.find?_some hc
  obtain ⟨i, -, hi⟩ := List.mem_map.1 (List.mem_of_find?_eq_some hc)
  rw [arriving] at hi
  split_ifs at hi
  · rw [hc, ← hi]
    rfl
  · rw [← hi] at hlength
    exact absurd hlength (by decide)

theorem flatten_datagrams (hk : k < n) :
    (datagrams (arriving k (some d)) 0 n).flatten = d := by
  have hpast : ∀ count tries, k < tries →
      (datagrams (arriving k (some d)) tries count).flatten = [] := by
    intro count
    induction count with
    | zero => exact fun _ _ => rfl
    | succ count ih =>
      intro tries htries
      rw [datagrams_succ, List.flatten_cons, ih _ (by omega), arriving, if_neg (by omega)]
      rfl
  have hahead : ∀ count tries, tries ≤ k → k < tries + count →
      (datagrams (arriving k (some d)) tries count).flatten = d := by
    intro count
    induction count with
    | zero => exact fun tries hle hlt => absurd hlt (by omega)
    | succ count ih =>
      intro tries hle hlt
      rw [datagrams_succ, List.flatten_cons, arriving]
      split_ifs with heq
      · rw [hpast count _ (by omega), List.append_nil]
        rfl
      · rw [ih _ (by omega) (by omega)]
        rfl
  exact hahead n 0 (Nat.zero_le k) (by omega)

/-! ### The connect request -/

theorem answer_connectRequest (T : UdpTracker) (tx : UInt32) :
    T.answer (connectRequest tx) = some (T.connectResponse tx) := by
  have hid : readBE64 (connectRequest tx) 0 = 0x41727101980 :=
    readBE64_writeBE64 _ [] (writeBE32 0 ++ writeBE32 tx)
  have haction : readBE32 (connectRequest tx) 8 = 0 :=
    readBE32_writeBE32 0 (writeBE64 0x41727101980) (writeBE32 tx)
  have htx : readBE32 (connectRequest tx) 12 = tx := by
    have h := readBE32_writeBE32 tx (writeBE64 0x41727101980 ++ writeBE32 0x00) []
    rwa [List.append_nil] at h
  rw [UdpTracker.answer, if_pos ⟨rfl, hid, haction⟩, htx]

theorem read_connectResponse (T : UdpTracker) (tx : UInt32) :
    readBE32 (T.connectResponse tx) 0 = 0 ∧ readBE32 (T.connectResponse tx) 4 = tx ∧
      readBE64 (T.connectResponse tx) 8 = T.connectionId := by
  refine ⟨readBE32_writeBE32 0 [] (writeBE32 tx ++ writeBE64 T.connectionId),
    readBE32_writeBE32 tx (writeBE32 0) (writeBE64 T.connectionId), ?_⟩
  have h := readBE64_writeBE64 T.connectionId (writeBE32 0 ++ writeBE32 tx) []
  rwa [List.append_nil] at h

/-- Without an answer the buffer still holds the request, whose first bytes are not an action. -/
theorem udpRequest_late (hresolve : a.resolveError = none) (hsent : a.connectSent = some 16)
    (hconnect : a.connect = arriving k (T.answer (connectRequest tx))) (hk : 10 ≤ k) :
    tracker.udpRequest handshake peerId r tx a =
      .fail (.connect (connectRequest tx) :: List.replicate 10 (.receive []))
        "action mismatch" := by
  have hloop : connectLoop a.connect 10 0 0 (connectRequest tx) =
      (connectRequest tx, List.replicate 10 []) := by
    have hds := datagrams_late (T.answer (connectRequest tx)) hk
    rw [hconnect, connectLoop_short (by decide) (by simp [hds]), hds]
    rfl
  have haction : readBE32 (connectRequest tx) 0 ≠ 0 := by
    have h : readBE32 (connectRequest tx) 0 = 0x417 :=
      readBE32_writeBE32 0x417 [] (writeBE32 0x27101980 ++ writeBE32 0 ++ writeBE32 tx)
    rw [h]
    decide
  rw [udpRequest, hresolve]
  dsimp only
  rw [if_neg (by simp [hsent]), if_neg (not_not.2 hsent), hloop, if_pos haction,
    List.map_replicate]
  rfl

/-- An answer in time is followed by the announce. -/
theorem udpRequest_connected (tracker : Tracker) (handshake peerId : Bytes) (r : TrackerQuery)
    (hresolve : a.resolveError = none) (hsent : a.connectSent = some 16)
    (hconnect : a.connect = arriving k (T.answer (connectRequest tx))) (hk : k < 10) :
    ∃ got : List Bytes, tracker.udpRequest handshake peerId r tx a =
      udpAnnounce a tx (tracker.announceRequest handshake peerId r T.connectionId tx)
        (.connect (connectRequest tx) :: got.map .receive) := by
  obtain ⟨haction, htx, hid⟩ := read_connectResponse T tx
  rw [answer_connectRequest] at hconnect
  have htake : (T.connectResponse tx).take 16 = T.connectResponse tx := rfl
  obtain ⟨short, hloop, -⟩ := connectLoop_complete 0 0 (connectRequest tx) (by decide) rfl
    (find?_datagrams hk (d := T.connectResponse tx) (Nat.le_of_eq rfl))
  rw [← hconnect, htake] at hloop
  refine ⟨short ++ [T.connectResponse tx], ?_⟩
  rw [udpRequest, hresolve]
  dsimp only
  rw [if_neg (by simp [hsent]), if_neg (not_not.2 hsent), hloop, if_neg (not_not.2 haction),
    if_neg (not_not.2 htx), hid]
  rfl

/-! ### The announce -/

theorem answer_announceRequest (T : UdpTracker) (tracker : Tracker) (r : TrackerQuery)
    (tx : UInt32) (hhandshake : handshake.length = 68) (hpeerId : peerId.length = 20) :
    T.answer (tracker.announceRequest handshake peerId r T.connectionId tx) =
      some (T.announceResponse tx) := by
  obtain ⟨hhears, htx⟩ := hears_announceRequest T tracker r tx hhandshake hpeerId
  have hlength : (tracker.announceRequest handshake peerId r T.connectionId tx).length ≠ 16 := by
    rw [announceRequest_eq, List.length_flatten, announceFields_length hhandshake hpeerId]
    decide
  rw [UdpTracker.answer, if_neg fun h => hlength h.1, hhears, htx]
  rfl

/-- What is received of the answer to the announce. -/
theorem read_announceResponse (T : UdpTracker) (tx : UInt32) :
    20 ≤ ((T.announceResponse tx).take 1500).length ∧
      readBE32 ((T.announceResponse tx).take 1500) 0 = 1 ∧
      readBE32 ((T.announceResponse tx).take 1500) 4 = tx ∧
      readBE32 ((T.announceResponse tx).take 1500) 8 = T.interval ∧
      ((T.announceResponse tx).take 1500).drop 20 =
        (T.peers.flatMap PeerInfo.record).take 1480 := by
  have htake : (T.announceResponse tx).take 1500 =
      writeBE32 1 ++ writeBE32 tx ++ writeBE32 T.interval ++ writeBE32 T.leechers ++
        writeBE32 T.seeders ++ (T.peers.flatMap PeerInfo.record).take 1480 := by
    rw [announceResponse, List.take_append]
    rfl
  rw [htake]
  generalize (T.peers.flatMap PeerInfo.record).take 1480 = peers
  refine ⟨?_, ?_, ?_, ?_, rfl⟩
  · simp only [List.length_append, length_writeBE32]
    omega
  · exact readBE32_writeBE32 1 [] _
  · exact readBE32_writeBE32 tx (writeBE32 1) _
  · exact readBE32_writeBE32 T.interval (writeBE32 1 ++ writeBE32 tx) _

theorem udpAnnounce_late {re : Bytes} {events : List UdpEvent} (hsent : a.announceSent = some 98)
    (hannounce : a.announce = arriving j (some d)) (hj : 15 ≤ j) :
    udpAnnounce a tx re events =
      .fail (events ++ .announce re :: List.replicate 15 (.receive []))
        "expected at least 20 bytes response" := by
  have hloop : announceLoop a.announce 15 0 [] = ([], List.replicate 15 []) := by
    rw [announceLoop_eq, hannounce, datagrams_late _ hj]
    rfl
  rw [udpAnnounce, if_neg (by simp [hsent]), if_neg (not_not.2 hsent), hloop, if_pos (by decide),
    List.append_assoc, List.map_replicate]
  rfl

theorem udpAnnounce_answered {re : Bytes} {events : List UdpEvent}
    (hsent : a.announceSent = some 98)
    (hannounce : a.announce = arriving j (some (T.announceResponse tx))) (hj : j < 15) :
    ∃ got : List Bytes, udpAnnounce a tx re events =
      ⟨some true, events ++ .announce re :: (got.map .receive ++ [.timeToNextRequest T.interval,
        .rawConnectPeers ((T.peers.flatMap PeerInfo.record).take 1480)])⟩ := by
  obtain ⟨hlength, haction, htx, hinterval, hpeers⟩ := read_announceResponse T tx
  have hloop := announceLoop_eq a.announce 15 0 []
  rw [List.length_nil, Nat.sub_zero, List.nil_append, flatten_chop, hannounce,
    flatten_datagrams hj, ← hannounce] at hloop
  refine ⟨chop 1500 (datagrams a.announce 0 15), ?_⟩
  rw [udpAnnounce, if_neg (by simp [hsent]), if_neg (not_not.2 hsent)]
  simp only [hloop]
  rw [if_neg (Nat.not_lt.2 hlength), if_neg (not_not.2 haction), if_neg (not_not.2 htx), hinterval,
    hpeers]
  simp only [List.append_assoc, List.cons_append, List.nil_append]

/-- An announce that is begun is sent. -/
theorem announce_mem (re : Bytes) (events : List UdpEvent) :
    .announce re ∈ (udpAnnounce a tx re events).events := by
  rw [udpAnnounce]
  dsimp only
  split_ifs <;> simp [UdpRun.fail]

/-- Once the host is resolved, the connect request is sent. -/
theorem connect_mem (hresolve : a.resolveError = none) :
    .connect (connectRequest tx) ∈ (tracker.udpRequest handshake peerId r tx a).events := by
  have hbehind : ∀ re sofar, UdpEvent.connect (connectRequest tx) ∈ sofar →
      UdpEvent.connect (connectRequest tx) ∈ (udpAnnounce a tx re sofar).events := by
    intro re sofar hmem
    rw [udpAnnounce]
    dsimp only
    split_ifs <;> simp [UdpRun.fail, hmem]
  rw [udpRequest, hresolve]
  dsimp only
  split_ifs
  · simp
  · simp [UdpRun.fail]
  · simp [UdpRun.fail]
  · simp [UdpRun.fail]
  · exact hbehind _ _ (by simp)

/-! ### The conversation -/

/-- **A conversation with a tracker.** Where the answer to the connect request is not there at the
tenth poll, the request fails on the bytes of the connect request itself and nothing is announced.
Otherwise the tracker hears what the torrent has to announce. Where its answer is not there at the
fifteenth poll, the request fails; otherwise the tracker's interval is taken and its peers are
dialled: all of them if they are 246 at most, and else the first 246 and one with a wrong port. -/
theorem udpRequest_answered (T : UdpTracker) (tracker : Tracker) (handshake peerId : Bytes)
    (r : TrackerQuery) (tx : UInt32) (a : UdpAnswers) (k j : ℕ) (hhandshake : handshake.length = 68)
    (hpeerId : peerId.length = 20)
    (h : T.Answered k j a (tracker.udpRequest handshake peerId r tx a).events) :
    (10 ≤ k → tracker.udpRequest handshake peerId r tx a =
      .fail (.connect (connectRequest tx) :: List.replicate 10 (.receive []))
        "action mismatch") ∧
    (k < 10 → ∃ (got : List Bytes) (re : Bytes),
      T.hears re = some
        { infoHash := region handshake 28 20
          peerId := peerId
          downloaded := UInt64.ofNat r.downloaded
          left := UInt64.ofNat r.remaining
          uploaded := UInt64.ofNat r.uploaded
          event := r.event.code
          port := tracker.tport } ∧
      (15 ≤ j → tracker.udpRequest handshake peerId r tx a =
        .fail (.connect (connectRequest tx) :: got.map .receive ++
            .announce re :: List.replicate 15 (.receive []))
          "expected at least 20 bytes response") ∧
      (j < 15 → ∃ (response : List Bytes) (peers : Bytes),
        tracker.udpRequest handshake peerId r tx a =
          ⟨some true, .connect (connectRequest tx) :: got.map .receive ++
            .announce re :: (response.map .receive ++
              [.timeToNextRequest T.interval, .rawConnectPeers peers])⟩ ∧
        (∀ past s, Dialler.rawConnectPeers past s peers = (T.dialled past).foldl Dialler.dial s) ∧
        (T.peers.length ≤ 246 → ∀ past, T.dialled past = T.peers))) := by
  have hsent : UdpEvent.connect (connectRequest tx) ∈
      (tracker.udpRequest handshake peerId r tx a).events := connect_mem h.resolveError
  refine ⟨fun hk => ?_, fun hk => ?_⟩
  · exact udpRequest_late h.resolveError h.connectSent (h.connect _ hsent) hk
  · obtain ⟨got, hrun⟩ := udpRequest_connected tracker handshake peerId r h.resolveError
      h.connectSent (h.connect _ hsent) hk
    have hannounced : UdpEvent.announce
        (tracker.announceRequest handshake peerId r T.connectionId tx) ∈
        (tracker.udpRequest handshake peerId r tx a).events := hrun ▸ announce_mem _ _
    have hannounce := h.announce _ hannounced
    rw [answer_announceRequest T tracker r tx hhandshake hpeerId] at hannounce
    obtain ⟨hhears, -⟩ := hears_announceRequest T tracker r tx hhandshake hpeerId
    refine ⟨got, _, hhears, fun hj => ?_, fun hj => ?_⟩
    · rw [hrun]
      exact udpAnnounce_late h.announceSent hannounce hj
    · obtain ⟨response, hanswered⟩ := udpAnnounce_answered h.announceSent hannounce hj
      exact ⟨response, _, hrun.trans hanswered, T.rawConnectPeers_eq, T.dialled_eq⟩

/-- What the socket does when the tracker's answers arrive at the polls `k` and `j`. -/
def conversation (T : UdpTracker) (tracker : Tracker) (handshake peerId : Bytes) (r : TrackerQuery)
    (tx : UInt32) (k j : ℕ) : UdpAnswers where
  connect := arriving k (T.answer (connectRequest tx))
  announce := arriving j (T.answer (tracker.announceRequest handshake peerId r T.connectionId tx))

/-- In a conversation each datagram is answered. -/
theorem answered_conversation (hhandshake : handshake.length = 68) (hpeerId : peerId.length = 20) :
    T.Answered k j (conversation T tracker handshake peerId r tx k j)
      (tracker.udpRequest handshake peerId r tx
        (conversation T tracker handshake peerId r tx k j)).events := by
  generalize ha : conversation T tracker handshake peerId r tx k j = a
  have hconnect : a.connect = arriving k (T.answer (connectRequest tx)) := ha ▸ rfl
  have hannounce : a.announce =
      arriving j (T.answer (tracker.announceRequest handshake peerId r T.connectionId tx)) :=
    ha ▸ rfl
  have hresolve : a.resolveError = none := ha ▸ rfl
  have hsent : a.connectSent = some 16 := ha ▸ rfl
  have hsent' : a.announceSent = some 98 := ha ▸ rfl
  have hanswer := answer_announceRequest T tracker r tx hhandshake hpeerId
  -- the only datagrams that are sent are the request and the announce
  suffices h : ∀ e ∈ (tracker.udpRequest handshake peerId r tx a).events,
      (∀ d, e = .connect d → d = connectRequest tx) ∧
        ∀ d, e = .announce d → d = tracker.announceRequest handshake peerId r T.connectionId tx from
    ⟨hresolve, hsent, hsent', fun d hd => (h _ hd).1 d rfl ▸ hconnect,
      fun d hd => (h _ hd).2 d rfl ▸ hannounce⟩
  intro e he
  by_cases hk : k < 10
  · obtain ⟨got, hrun⟩ := udpRequest_connected tracker handshake peerId r hresolve hsent
      hconnect hk
    rw [hanswer] at hannounce
    by_cases hj : j < 15
    · obtain ⟨response, hanswered⟩ := udpAnnounce_answered hsent' hannounce hj
      rw [hrun, hanswered] at he
      simp only [List.cons_append, List.mem_cons, List.mem_append, List.mem_map, List.not_mem_nil,
        or_false] at he
      rcases he with rfl | ⟨c, -, rfl⟩ | rfl | ⟨c, -, rfl⟩ | rfl | rfl <;> simp
    · rw [hrun, udpAnnounce_late hsent' hannounce (Nat.not_lt.1 hj)] at he
      simp only [UdpRun.fail, List.cons_append, List.mem_cons, List.mem_append, List.mem_map,
        List.mem_replicate, List.not_mem_nil, or_false] at he
      rcases he with rfl | (⟨c, -, rfl⟩ | rfl | ⟨-, rfl⟩) | rfl <;> simp
  · rw [udpRequest_late hresolve hsent hconnect (Nat.not_lt.1 hk)] at he
    simp only [UdpRun.fail, List.cons_append, List.mem_cons, List.mem_append, List.mem_replicate,
      List.not_mem_nil, or_false] at he
    rcases he with rfl | ⟨-, rfl⟩ | rfl <;> simp

/-- A tracker with one peer. -/
def onePeerTracker : UdpTracker := ⟨0x102030405060708, 1800, 0, 1, [webPeer]⟩

/-- Its answers arrive at the second poll and at the third one, and the peer is dialled. -/
theorem udpRequest_answered_onePeer :
    ∃ (sofar : List UdpEvent) (peers : Bytes),
      udpRequest ⟨.udp, 6881, [], []⟩ (List.replicate 68 0) (List.replicate 20 0)
          ⟨.started, 0, 0, 0⟩ 7
          (conversation onePeerTracker ⟨.udp, 6881, [], []⟩ (List.replicate 68 0)
            (List.replicate 20 0) ⟨.started, 0, 0, 0⟩ 7 1 2) =
        ⟨some true, sofar ++ [.timeToNextRequest 1800, .rawConnectPeers peers]⟩ ∧
      ∀ past s, Dialler.rawConnectPeers past s peers = Dialler.dial s webPeer := by
  have hhandshake : (List.replicate 68 (0 : UInt8)).length = 68 := List.length_replicate
  have hpeerId : (List.replicate 20 (0 : UInt8)).length = 20 := List.length_replicate
  obtain ⟨got, re, -, -, hanswered⟩ := (udpRequest_answered onePeerTracker ⟨.udp, 6881, [], []⟩ _ _
    ⟨.started, 0, 0, 0⟩ 7 _ 1 2 hhandshake hpeerId
    (answered_conversation hhandshake hpeerId)).2 (by decide)
  obtain ⟨response, peers, hrun, hpeers, hall⟩ := hanswered (by decide)
  refine ⟨.connect (connectRequest 7) :: got.map .receive ++
    .announce re :: response.map .receive, peers, ?_, fun past s => ?_⟩
  · rw [hrun]
    simp [onePeerTracker]
  · rw [hpeers, hall (by decide)]
    rfl

end Tracker

end CTorrent
