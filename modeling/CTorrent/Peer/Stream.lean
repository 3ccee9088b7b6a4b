import CTorrent.Lib.Framing
import CTorrent.Peer.Handshake
import CTorrent.Peer.Wire

/-!
# From the bytes of a connection to its messages

`Connection::read` asks for a number of bytes and calls back with them. The callbacks ask on: for a
handshake of 68 bytes, then for a length of four bytes and for so many bytes, again and again, until
an error. What arrives is cut into segments by the network.

* `Inbound`: a peer and what it reads next; `Inbound.machine`: the callbacks;
* `arrivalsOf`: the handshake and the messages that a stream of bytes consists of;
* `drain_messages`: what is handled behind the handshake;
* `read_stream`: a peer handles the arrivals of its stream, however the stream is cut;
* `exchange_stream`: two sides with the same torrent, from the messages that one sends to those that
  the other handles.
-/

namespace CTorrent

open Framing

/-- A peer whose connection is read. `left` is the length that `handle` has read of a message whose
bytes are awaited, and 0 while a length is awaited. `arrivals` is what was handled. -/
structure Inbound where
  greeting : Greeting
  left : ℕ := 0
  arrivals : List Arrival := []

namespace Inbound

variable (random stack : ℕ → UInt8) (sha1 : Bytes → Sha1sum) (human : ℕ → String) (side : Side)

/-- The number of bytes that `Connection::read` was called with. -/
def want (x : Inbound) : Option ℕ :=
  x.greeting.reading.map fun
    | .handshake => 68
    | .messages => if x.left = 0 then 4 else x.left

/-- An arrival is handled. Where the handler divides by zero nothing more is read. -/
def arrive (x : Inbound) (a : Arrival) : Inbound :=
  match x.greeting.step random stack sha1 human side a with
  | none => { greeting := { x.greeting with reading := none }, arrivals := x.arrivals }
  | some g => { greeting := g, arrivals := x.arrivals ++ [a] }

/-- The callback of a read: the handler of the handshake, `Peer::handle`, or the callback in it. -/
def take (x : Inbound) (bytes : Bytes) : Inbound :=
  match x.greeting.reading with
  | none => x
  | some .handshake => x.arrive random stack sha1 human side (.handshake bytes)
  | some .messages =>
      if x.left = 0 then { x with left := (readBE32 bytes 0).toNat }
      else
        match bytes with
        | [] => x
        | type :: payload => x.arrive random stack sha1 human side (.message type payload)

/-- The connection as a reader of the stream. -/
def machine : Machine Inbound UInt8 where
  want := want
  take := take random stack sha1 human side
  want_pos := by
    intro x n h
    obtain ⟨r, -, rfl⟩ := Option.map_eq_some_iff.1 h
    cases r with
    | handshake => exact Nat.succ_pos _
    | messages =>
      by_cases hleft : x.left = 0
      · simp [hleft]
      · simpa [hleft] using Nat.pos_of_ne_zero hleft

end Inbound

/-! ### What a stream consists of -/

/-- What is handled of a frame. -/
def Frame.arrival : Frame → Option Arrival
  | .keepAlive => none
  | .message type payload => some (.message type payload)

/-- The messages in a stream, without an incomplete one at its end. -/
def messagesOf (bytes : Bytes) : List Arrival :=
  (frames bytes.length bytes).1.filterMap Frame.arrival

/-- The handshake and the messages behind it, as far as they are complete. -/
def arrivalsOf (bytes : Bytes) : List Arrival :=
  if bytes.length < 68 then [] else .handshake (bytes.take 68) :: messagesOf (bytes.drop 68)

/-- The length in front of a text is that of its first four bytes. -/
theorem readBE32_take (bytes : Bytes) : readBE32 (bytes.take 4) 0 = readBE32 bytes 0 := by
  rw [readBE32_eq_iff]
  intro j hj
  have hword : byteAt bytes (0 + j) = byteAt (writeBE32 (readBE32 bytes 0)) j :=
    readBE32_eq_iff.1 rfl j hj
  rw [← hword, Nat.zero_add, byteAt, byteAt, List.getElem?_take_of_lt hj]

/-- Bytes that are no frame yet: the length is not complete, or what follows it is not. -/
theorem handleFrame_eq_none {bytes : Bytes} (h : handleFrame bytes = none) :
    bytes.length < 4 ∨ 4 ≤ bytes.length ∧ (readBE32 bytes 0).toNat ≠ 0 ∧
      (bytes.drop 4).length < (readBE32 bytes 0).toNat := by
  unfold handleFrame at h
  by_cases h4 : bytes.length < 4
  · exact Or.inl h4
  · rw [if_neg h4] at h
    dsimp only at h
    split_ifs at h with h0 hshort
    · exact Or.inr ⟨Nat.not_lt.1 h4, h0, hshort⟩
    · split at h
      · rename_i hnil
        have hlen := congrArg List.length hnil
        rw [List.length_take, List.length_nil] at hlen
        omega
      · cases h

/-- A frame in front of a text: a length, and so many bytes. -/
theorem handleFrame_eq_some {bytes rest : Bytes} {frame : Frame}
    (h : handleFrame bytes = some (frame, rest)) :
    ∃ word body, bytes = word ++ (body ++ rest) ∧ word.length = 4 ∧
      (readBE32 word 0).toNat = body.length ∧
      (frame = .keepAlive ∧ body = [] ∨
        ∃ type payload, frame = .message type payload ∧ body = type :: payload) := by
  unfold handleFrame at h
  split_ifs at h with h4
  dsimp only at h
  have hword : (bytes.take 4).length = 4 := List.length_take_of_le (Nat.not_lt.1 h4)
  split_ifs at h with h0 hshort
  · cases h
    refine ⟨bytes.take 4, [], ?_, hword, ?_, Or.inl ⟨rfl, rfl⟩⟩
    · rw [List.nil_append, List.take_append_drop]
    · rw [readBE32_take, h0]
      rfl
  · split at h
    · cases h
    · rename_i type payload hbody
      cases h
      have hlen := congrArg List.length hbody
      rw [List.length_take_of_le (Nat.not_lt.1 hshort)] at hlen
      refine ⟨bytes.take 4, type :: payload, ?_, hword, ?_, Or.inr ⟨type, payload, rfl, rfl⟩⟩
      · rw [← List.drop_drop, ← hbody, List.take_append_drop, List.take_append_drop]
      · rw [readBE32_take, hlen]

/-- A frame is taken off whatever arrives behind it. -/
theorem handleFrame_append {bytes rest : Bytes} {frame : Frame}
    (h : handleFrame bytes = some (frame, rest)) (more : Bytes) :
    handleFrame (bytes ++ more) = some (frame, rest ++ more) := by
  obtain ⟨word, body, rfl, hword, hlen, hkind⟩ := handleFrame_eq_some h
  have hall : word ++ (body ++ rest) ++ more = word ++ (body ++ (rest ++ more)) := by
    simp only [List.append_assoc]
  have htake : (word ++ (body ++ (rest ++ more))).take 4 = word := by rw [← hword, List.take_left]
  have hdrop : (word ++ (body ++ (rest ++ more))).drop 4 = body ++ (rest ++ more) := by
    rw [← hword, List.drop_left]
  rw [hall, handleFrame, if_neg (by rw [List.length_append]; omega)]
  simp only [← List.drop_drop, ← readBE32_take (word ++ _), htake, hdrop, hlen]
  rcases hkind with ⟨rfl, rfl⟩ | ⟨type, payload, rfl, rfl⟩
  · rfl
  · rw [if_neg (by simp), if_neg (by simp), List.take_left, List.drop_left]

/-- What has arrived of a stream consists of its first frames. -/
theorem frames_prefix {fuel fuel' : ℕ} {bytes more : Bytes} (hfuel : bytes.length ≤ fuel)
    (hfuel' : (bytes ++ more).length ≤ fuel') :
    (frames fuel bytes).1 <+: (frames fuel' (bytes ++ more)).1 := by
  induction fuel generalizing fuel' bytes with
  | zero => exact List.nil_prefix
  | succ fuel ih =>
    rw [frames]
    cases hframe : handleFrame bytes with
    | none => exact List.nil_prefix
    | some r =>
      obtain ⟨frame, rest⟩ := r
      have happend := handleFrame_append hframe more
      obtain ⟨word, body, rfl, hword, -⟩ := handleFrame_eq_some hframe
      simp only [List.length_append, hword] at hfuel hfuel'
      obtain ⟨fuel', rfl⟩ : ∃ n, fuel' = n + 1 := ⟨fuel' - 1, by omega⟩
      rw [frames, happend]
      refine List.cons_prefix_cons.2 ⟨rfl, ih (by omega) ?_⟩
      rw [List.length_append]
      omega

/-- What has arrived of a stream consists of its first messages. -/
theorem arrivalsOf_prefix {bytes stream : Bytes} (h : bytes <+: stream) :
    arrivalsOf bytes <+: arrivalsOf stream := by
  obtain ⟨more, rfl⟩ := h
  unfold arrivalsOf
  by_cases hshort : bytes.length < 68
  · rw [if_pos hshort]
    exact List.nil_prefix
  · have hle : 68 ≤ bytes.length := Nat.not_lt.1 hshort
    rw [if_neg hshort, if_neg (by rw [List.length_append]; omega),
      List.take_append_of_le_length hle, List.drop_append_of_le_length hle]
    exact List.cons_prefix_cons.2 ⟨rfl, ( frames_prefix le_rfl le_rfl).filterMap _⟩

theorem Torrent.length_handshake (random : ℕ → UInt8) (t : Torrent) :
    (t.handshake random).length = 68 := by
  simp [handshake, t.length_infoHash, protocolName, key]

/-- What is handled of a message that was sent. -/
def Message.arrival (msg : Message) : Option Arrival := msg.frame.arrival

/-- A handshake of ours, and messages as they are sent, are taken apart. -/
theorem arrivalsOf_sent (random : ℕ → UInt8) (t : Torrent) {msgs : List Message}
    (h : ∀ msg ∈ msgs, msg.Sendable) :
    arrivalsOf (t.handshake random ++ (msgs.map Message.bytes).flatten) =
      .handshake (t.handshake random) :: msgs.filterMap Message.arrival := by
  have hlen := t.length_handshake random
  rw [arrivalsOf, if_neg (by rw [List.length_append]; omega), ← hlen, List.take_left,
    List.drop_left, messagesOf, frames_flatten h (length_le_flatten msgs), List.filterMap_map]
  rfl

/-! ### One arrival after the other -/

namespace Inbound

variable {random stack : ℕ → UInt8} {sha1 : Bytes → Sha1sum} {human : ℕ → String} {side : Side}

variable {x : Inbound}

/-- A peer that reads nothing handles nothing. -/
theorem foldl_arrive_of_closed (h : x.greeting.reading = none) (hleft : x.left = 0)
    (arrivals : List Arrival) :
    arrivals.foldl (arrive random stack sha1 human side) x = x := by
  induction arrivals with
  | nil => rfl
  | cons a arrivals ih =>
    have hstep : x.greeting.step random stack sha1 human side a = none := by
      cases a <;> simp [Greeting.step, h]
    have harrive : x.arrive random stack sha1 human side a = x := by
      simp only [arrive, hstep, ← h, ← hleft]
    rw [List.foldl_cons, harrive, ih]

/-- What is read next by a connection that was reading nothing. -/
theorem reading_read {g : Greeting} (h : g.reading = none) :
    (g.read .messages).reading = none ∨ (g.read .messages).reading = some .messages := by
  unfold Greeting.read
  split_ifs
  · exact Or.inr rfl
  · exact Or.inl h

/-- Behind a handshake messages are read, unless the connection is closed. -/
theorem reading_onHandshake {g : Greeting} (h : g.reading = none) (handshake : Bytes) :
    (g.onHandshake random stack side handshake).reading = none ∨
      (g.onHandshake random stack side handshake).reading = some .messages := by
  have hcases (unverified : String) (accept : Greeting → Greeting) :
      _ ∨ _ ∧ ∃ errmsg, g.receiveHandshake random unverified accept handshake = _ :=
    Greeting.receiveHandshake_cases unverified accept
  cases side with
  | outgoing =>
    rw [Greeting.onHandshake]
    rcases hcases "peer id mismatch: unverified" (Greeting.acceptOutgoing stack) with
      ⟨-, heq⟩ | ⟨-, errmsg, heq⟩
    · rw [heq]
      exact reading_read h
    · rw [heq]
      exact Or.inl h
  | incoming =>
    rw [Greeting.onHandshake]
    rcases hcases "unverified" (Greeting.acceptIncoming random stack) with
      ⟨-, heq⟩ | ⟨-, errmsg, heq⟩
    · rw [heq, Greeting.acceptIncoming]
      refine reading_read ?_
      unfold Greeting.write
      split_ifs <;> exact h
    · rw [heq]
      exact Or.inl h

variable (random stack sha1 human side) in
/-- Whatever arrives, messages are read behind it, unless the connection is closed. -/
theorem arrive_reading (x : Inbound) (a : Arrival) :
    let y := x.arrive random stack sha1 human side a
    y.left = 0 ∧ (y.greeting.reading = none ∨ y.greeting.reading = some .messages) := by
  intro y
  cases hstep : x.greeting.step random stack sha1 human side a with
  | none => simp [y, arrive, hstep]
  | some g =>
    simp only [y, arrive, hstep, true_and]
    cases a with
    | handshake bytes =>
      simp only [Greeting.step] at hstep
      split_ifs at hstep
      cases hstep
      exact reading_onHandshake rfl bytes
    | message type payload =>
      simp only [Greeting.step] at hstep
      split_ifs at hstep
      obtain ⟨s, -, rfl⟩ := Option.map_eq_some_iff.1 hstep
      exact reading_read rfl

/-- Where nothing is read nothing is taken. -/
theorem drain_of_closed (h : x.greeting.reading = none) (bytes : Bytes) :
    (machine random stack sha1 human side).drain x bytes = (x, bytes) := by
  refine Machine.drain_of_stuck fun n hn => ?_
  have hwant : x.want = some n := hn
  rw [want, h] at hwant
  cases hwant

/-- The callback of a read of four bytes. -/
theorem take_length (hreading : x.greeting.reading = some .messages) (hleft : x.left = 0)
    (word : Bytes) :
    x.take random stack sha1 human side word = { x with left := (readBE32 word 0).toNat } := by
  simp only [take, hreading, hleft, if_pos]

/-- The callback of the read behind it. -/
theorem take_body (hreading : x.greeting.reading = some .messages) (hleft : x.left ≠ 0)
    (type : UInt8) (payload : Bytes) :
    x.take random stack sha1 human side (type :: payload) =
      x.arrive random stack sha1 human side (.message type payload) := by
  simp only [take, hreading, if_neg hleft]

variable (random stack sha1 human side) in
/-- Four bytes are read, and the length in them is awaited. -/
theorem drain_length (hreading : x.greeting.reading = some .messages) (hleft : x.left = 0)
    {word : Bytes} (hword : word.length = 4) (rest : Bytes) :
    (machine random stack sha1 human side).drain x (word ++ rest) =
      (machine random stack sha1 human side).drain { x with left := (readBE32 word 0).toNat }
        rest := by
  have hwant : (machine random stack sha1 human side).want x = some 4 := by
    simp [machine, want, hreading, hleft]
  rw [Machine.drain_of_want hwant hword]
  change Machine.drain _ (x.take random stack sha1 human side word) rest = _
  rw [take_length hreading hleft]

variable (random stack sha1 human side) in
/-- As many bytes are read as are awaited, and handled. -/
theorem drain_body (hreading : x.greeting.reading = some .messages) {type : UInt8}
    {payload : Bytes} (hleft : x.left = (type :: payload).length) (rest : Bytes) :
    (machine random stack sha1 human side).drain x (type :: payload ++ rest) =
      (machine random stack sha1 human side).drain
        (x.arrive random stack sha1 human side (.message type payload)) rest := by
  have hne : x.left ≠ 0 := by
    rw [hleft, List.length_cons]
    exact Nat.succ_ne_zero _
  have hwant : (machine random stack sha1 human side).want x = some x.left := by
    simp [machine, want, hreading, hne]
  rw [Machine.drain_of_want hwant hleft.symm]
  change Machine.drain _ (x.take random stack sha1 human side (type :: payload)) rest = _
  rw [take_body hreading hne]

/-- **Behind the handshake.** A peer that awaits a length handles the messages of the stream. -/
theorem drain_messages {fuel : ℕ} {bytes : Bytes} (hfuel : bytes.length ≤ fuel)
    (hreading : x.greeting.reading = some .messages) (hleft : x.left = 0) :
    ∃ left, ((machine random stack sha1 human side).drain x bytes).1 =
      { ((frames fuel bytes).1.filterMap Frame.arrival).foldl
          (arrive random stack sha1 human side) x with left := left } := by
  induction fuel generalizing x bytes with
  | zero =>
    obtain rfl := List.length_eq_zero_iff.1 (Nat.le_zero.1 hfuel)
    exact ⟨x.left, rfl⟩
  | succ fuel ih =>
    rw [frames]
    cases hframe : handleFrame bytes with
    | none =>
      rcases handleFrame_eq_none hframe with h4 | ⟨h4, h0, hshort⟩
      · rw [Machine.drain_of_stuck]
        · exact ⟨x.left, rfl⟩
        · intro n hn
          simp only [machine, want, hreading, hleft, Option.map_some, if_pos] at hn
          cases hn
          exact h4
      · -- the length is taken, but what follows is not complete
        have hdrain := drain_length random stack sha1 human side hreading hleft
          (List.length_take_of_le h4) (bytes.drop 4)
        rw [List.take_append_drop, readBE32_take] at hdrain
        rw [hdrain, Machine.drain_of_stuck]
        · exact ⟨_, rfl⟩
        · intro n hn
          simp only [machine, want, hreading, if_neg h0, Option.map_some] at hn
          cases hn
          exact hshort
    | some r =>
      obtain ⟨frame, rest⟩ := r
      obtain ⟨word, body, rfl, hword, hlen, hkind⟩ := handleFrame_eq_some hframe
      have hrest : rest.length ≤ fuel := by
        simp only [List.length_append, hword] at hfuel
        omega
      rw [drain_length random stack sha1 human side hreading hleft hword, hlen]
      rcases hkind with ⟨rfl, rfl⟩ | ⟨type, payload, rfl, rfl⟩
      · -- the peer is as it was
        have hsame : { x with left := ([] : Bytes).length } = x := by
          rw [List.length_nil, ← hleft]
        rw [hsame]
        exact ih hrest hreading hleft
      · let x' : Inbound := { x with left := (type :: payload).length }
        have hreading' : x'.greeting.reading = some .messages := hreading
        have hlength : x'.left = (type :: payload).length := rfl
        have hbody := drain_body random stack sha1 human side hreading' hlength rest
        let y := x.arrive random stack sha1 human side (.message type payload)
        change ∃ left, ((machine random stack sha1 human side).drain x'
          (type :: payload ++ rest)).1 = { List.foldl _ y _ with left := left }
        rw [hbody]
        change ∃ left, ((machine random stack sha1 human side).drain y rest).1 = _
        obtain ⟨hy, hclosed | hnext⟩ := arrive_reading random stack sha1 human side x
          (.message type payload)
        · rw [drain_of_closed hclosed, foldl_arrive_of_closed hclosed hy]
          exact ⟨y.left, rfl⟩
        · exact ih hrest hnext hy

variable (random stack sha1 human side) in
/-- The segments of a stream arrive. -/
def receive (x : Inbound) (segments : List Bytes) : Inbound × Bytes :=
  segments.foldl (machine random stack sha1 human side).feed (x, [])

variable (random stack sha1 human side) in
/-- **The stream is what counts.** A new connection handles the handshake and the messages that
its stream consists of, in their order and as far as they are complete, however the network cuts the
stream; after an error it handles nothing more. -/
theorem read_stream (hreading : x.greeting.reading = some .handshake) (segments : List Bytes) :
    ∃ left, (x.receive random stack sha1 human side segments).1 =
      { (arrivalsOf segments.flatten).foldl (arrive random stack sha1 human side) x with
        left := left } := by
  have hwant : (machine random stack sha1 human side).want x = some 68 := by
    simp [machine, want, hreading]
  have hstart : (machine random stack sha1 human side).drain x [] = (x, []) := by
    refine Machine.drain_of_stuck fun n hn => ?_
    cases hwant.symm.trans hn
    exact Nat.succ_pos _
  rw [receive, Machine.foldl_feed (x, []) segments hstart, Machine.feed, List.nil_append]
  unfold arrivalsOf
  split_ifs with hshort
  · rw [Machine.drain_of_stuck fun n hn => by cases hwant.symm.trans hn; exact hshort]
    exact ⟨x.left, rfl⟩
  · have hlen : (segments.flatten.take 68).length = 68 :=
      List.length_take_of_le (Nat.not_lt.1 hshort)
    have hdrain : Machine.drain _ x (_ ++ segments.flatten.drop 68) = _ :=
      Machine.drain_of_want hwant hlen
    rw [List.take_append_drop] at hdrain
    let y := x.arrive random stack sha1 human side (.handshake (segments.flatten.take 68))
    have htake : (machine random stack sha1 human side).take x (segments.flatten.take 68) = y := by
      simp only [machine, take, hreading, y]
    rw [hdrain, htake, List.foldl_cons]
    change ∃ left, _ = { List.foldl _ y _ with left := left }
    obtain ⟨hy, hclosed | hnext⟩ := arrive_reading random stack sha1 human side x
      (.handshake (segments.flatten.take 68))
    · rw [drain_of_closed hclosed, foldl_arrive_of_closed hclosed hy]
      exact ⟨y.left, rfl⟩
    · exact drain_messages le_rfl hnext hy

variable (stack) in
/-- A peer with the same torrent accepts our handshake, unless it knows the address by another
id. -/
theorem accepts_handshake {t : Torrent} (hopen : x.greeting.session.peer.connected = true)
    (hinfo : x.greeting.session.torrent.infoHash = t.infoHash) (hid : x.greeting.peerId = [])
    (hreading : x.greeting.reading = some .handshake) (theirs : ℕ → UInt8) :
    Greeting.Accepted (t.handshake theirs)
      (x.arrive random stack sha1 human side (.handshake (t.handshake theirs))).greeting := by
  have hlen : (t.handshake theirs).length = 68 := t.length_handshake theirs
  let g : Greeting := { x.greeting with reading := none }
  have hpasses : g.Passes random (t.handshake theirs) := by
    rw [Greeting.passes_iff hlen, t.region_handshake]
    exact ⟨Or.inl rfl, hinfo.symm, Or.inl hid⟩
  have hiff : Greeting.Accepted (t.handshake theirs)
      (g.onHandshake random stack side (t.handshake theirs)) ↔ _ := Greeting.accepted_iff rfl hopen
  simp only [arrive, Greeting.step, if_pos hreading]
  exact hiff.2 hpasses

variable (random stack sha1 human side) in
/-- **Two sides of a connection.** One side writes its handshake and then messages; of these bytes
the network has brought the first ones, in segments. The other side has the same torrent. It has
accepted the handshake, once it is there, and has handled the first of the messages, and all of them
once all bytes are there. -/
theorem exchange_stream (hreading : x.greeting.reading = some .handshake)
    (hopen : x.greeting.session.peer.connected = true) (hid : x.greeting.peerId = [])
    {t : Torrent} (hinfo : x.greeting.session.torrent.infoHash = t.infoHash)
    {fresh theirs : ℕ → UInt8} {msgs : List Message} (hmsgs : ∀ msg ∈ msgs, msg.Sendable)
    {chunks : List Bytes} (hchunks : msgs.mapM (Message.emit fresh) = some chunks)
    {segments : List Bytes}
    (hsegments : segments.flatten <+: t.handshake theirs ++ chunks.flatten)
    (hlong : 68 ≤ segments.flatten.length) :
    let y := x.arrive random stack sha1 human side (.handshake (t.handshake theirs))
    Greeting.Accepted (t.handshake theirs) y.greeting ∧
      ∃ taken left, taken <+: msgs.filterMap Message.arrival ∧
        (x.receive random stack sha1 human side segments).1 =
          { taken.foldl (arrive random stack sha1 human side) y with left := left } ∧
        (segments.flatten = t.handshake theirs ++ chunks.flatten →
          taken = msgs.filterMap Message.arrival) := by
  intro y
  cases hchunks.symm.trans (mapM_emit fresh hmsgs)
  obtain ⟨left, hreceive⟩ := read_stream random stack sha1 human side hreading segments
  have hprefix := arrivalsOf_prefix hsegments
  have hall (h : segments.flatten = t.handshake theirs ++ (msgs.map Message.bytes).flatten) :
      arrivalsOf _ = arrivalsOf _ := congrArg arrivalsOf h
  rw [arrivalsOf_sent theirs t hmsgs] at hprefix hall
  rw [arrivalsOf, if_neg (Nat.not_lt.2 hlong)] at hreceive hprefix hall
  obtain ⟨hfirst, hrest⟩ := List.cons_prefix_cons.1 hprefix
  rw [hfirst, List.foldl_cons] at hreceive
  exact ⟨accepts_handshake stack hopen hinfo hid hreading theirs, _, left, hrest, hreceive,
    fun h => (List.cons.inj (hall h)).2⟩

/-- Our handshake, and an UnChoke. -/
def hello : Bytes := Greeting.oneHashed.handshake (fun _ => 8) ++ [0, 0, 0, 1, 1]

theorem read_stream_hello : ∃ left,
    (Inbound.receive (fun _ => 7) (fun _ => 0) (fun _ _ => 0) toString .incoming
        ⟨Greeting.newcomer .incoming, 0, []⟩ [hello.take 50, hello.drop 50]).1 =
      { (arrivalsOf [hello.take 50, hello.drop 50].flatten).foldl
          (arrive (fun _ => 7) (fun _ => 0) (fun _ _ => 0) toString .incoming)
          ⟨Greeting.newcomer .incoming, 0, []⟩ with left := left } :=
  read_stream _ _ _ _ _ rfl _

theorem exchange_stream_hello :
    let x : Inbound := ⟨Greeting.newcomer .incoming, 0, []⟩
    let y := x.arrive (fun _ => 7) (fun _ => 0) (fun _ _ => 0) toString .incoming
      (.handshake (Greeting.oneHashed.handshake fun _ => 8))
    Greeting.Accepted (Greeting.oneHashed.handshake fun _ => 8) y.greeting ∧
      ∃ taken left, taken <+: [Message.unchoke].filterMap Message.arrival ∧
        (x.receive (fun _ => 7) (fun _ => 0) (fun _ _ => 0) toString .incoming
            [hello.take 50, hello.drop 50]).1 =
          { taken.foldl (arrive (fun _ => 7) (fun _ => 0) (fun _ _ => 0) toString .incoming) y with
            left := left } ∧
        ([hello.take 50, hello.drop 50].flatten =
            Greeting.oneHashed.handshake (fun _ => 8) ++ [[0, 0, 0, 1, 1]].flatten →
          taken = [Message.unchoke].filterMap Message.arrival) := by
  have hflatten : [hello.take 50, hello.drop 50].flatten =
      Greeting.oneHashed.handshake (fun _ => 8) ++ [[0, 0, 0, 1, 1]].flatten := by
    rw [List.flatten_cons, List.flatten_singleton, List.take_append_drop, hello,
      List.flatten_singleton]
  have hchunks : [Message.unchoke].mapM (Message.emit fun _ => 0) = some [[0, 0, 0, 1, 1]] := rfl
  intro x
  have htorrent : x.greeting.session.torrent = Greeting.oneHashed := rfl
  refine exchange_stream _ _ _ _ _ rfl rfl rfl (congrArg Torrent.infoHash htorrent)
    (by simp [Message.Sendable]) hchunks ?_ ?_
  · rw [hflatten]
  · rw [hflatten, List.length_append, Torrent.length_handshake]
    exact Nat.le_add_right _ _

end Inbound

end CTorrent
