import CTorrent.Lib.Except
import CTorrent.Net.OutputMessage
import CTorrent.Peer.Handle

/-!
# The wire format

What the senders of `peer.cpp` hand to `m_conn->write`, and how the other side takes the bytes
apart: `Peer::handle` reads a length of four bytes and then so many bytes, and `handleMessage` the
fields of the payload behind its test of the payload's size.

* `Message.emit`: the bytes a sender writes; `emit_eq`: they are those of `Message.bytes`;
* `handleFrame`, `frames`: `Peer::handle` on the bytes of a connection;
* `readMessage`: the tests and reads that `handleMessage` begins with; `readMessage_refused`: what
  they refuse, `handleMessage` refuses;
* `wire_roundTrip`: the messages of a connection are recovered.
-/

namespace CTorrent

namespace Message

variable (fresh : ℕ → UInt8)

/-- What a sender writes: a keep-alive and the messages without payload from an array, the others
through an `OutputMessage`. -/
def emit : Message → Option Bytes
  | keepAlive => some [0, 0, 0, 0]
  | choke => some [0, 0, 0, 1, 0]
  | unchoke => some [0, 0, 0, 1, 1]
  | interested => some [0, 0, 0, 1, 2]
  | have_ index => OutputMessage.build fresh 9 [writeBE32 5, [4], writeBE32 index]
  | bitfield bits =>
      OutputMessage.build fresh (5 + bits.length)
        [writeBE32 (UInt32.ofNat (1 + bits.length)), [5], bits]
  | request index begin length =>
      OutputMessage.build fresh 17
        [writeBE32 13, [6], writeBE32 index, writeBE32 begin, writeBE32 length]
  | pieceBlock index begin block =>
      OutputMessage.build fresh (13 + block.length)
        [writeBE32 (UInt32.ofNat (9 + block.length)), [7], writeBE32 index, writeBE32 begin, block]
  | cancel index begin length =>
      OutputMessage.build fresh 17
        [writeBE32 13, [8], writeBE32 index, writeBE32 begin, writeBE32 length]

/-- The messages that are sent: a bitfield is not empty and shorter than `2 ^ 31`, a block has
between one and `maxRequestSize` bytes. -/
def Sendable : Message → Prop
  | bitfield bits => bits ≠ [] ∧ bits.length < 2 ^ 31
  | pieceBlock _ _ block => block ≠ [] ∧ block.length ≤ maxRequestSize
  | _ => True

theorem writeBE32_ne_nil (w : UInt32) : writeBE32 w ≠ [] := by simp [writeBE32]

/-- A sender writes the bytes of its message. -/
theorem emit_eq {msg : Message} (h : msg.Sendable) : msg.emit fresh = some msg.bytes := by
  have hne := writeBE32_ne_nil
  cases msg with
  | keepAlive => rfl
  | choke => rfl
  | unchoke => rfl
  | interested => rfl
  | have_ index =>
    rw [emit, OutputMessage.build_eq fresh 9 (by simp [hne])]
    simp [bytes, type, payload]
  | bitfield bits =>
    rw [emit, OutputMessage.build_eq fresh _ (by simp [hne, h.1])]
    simp [bytes, type, payload]
  | request index begin length =>
    rw [emit, OutputMessage.build_eq fresh 17 (by simp [hne])]
    simp [bytes, type, payload]
  | pieceBlock index begin block =>
    rw [emit, OutputMessage.build_eq fresh _ (by simp [hne, h.1])]
    have hlen : 1 + (4 + (4 + block.length)) = 9 + block.length := by omega
    simp [bytes, type, payload, hlen]
  | cancel index begin length =>
    rw [emit, OutputMessage.build_eq fresh 17 (by simp [hne])]
    simp [bytes, type, payload]

end Message

/-! ### Framing -/

/-- What `Peer::handle` makes of a length and the bytes behind it. -/
inductive Frame where
  | keepAlive
  | message (type : UInt8) (payload : Bytes)

/-- One call of `Peer::handle`, and of the callback for the rest of the message: the frame and what
has not been read. It is `none` while bytes that are to be read have not arrived. -/
def handleFrame (bytes : Bytes) : Option (Frame × Bytes) :=
  if bytes.length < 4 then none
  else
    let length := (readBE32 bytes 0).toNat
    if length = 0 then some (.keepAlive, bytes.drop 4)
    else if (bytes.drop 4).length < length then none
    else
      match (bytes.drop 4).take length with
      | [] => none
      | type :: payload => some (.message type payload, bytes.drop (4 + length))

/-- The frames of a connection and the bytes left over. Each takes four bytes at least, so the fuel
`bytes.length` suffices. -/
def frames : ℕ → Bytes → List Frame × Bytes
  | 0, bytes => ([], bytes)
  | fuel + 1, bytes =>
      match handleFrame bytes with
      | none => ([], bytes)
      | some (frame, rest) => (frame :: (frames fuel rest).1, (frames fuel rest).2)

/-- The frame of a message. -/
def Message.frame (msg : Message) : Frame :=
  match msg.type with
  | none => .keepAlive
  | some t => .message t msg.payload

theorem length_payload_lt {msg : Message} (h : msg.Sendable) :
    1 + msg.payload.length < 2 ^ 32 := by
  cases msg with
  | bitfield bits =>
    have := h.2
    simp only [Message.payload]
    omega
  | pieceBlock index begin block =>
    have := h.2
    simp only [Message.payload, List.length_append, length_writeBE32, maxRequestSize] at *
    omega
  | _ => simp [Message.payload]

/-- The length in front of a message. -/
def Message.lengthWord (msg : Message) : UInt32 :=
  if msg.type = none then 0 else UInt32.ofNat (1 + msg.payload.length)

/-- A message begins with its length, and the length is the number of bytes behind it. -/
theorem bytes_eq {msg : Message} (h : msg.Sendable) :
    msg.bytes = writeBE32 msg.lengthWord ++ (msg.type.elim [] fun t => t :: msg.payload) ∧
      msg.lengthWord.toNat = (msg.type.elim [] fun t => t :: msg.payload).length := by
  have hlen := length_payload_lt h
  rw [Message.bytes, Message.lengthWord]
  cases msg.type with
  | none =>
    rw [if_pos rfl]
    exact ⟨rfl, rfl⟩
  | some t =>
    refine ⟨rfl, ?_⟩
    rw [if_neg (by simp), UInt32.toNat_ofNat', Nat.mod_eq_of_lt hlen, Option.elim_some,
      List.length_cons]
    omega

/-- **One frame.** The bytes of a message, whatever follows, are taken off as its frame. -/
theorem handleFrame_bytes {msg : Message} (h : msg.Sendable) (rest : Bytes) :
    handleFrame (msg.bytes ++ rest) = some (msg.frame, rest) := by
  obtain ⟨hbytes, hlen⟩ := bytes_eq h
  generalize hbody : (msg.type.elim [] fun t => t :: msg.payload) = body at hbytes hlen
  have hall : msg.bytes ++ rest = writeBE32 msg.lengthWord ++ (body ++ rest) := by
    rw [hbytes, List.append_assoc]
  have hword : readBE32 (msg.bytes ++ rest) 0 = msg.lengthWord := by
    have hread := readBE32_writeBE32 msg.lengthWord [] (body ++ rest)
    rwa [List.nil_append, List.length_nil, ← hall] at hread
  have hdrop : (msg.bytes ++ rest).drop 4 = body ++ rest := by
    rw [hall]
    rfl
  have h4 : ¬ (msg.bytes ++ rest).length < 4 := by
    rw [hall, List.length_append, length_writeBE32]
    omega
  rw [handleFrame, if_neg h4]
  simp only [hword, ← List.drop_drop, hdrop, hlen]
  rw [Message.frame]
  cases ht : msg.type with
  | none =>
    rw [ht, Option.elim_none] at hbody
    subst hbody
    rfl
  | some t =>
    rw [ht, Option.elim_some] at hbody
    subst hbody
    rw [if_neg (by simp), if_neg (by simp), List.take_left, List.drop_left]

/-- The bytes of several messages are taken apart, and nothing is left. -/
theorem frames_flatten {msgs : List Message} (h : ∀ msg ∈ msgs, msg.Sendable) {fuel : ℕ}
    (hfuel : msgs.length ≤ fuel) :
    frames fuel (msgs.map Message.bytes).flatten = (msgs.map Message.frame, []) := by
  induction msgs generalizing fuel with
  | nil =>
    cases fuel with
    | zero => rfl
    | succ fuel => rfl
  | cons msg msgs ih =>
    obtain ⟨fuel, rfl⟩ : ∃ n, fuel = n + 1 := ⟨fuel - 1, by simp at hfuel; omega⟩
    have hrec := ih (fun m hm => h m (List.mem_cons_of_mem msg hm)) (Nat.le_of_succ_le_succ hfuel)
    rw [List.map_cons, List.flatten_cons, frames, handleFrame_bytes (h msg List.mem_cons_self)]
    simp only [hrec, List.map_cons]

/-! ### Reading a message -/

/-- What `handleMessage` reads: one of the messages that are sent here, or one of the others. -/
inductive Incoming where
  | message (msg : Message)
  | notInterested
  | port (port : UInt16)
  | ignored (type : UInt8)

/-- Why nothing is read: `handleError`, or a read past the payload. -/
inductive Refusal where
  | handleError (errmsg : String)
  | overrun

/-- A part of a read that stays inside the payload. -/
def orOverrun {α : Type} (o : Option α) : Except Refusal α := o.elim (.error .overrun) .ok

/-- The test of a payload's size. -/
def expectSize (payload : Bytes) (size : ℕ) (errmsg : String) : Except Refusal Unit :=
  if payload.length ≠ size then .error (.handleError errmsg) else .ok ()

/-- Index, begin and length. -/
def readTriple (payload : Bytes) : Except Refusal (UInt32 × UInt32 × UInt32) := do
  let (index, input) ← orOverrun (InputMessage.getU32 ⟨payload, 0⟩ .bigEndian)
  let (begin, input) ← orOverrun (input.getU32 .bigEndian)
  let (length, _) ← orOverrun (input.getU32 .bigEndian)
  return (index, begin, length)

/-- The tests of `handleMessage` on the payload's size, and its reads. -/
def readMessage (human : ℕ → String) (type : UInt8) (payload : Bytes) :
    Except Refusal Incoming :=
  match type.toNat with
  | 0 => do
      expectSize payload 0 "invalid choke-message size"
      return .message .choke
  | 1 => do
      expectSize payload 0 "invalid unchoke-message size"
      return .message .unchoke
  | 2 => do
      expectSize payload 0 "invalid interested-message size"
      return .message .interested
  | 3 => do
      expectSize payload 0 "invalid not-interested-message size"
      return .notInterested
  | 4 => do
      expectSize payload 4 "invalid have-message size"
      let (i, _) ← orOverrun (InputMessage.getU32 ⟨payload, 0⟩ .bigEndian)
      return .message (.have_ i)
  | 5 =>
      if payload.length < 1 then .error (.handleError "invalid bitfield-message size")
      else .ok (.message (.bitfield payload))
  | 6 => do
      expectSize payload 12 "invalid request-message size"
      let (index, begin, length) ← readTriple payload
      return .message (.request index begin length)
  | 7 =>
      if payload.length < 9 then .error (.handleError "invalid pieceblock-message size")
      else do
        let (index, input) ← orOverrun (InputMessage.getU32 ⟨payload, 0⟩ .bigEndian)
        let (begin, input) ← orOverrun (input.getU32 .bigEndian)
        let payloadSize := payload.length - 8
        if payloadSize = 0 ∨ payloadSize > maxRequestSize then
          .error (.handleError ("received too big piece block of size " ++ human payloadSize))
        else do
          let block ← orOverrun (input.getBuffer payloadSize)
          return .message (.pieceBlock index begin block)
  | 8 => do
      expectSize payload 12 "invalid cancel-message size"
      let (index, begin, length) ← readTriple payload
      return .message (.cancel index begin length)
  | 9 => do
      expectSize payload 2 "invalid port-message size"
      let (port, _) ← orOverrun (InputMessage.getU16 ⟨payload, 0⟩ .bigEndian)
      return .port port
  | _ => .ok (.ignored type)

/-- What is read of a frame. -/
def Frame.read (human : ℕ → String) : Frame → Except Refusal Incoming
  | .keepAlive => .ok (.message .keepAlive)
  | .message type payload => readMessage human type payload

@[simp] theorem orOverrun_some {α : Type} (a : α) : orOverrun (some a) = .ok a := rfl

/-- Behind the test of the size, a payload of three words is read. -/
theorem readTriple_isOk {payload : Bytes} (h : payload.length = 12) :
    ∃ r, readTriple payload = .ok r := by
  have h0 := InputMessage.getU32_of_le payload 0 (by omega) (by decide)
  have h4 := InputMessage.getU32_of_le payload (0 + 4) (by omega) (by decide)
  have h8 := InputMessage.getU32_of_le payload (0 + 4 + 4) (by omega) (by decide)
  refine ⟨(readBE32 payload 0, readBE32 payload 4, readBE32 payload 8), ?_⟩
  rw [readTriple]
  simp only [h0, h4, h8, orOverrun_some, Except.ok_bind]
  rfl

/-- A test of the size in front of a read that then succeeds. -/
theorem expectSize_refused {payload : Bytes} {size : ℕ} {errmsg : String} {refusal : Refusal}
    {f : Unit → Except Refusal Incoming} (hf : payload.length = size → ∃ r, f () = .ok r)
    (h : (expectSize payload size errmsg >>= f) = .error refusal) :
    payload.length ≠ size ∧ refusal = .handleError errmsg := by
  rw [expectSize] at h
  split_ifs at h with hsize
  · cases h
    exact ⟨hsize, rfl⟩
  · obtain ⟨r, hr⟩ := hf (not_not.1 hsize)
    change f () = _ at h
    rw [hr] at h
    cases h

/-- **What is refused.** A payload that is not read makes `handleMessage` call `handleError`, with
the same text; in particular nothing is read past the payload. -/
theorem readMessage_refused {sha1 : Bytes → Sha1sum} {human : ℕ → String} {s : Session}
    {type : UInt8} {payload : Bytes} {refusal : Refusal}
    (h : readMessage human type payload = .error refusal) :
    ∃ errmsg, refusal = .handleError errmsg ∧
      Peer.handleMessage sha1 human s type payload =
        some (Peer.handleError (Peer.receive s type payload) errmsg) := by
  rw [readMessage] at h
  rw [Peer.handleMessage]
  generalize type.toNat = n at h ⊢
  revert h
  match n with
  | 0 | 1 | 2 | 3 =>
    intro h
    obtain ⟨hsize, rfl⟩ := expectSize_refused (fun _ => ⟨_, rfl⟩) h
    exact ⟨_, rfl, if_pos hsize⟩
  | 4 =>
    intro h
    have hread : payload.length = 4 → ∃ r,
        (orOverrun (InputMessage.getU32 ⟨payload, 0⟩ .bigEndian) >>=
          fun x => pure (Incoming.message (.have_ x.1))) = Except.ok r := by
      intro h4
      exact ⟨_, by rw [InputMessage.getU32_of_le payload 0 h4.ge (by decide)]; rfl⟩
    obtain ⟨hsize, rfl⟩ := expectSize_refused hread h
    exact ⟨_, rfl, if_pos hsize⟩
  | 5 =>
    intro h
    by_cases hsize : payload.length < 1
    · cases (if_pos hsize).symm.trans h
      exact ⟨_, rfl, if_pos hsize⟩
    · cases (if_neg hsize).symm.trans h
  | 6 | 8 =>
    intro h
    obtain ⟨hsize, rfl⟩ := expectSize_refused (fun h12 => by
      obtain ⟨r, hr⟩ := readTriple_isOk h12
      exact ⟨_, by rw [hr]; rfl⟩) h
    exact ⟨_, rfl, if_pos hsize⟩
  | 7 =>
    intro h
    by_cases h9 : payload.length < 9
    · cases (if_pos h9).symm.trans h
      exact ⟨_, rfl, if_pos h9⟩
    · replace h := (if_neg h9).symm.trans h
      simp only [InputMessage.getU32_of_le payload 0 (by omega) (by decide),
        InputMessage.getU32_of_le payload 4 (by omega) (by decide), orOverrun_some,
        Except.ok_bind] at h
      split_ifs at h with hmax
      · cases h
        refine ⟨_, rfl, ?_⟩
        change Peer.handlePieceBlock sha1 human (Peer.receive s type payload) payload = _
        rw [Peer.handlePieceBlock, if_neg h9]
        simp only [List.length_drop]
        rw [if_pos hmax]
      · rw [InputMessage.getBuffer, if_neg (by simp only; omega)] at h
        cases h
  | 9 =>
    intro h
    have hread : payload.length = 2 → ∃ r,
        (orOverrun (InputMessage.getU16 ⟨payload, 0⟩ .bigEndian) >>=
          fun x => pure (Incoming.port x.1)) = Except.ok r := by
      intro h2
      exact ⟨_, by rw [InputMessage.getU16_of_le payload 0 h2.ge (by decide)]; rfl⟩
    obtain ⟨hsize, rfl⟩ := expectSize_refused hread h
    exact ⟨_, rfl, if_pos hsize⟩
  | _ + 10 => exact fun h => nomatch h

/-! ### What is read -/

@[simp] theorem expectSize_length (payload : Bytes) {size : ℕ} (h : payload.length = size)
    (errmsg : String) : expectSize payload size errmsg = .ok () := by
  rw [expectSize, if_neg (not_not_intro h)]

@[simp] theorem getU32_first (w : UInt32) (t : Bytes) :
    InputMessage.getU32 ⟨writeBE32 w ++ t, 0⟩ .bigEndian = some (w, ⟨writeBE32 w ++ t, 4⟩) := by
  have h := InputMessage.getU32_eq [] t w (by decide)
  rwa [List.nil_append, List.length_nil, Nat.zero_add] at h

@[simp] theorem getU32_second (v w : UInt32) (t : Bytes) :
    InputMessage.getU32 ⟨writeBE32 v ++ (writeBE32 w ++ t), 4⟩ .bigEndian =
      some (w, ⟨writeBE32 v ++ (writeBE32 w ++ t), 8⟩) := by
  have h := InputMessage.getU32_eq (writeBE32 v) t w (by simp)
  rwa [List.append_assoc] at h

@[simp] theorem getU32_third (u v w : UInt32) :
    InputMessage.getU32 ⟨writeBE32 u ++ (writeBE32 v ++ writeBE32 w), 8⟩ .bigEndian =
      some (w, ⟨writeBE32 u ++ (writeBE32 v ++ writeBE32 w), 12⟩) := by
  have h := InputMessage.getU32_eq (writeBE32 u ++ writeBE32 v) [] w (by simp)
  rwa [List.append_nil, List.append_assoc] at h

theorem readTriple_eq (index begin length : UInt32) :
    readTriple (writeBE32 index ++ writeBE32 begin ++ writeBE32 length) =
      .ok (index, begin, length) := by
  rw [readTriple, List.append_assoc]
  simp only [getU32_first, getU32_second, getU32_third, orOverrun_some, Except.ok_bind]
  rfl

theorem length_triple (index begin length : UInt32) :
    (writeBE32 index ++ writeBE32 begin ++ writeBE32 length).length = 12 := rfl

/-- A block behind its two words is read whole. -/
theorem readMessage_pieceBlock (human : ℕ → String) (index begin : UInt32) {block : Bytes}
    (hpos : 0 < block.length) (hmax : block.length ≤ maxRequestSize) :
    readMessage human 7 (writeBE32 index ++ writeBE32 begin ++ block) =
      .ok (.message (.pieceBlock index begin block)) := by
  have hlen : (writeBE32 index ++ (writeBE32 begin ++ block)).length - 8 = block.length := by
    simp only [List.length_append, length_writeBE32]
    omega
  have hbuffer : InputMessage.getBuffer ⟨writeBE32 index ++ (writeBE32 begin ++ block), 8⟩
      block.length = some block := by
    rw [InputMessage.getBuffer, if_neg]
    · change some (List.take block.length block) = _
      rw [List.take_length]
    · simp only [List.length_append, length_writeBE32]
      omega
  rw [List.append_assoc]
  change (if _ < 9 then _ else _) = _
  rw [if_neg (by omega)]
  simp only [getU32_first, getU32_second, orOverrun_some, Except.ok_bind, hlen]
  rw [if_neg (by omega), hbuffer]
  rfl

/-- **One message.** The payload of a message passes the tests, and its fields are read. -/
theorem read_frame (human : ℕ → String) {msg : Message} (h : msg.Sendable) :
    msg.frame.read human = .ok (.message msg) := by
  cases msg with
  | keepAlive => rfl
  | choke => rfl
  | unchoke => rfl
  | interested => rfl
  | have_ index =>
    have hread := getU32_first index []
    rw [List.append_nil] at hread
    change (expectSize (writeBE32 index) 4 _ >>= fun _ => _) = _
    rw [expectSize_length (writeBE32 index) (length_writeBE32 index), Except.ok_bind]
    simp only [Message.payload, hread]
    rfl
  | bitfield bits =>
    have hpos := List.length_pos_iff.2 h.1
    change (if bits.length < 1 then _ else _) = _
    rw [if_neg (by omega)]
    rfl
  | request index begin length =>
    have hread := readTriple_eq index begin length
    have hsize := length_triple index begin length
    change (expectSize _ 12 _ >>= fun _ => readTriple _ >>= _) = _
    rw [Message.payload, expectSize_length _ hsize, Except.ok_bind, hread]
    rfl
  | pieceBlock index begin block =>
    exact readMessage_pieceBlock human index begin (List.length_pos_iff.2 h.1) h.2
  | cancel index begin length =>
    have hread := readTriple_eq index begin length
    have hsize := length_triple index begin length
    change (expectSize _ 12 _ >>= fun _ => readTriple _ >>= _) = _
    rw [Message.payload, expectSize_length _ hsize, Except.ok_bind, hread]
    rfl

theorem mapM_read (human : ℕ → String) {msgs : List Message} (h : ∀ msg ∈ msgs, msg.Sendable) :
    (msgs.map Message.frame).mapM (Frame.read human) = .ok (msgs.map Incoming.message) := by
  induction msgs with
  | nil => rfl
  | cons msg msgs ih =>
    have hrec := ih fun m hm => h m (List.mem_cons_of_mem msg hm)
    rw [List.map_cons, List.mapM_cons, read_frame human (h msg List.mem_cons_self), Except.ok_bind, hrec]
    rfl

theorem mapM_emit (fresh : ℕ → UInt8) {msgs : List Message} (h : ∀ msg ∈ msgs, msg.Sendable) :
    msgs.mapM (Message.emit fresh) = some (msgs.map Message.bytes) := by
  induction msgs with
  | nil => rfl
  | cons msg msgs ih =>
    have hrec := ih fun m hm => h m (List.mem_cons_of_mem msg hm)
    rw [List.mapM_cons, Message.emit_eq fresh (h msg List.mem_cons_self), hrec]
    rfl

/-- Every message takes four bytes at least. -/
theorem length_le_flatten (msgs : List Message) :
    msgs.length ≤ (msgs.map Message.bytes).flatten.length := by
  induction msgs with
  | nil => exact Nat.le_refl _
  | cons msg msgs ih =>
    have hpos : 0 < msg.bytes.length := by
      rw [Message.bytes]
      cases msg.type <;> simp
    rw [List.map_cons, List.flatten_cons, List.length_append, List.length_cons]
    omega

/-- **The wire format round trip.** The senders write their messages; what `handle` takes apart of
the bytes, and `handleMessage` reads, is those messages, and no byte is left over. -/
theorem wire_roundTrip (fresh : ℕ → UInt8) (human : ℕ → String) (msgs : List Message)
    (h : ∀ msg ∈ msgs, msg.Sendable) :
    ∃ chunks, msgs.mapM (Message.emit fresh) = some chunks ∧
      (frames chunks.flatten.length chunks.flatten).2 = [] ∧
      (frames chunks.flatten.length chunks.flatten).1.mapM (Frame.read human) =
        .ok (msgs.map Incoming.message) := by
  refine ⟨msgs.map Message.bytes, mapM_emit fresh h, ?_, ?_⟩
  · rw [frames_flatten h (length_le_flatten msgs)]
  · rw [frames_flatten h (length_le_flatten msgs)]
    exact mapM_read human h

/-- One message of every sender. -/
def nineMessages : List Message :=
  [.keepAlive, .choke, .unchoke, .interested, .have_ 7, .bitfield [0xA0], .request 1 16384 16384,
    .pieceBlock 1 16384 [4, 5], .cancel 0xFFFFFFFF 0 1]

theorem wire_roundTrip_nineMessages : ∃ chunks,
    nineMessages.mapM (Message.emit fun _ => 0) = some chunks ∧
      (frames chunks.flatten.length chunks.flatten).2 = [] ∧
      (frames chunks.flatten.length chunks.flatten).1.mapM (Frame.read toString) =
        .ok (nineMessages.map Incoming.message) :=
  wire_roundTrip (fun _ => 0) toString nineMessages
    (by simp [nineMessages, Message.Sendable, maxRequestSize])

end CTorrent
