import CTorrent.Lib.Runs
import CTorrent.Net.OutputMessage

/-!
# Values in a message

`operator<<` of an `OutputMessage` and `operator>>` of an `InputMessage`, for each of their types
and in both byte orders. A writer grows the buffer and stores at the cursor; `addU16` grows it by
one byte and stores two. The cursor of a reader is a `uint32_t`.

* `addByte`, `addU16`, `addU32`, `addU64`, `addString`; `getString`;
* `write`, `read`, `readAll`: the two operators, by the type of the value;
* `RoundTrips`: what is promised of a sequence of values;
* `slip_write`: how far a value takes the cursor past the size of the buffer;
* `read_append`: from its bytes, every value is read back;
* `roundTrips_iff`: the promise is kept where neither a `uint16_t` nor a string is among the values
  and the bytes can be counted by the cursor.
-/

namespace CTorrent

/-- The types that the operators take. -/
inductive MessageType where
  | uint8
  | uint16
  | uint32
  | uint64
  | string
  deriving DecidableEq

/-- A value of one of the types. -/
inductive MessageValue where
  | uint8 (b : UInt8)
  | uint16 (u : UInt16)
  | uint32 (u : UInt32)
  | uint64 (u : UInt64)
  | string (s : Bytes)
  deriving DecidableEq

/-- The type of a value. -/
def MessageValue.type : MessageValue → MessageType
  | uint8 _ => .uint8
  | uint16 _ => .uint16
  | uint32 _ => .uint32
  | uint64 _ => .uint64
  | string _ => .string

/-- How many bytes a value takes in a message. -/
def MessageValue.width : MessageValue → ℕ
  | uint8 _ => 1
  | uint16 _ => 2
  | uint32 _ => 4
  | uint64 _ => 8
  | string s => 2 + s.length

namespace MessageBuffer

/-! ### Writing -/

section Writing

variable (fresh : ℕ → UInt8) (order : ByteOrder)

/-- `writeBE16` or `writeLE16`. -/
def bytes16 (val : UInt16) : Bytes :=
  match order with
  | .bigEndian => writeBE16 val
  | .littleEndian => writeLE16 val

/-- `writeBE32` or `writeLE32`. -/
def bytes32 (val : UInt32) : Bytes :=
  match order with
  | .bigEndian => writeBE32 val
  | .littleEndian => writeLE32 val

/-- `writeBE64` or `writeLE64`. -/
def bytes64 (val : UInt64) : Bytes :=
  match order with
  | .bigEndian => writeBE64 val
  | .littleEndian => writeLE64 val

/-- `addByte`. -/
def addByte (byte : UInt8) (o : OutputMessage) : Option OutputMessage := o.put fresh 1 [byte]

/-- `addU16`, which grows the buffer by one byte only. -/
def addU16 (val : UInt16) (o : OutputMessage) : Option OutputMessage :=
  o.put fresh 1 (bytes16 order val)

/-- `addU32`. -/
def addU32 (val : UInt32) (o : OutputMessage) : Option OutputMessage :=
  o.put fresh 4 (bytes32 order val)

/-- `addU64`. -/
def addU64 (val : UInt64) (o : OutputMessage) : Option OutputMessage :=
  o.put fresh 8 (bytes64 order val)

/-- `addString`. -/
def addString (str : Bytes) (o : OutputMessage) : Option OutputMessage :=
  let len := UInt16.ofNat str.length
  (addU16 fresh order len o).bind (OutputMessage.put fresh len.toNat (str.take len.toNat))

/-- `operator<<`. -/
def write (o : OutputMessage) : MessageValue → Option OutputMessage
  | .uint8 b => addByte fresh b o
  | .uint16 u => addU16 fresh order u o
  | .uint32 u => addU32 fresh order u o
  | .uint64 u => addU64 fresh order u o
  | .string s => addString fresh order s o

end Writing

/-! ### Reading -/

section Reading

variable (order : ByteOrder)

/-- The part of `getString` behind the length; the sum is a `uint32_t`. -/
def getChars (len : ℕ) (i : InputMessage) : Option (Bytes × InputMessage) :=
  if len = 0 then some ([], i)
  else if (i.pos + len) % 2 ^ 32 > i.data.length then some ([], i)
  else i.fetch len fun data pos => Splice.region data pos len

/-- `getString`. -/
def getString (i : InputMessage) : Option (Bytes × InputMessage) :=
  (i.getU16 order).bind fun r => getChars r.1.toNat r.2

/-- `operator>>`. -/
def read (i : InputMessage) : MessageType → Option (MessageValue × InputMessage)
  | .uint8 => i.getByte.map (Prod.map .uint8 id)
  | .uint16 => (i.getU16 order).map (Prod.map .uint16 id)
  | .uint32 => (i.getU32 order).map (Prod.map .uint32 id)
  | .uint64 => (i.getU64 order).map (Prod.map .uint64 id)
  | .string => (getString order i).map (Prod.map .string id)

/-- `in >> a >> … >> z`. -/
def readAll (i : InputMessage) : List MessageType → Option (List MessageValue × InputMessage)
  | [] => some ([], i)
  | t :: types => (read order i t).bind fun r => (readAll r.2 types).map (Prod.map (r.1 :: ·) id)

end Reading

variable (fresh : ℕ → UInt8) (order : ByteOrder)

/-- What is promised of a sequence of values: all stores are within the capacity, `m_pos` is the
size of the buffer after each, and the same values are read from the message, up to its end. -/
def RoundTrips (fixedSize : ℕ) (values : List MessageValue) : Prop :=
  ∃ o, Runs.run (write fresh order) (OutputMessage.new fresh fixedSize) values = some o ∧
    Runs.Always (write fresh order) (fun o => o.pos = o.buffer.size)
      (OutputMessage.new fresh fixedSize) values ∧
    ∃ data, o.written = some data ∧
      readAll order ⟨data, 0⟩ (values.map MessageValue.type) = some (values, ⟨data, data.length⟩)

/-! ### The cursor and the size -/

/-- How far a value of the type takes the cursor past the size. -/
def slip : MessageType → ℕ
  | .uint16 | .string => 1
  | _ => 0

variable {fresh order} {o o' : OutputMessage}

theorem slip_put {more : ℕ} {bytes : Bytes} (h : o.put fresh more bytes = some o') :
    o'.pos + o.buffer.size + more = o.pos + o'.buffer.size + bytes.length := by
  obtain ⟨b, hb, h⟩ := Option.bind_eq_some_iff.1 h
  have hsize := DataBuffer.size_grow fresh (Nat.le_add_right _ _) hb
  split_ifs at h
  cases h
  dsimp only
  omega

/-- **The defect of `addU16`.** A `uint16_t`, and a string by its length, takes the cursor one byte
past the size; the other values keep the two together. -/
theorem slip_write {v : MessageValue} (h : write fresh order o v = some o') :
    o'.pos + o.buffer.size = o.pos + o'.buffer.size + slip v.type := by
  have hlen : ∀ u, (bytes16 order u).length = 2 := by cases order <;> exact fun _ => rfl
  cases v with
  | uint8 b =>
    have := slip_put h
    simp only [List.length_singleton, MessageValue.type, slip] at this ⊢
    omega
  | uint16 u =>
    have := slip_put h
    simp only [hlen, MessageValue.type, slip] at this ⊢
    omega
  | uint32 u =>
    have hlen : (bytes32 order u).length = 4 := by cases order <;> rfl
    have := slip_put h
    simp only [hlen, MessageValue.type, slip] at this ⊢
    omega
  | uint64 u =>
    have hlen : (bytes64 order u).length = 8 := by cases order <;> rfl
    have := slip_put h
    simp only [hlen, MessageValue.type, slip] at this ⊢
    omega
  | string s =>
    obtain ⟨mid, hmid, h⟩ := Option.bind_eq_some_iff.1 h
    have hfirst := slip_put hmid
    have hsecond := slip_put h
    have hle : (UInt16.ofNat s.length).toNat ≤ s.length := by
      rw [UInt16.toNat_ofNat']
      exact Nat.mod_le _ _
    simp only [hlen, List.length_take, Nat.min_eq_left hle, MessageValue.type, slip]
      at hfirst hsecond ⊢
    omega

/-- All values keep the cursor at the size exactly when none of them slips. -/
theorem always_iff_slip {values : List MessageValue} (ho : o.pos = o.buffer.size)
    (hr : (Runs.run (write fresh order) o values).isSome = true) :
    Runs.Always (write fresh order) (fun o => o.pos = o.buffer.size) o values ↔
      ∀ v ∈ values, slip v.type = 0 := by
  have hstep : ∀ (o : OutputMessage) (v : MessageValue) (o' : OutputMessage), True →
      o.pos = o.buffer.size → write fresh order o v = some o' →
      (slip v.type = 0 ↔ o'.pos = o'.buffer.size) := by
    intro o v o' _ ho h
    have hslip := slip_write h
    constructor <;> intro <;> omega
  have hruns := Runs.always_iff_meets (fun _ _ _ _ _ => trivial) hstep trivial ho hr
  exact hruns.trans (Runs.meets_iff_forall hr)

/-! ### Values that do not slip -/

variable (order) in
/-- The bytes of a value. -/
def bytes : MessageValue → Bytes
  | .uint8 b => [b]
  | .uint16 u => bytes16 order u
  | .uint32 u => bytes32 order u
  | .uint64 u => bytes64 order u
  | .string s => bytes16 order (UInt16.ofNat s.length) ++ s

theorem length_bytes (v : MessageValue) : (bytes order v).length = v.width := by
  cases v <;> cases order <;> simp [bytes, bytes16, bytes32, bytes64, MessageValue.width]

theorem length_flatMap_bytes (values : List MessageValue) :
    (values.flatMap (bytes order)).length = (values.map MessageValue.width).sum := by
  rw [List.length_flatMap]
  congr 1
  exact List.map_congr_left fun v _ => length_bytes v

/-- Such a value is put behind what the message holds. -/
theorem holding_write {v : MessageValue} {held : Bytes} (h : o.Holding held)
    (hv : slip v.type = 0) :
    ∃ o', write fresh order o v = some o' ∧ o'.Holding (held ++ bytes order v) := by
  have hput : ∀ part ≠ [], ∃ o', o.addBytes fresh part = some o' ∧ o'.Holding (held ++ part) :=
    fun part hpart => h.addBytes hpart
  cases v with
  | uint8 b => exact hput [b] (List.cons_ne_nil _ _)
  | uint32 u =>
    cases order with
    | bigEndian => exact hput (writeBE32 u) (List.cons_ne_nil _ _)
    | littleEndian => exact hput (writeLE32 u) (List.cons_ne_nil _ _)
  | uint64 u =>
    cases order with
    | bigEndian => exact hput (writeBE64 u) (List.cons_ne_nil _ _)
    | littleEndian => exact hput (writeLE64 u) (List.cons_ne_nil _ _)
  | uint16 u => cases hv
  | string s => cases hv

theorem holding_run {values : List MessageValue} {held : Bytes} (h : o.Holding held)
    (hv : ∀ v ∈ values, slip v.type = 0) :
    ∃ o', Runs.run (write fresh order) o values = some o' ∧
      o'.Holding (held ++ values.flatMap (bytes order)) := by
  induction values generalizing o held with
  | nil => exact ⟨o, rfl, by simpa using h⟩
  | cons v values ih =>
    obtain ⟨o₁, h₁, hheld⟩ : ∃ o₁, write fresh order o v = some o₁ ∧
        o₁.Holding (held ++ bytes order v) := holding_write h (hv v List.mem_cons_self)
    obtain ⟨o₂, h₂, hheld₂⟩ := ih hheld fun w hw => hv w (List.mem_cons_of_mem v hw)
    refine ⟨o₂, Runs.run_cons_eq_some.2 ⟨o₁, h₁, h₂⟩, ?_⟩
    rw [List.flatMap_cons, ← List.append_assoc]
    exact hheld₂

/-! ### What is read back -/

/-- A string is short if its length is a `uint16_t`. -/
def Short : MessageValue → Prop
  | .string s => s.length < 2 ^ 16
  | _ => True

variable (order)

theorem getU16_append (u : UInt16) (s t : Bytes) (hlt : s.length + 2 < 2 ^ 32) :
    InputMessage.getU16 ⟨s ++ bytes16 order u ++ t, s.length⟩ order =
      some (u, ⟨s ++ bytes16 order u ++ t, s.length + 2⟩) := by
  cases order with
  | bigEndian =>
    have hread : (readBE16 (s ++ writeBE16 u ++ t) s.length).toUInt16 = u := by
      rw [readBE16_writeBE16, UInt16.toUInt16_toUInt32]
    show InputMessage.fetch 2 (fun data pos => (readBE16 data pos).toUInt16) _ = _
    exact InputMessage.fetch_append rfl hread hlt
  | littleEndian =>
    have hread : (readLE16 (s ++ writeLE16 u ++ t) s.length).toUInt16 = u := by
      rw [readLE16_writeLE16, UInt16.toUInt16_toUInt32]
    show InputMessage.fetch 2 (fun data pos => (readLE16 data pos).toUInt16) _ = _
    exact InputMessage.fetch_append rfl hread hlt

/-- The characters of a string are read behind its length. -/
theorem getChars_append (chars s t : Bytes) (hlt : s.length + chars.length < 2 ^ 32) :
    getChars chars.length ⟨s ++ chars ++ t, s.length⟩ =
      some (chars, ⟨s ++ chars ++ t, s.length + chars.length⟩) := by
  have hregion : Splice.region (s ++ chars ++ t) s.length chars.length = chars := by
    rw [Splice.region, List.append_assoc, List.drop_left, List.take_left]
  rw [getChars]
  by_cases hnil : chars.length = 0
  · rw [if_pos hnil, List.length_eq_zero_iff.1 hnil]
    simp
  · have hfits : ¬ (s.length + chars.length) % 2 ^ 32 > (s ++ chars ++ t).length := by
      rw [Nat.mod_eq_of_lt hlt]
      simp only [List.length_append]
      omega
    rw [if_neg hnil, if_neg hfits]
    exact InputMessage.fetch_append rfl hregion hlt

theorem getString_append {len : UInt16} (chars s t : Bytes) (hlen : len.toNat = chars.length)
    (hlt : s.length + (2 + chars.length) < 2 ^ 32) :
    getString order ⟨s ++ (bytes16 order len ++ chars) ++ t, s.length⟩ =
      some (chars, ⟨s ++ (bytes16 order len ++ chars) ++ t, s.length + (2 + chars.length)⟩) := by
  have hbytes : (bytes16 order len).length = 2 := by cases order <;> rfl
  have hlength := getU16_append order len s (chars ++ t) (by omega)
  have hchars := getChars_append chars (s ++ bytes16 order len) t (by
    rw [List.length_append, hbytes]
    omega)
  rw [List.length_append, hbytes, Nat.add_assoc] at hchars
  simp only [← List.append_assoc] at hlength hchars ⊢
  rw [getString, hlength, Option.bind_some, hlen, hchars]

/-- **Every value is read back** from its bytes, if the cursor can count them. -/
theorem read_append {v : MessageValue} (hv : Short v) (s t : Bytes)
    (hlt : s.length + v.width < 2 ^ 32) :
    read order ⟨s ++ bytes order v ++ t, s.length⟩ v.type =
      some (v, ⟨s ++ bytes order v ++ t, s.length + v.width⟩) := by
  cases v with
  | uint8 b =>
    have hread : byteAt (s ++ [b] ++ t) (s.length + 0) = b := byteAt_append s [b] t (by simp)
    have hget : InputMessage.getByte ⟨s ++ [b] ++ t, s.length⟩ =
        some (b, ⟨s ++ [b] ++ t, s.length + 1⟩) := InputMessage.fetch_append rfl hread hlt
    exact congrArg (Option.map (Prod.map MessageValue.uint8 id)) hget
  | uint16 u =>
    exact congrArg (Option.map (Prod.map MessageValue.uint16 id)) (getU16_append order u s t hlt)
  | uint32 u =>
    have hget : InputMessage.getU32 ⟨s ++ bytes32 order u ++ t, s.length⟩ order =
        some (u, ⟨s ++ bytes32 order u ++ t, s.length + 4⟩) := by
      cases order with
      | bigEndian => exact InputMessage.fetch_append rfl (readBE32_writeBE32 u s t) hlt
      | littleEndian => exact InputMessage.fetch_append rfl (readLE32_writeLE32 u s t) hlt
    exact congrArg (Option.map (Prod.map MessageValue.uint32 id)) hget
  | uint64 u =>
    have hget : InputMessage.getU64 ⟨s ++ bytes64 order u ++ t, s.length⟩ order =
        some (u, ⟨s ++ bytes64 order u ++ t, s.length + 8⟩) := by
      cases order with
      | bigEndian => exact InputMessage.fetch_append rfl (readBE64_writeBE64 u s t) hlt
      | littleEndian => exact InputMessage.fetch_append rfl (readLE64_writeLE64 u s t) hlt
    exact congrArg (Option.map (Prod.map MessageValue.uint64 id)) hget
  | string chars =>
    have hlen : (UInt16.ofNat chars.length).toNat = chars.length := by
      rw [UInt16.toNat_ofNat', Nat.mod_eq_of_lt hv]
    exact congrArg (Option.map (Prod.map MessageValue.string id))
      (getString_append order chars s t hlen hlt)

theorem readAll_append {values : List MessageValue} (hv : ∀ v ∈ values, Short v)
    (s : Bytes) (hlt : s.length + (values.map MessageValue.width).sum < 2 ^ 32) :
    readAll order ⟨s ++ values.flatMap (bytes order), s.length⟩ (values.map MessageValue.type) =
      some (values, ⟨s ++ values.flatMap (bytes order),
        s.length + (values.map MessageValue.width).sum⟩) := by
  induction values generalizing s with
  | nil => rfl
  | cons v values ih =>
    rw [List.map_cons, List.sum_cons] at hlt
    have hfirst := read_append order (hv v List.mem_cons_self) s (values.flatMap (bytes order))
      (by omega)
    have hrest := ih (fun w hw => hv w (List.mem_cons_of_mem v hw)) (s ++ bytes order v) (by
      rw [List.length_append, length_bytes]
      omega)
    rw [List.length_append, length_bytes] at hrest
    rw [List.flatMap_cons, ← List.append_assoc, List.map_cons, List.map_cons, List.sum_cons,
      readAll, hfirst, Option.bind_some, hrest, ← Nat.add_assoc]
    rfl

variable {order}

/-! ### The cursor of the reader -/

variable {i i' : InputMessage}

theorem exists_of_map {α : Type} {wrap : α → MessageValue} {o : Option (α × InputMessage)}
    {v : MessageValue} (h : o.map (Prod.map wrap id) = some (v, i')) : ∃ a, o = some (a, i') := by
  obtain ⟨⟨a, j⟩, rfl, he⟩ := Option.map_eq_some_iff.1 h
  cases he
  exact ⟨a, rfl⟩

theorem getU16_pos_lt {u : UInt16} (h : i.getU16 order = some (u, i')) : i'.pos < 2 ^ 32 := by
  cases order <;> rw [InputMessage.getU16] at h <;> exact InputMessage.fetch_pos_lt h

/-- Whatever is read, the cursor is a `uint32_t`. -/
theorem read_pos_lt {t : MessageType} {v : MessageValue} (h : read order i t = some (v, i')) :
    i'.pos < 2 ^ 32 := by
  cases t with
  | uint8 =>
    obtain ⟨b, hget⟩ := exists_of_map h
    exact InputMessage.fetch_pos_lt hget
  | uint16 =>
    obtain ⟨u, hget⟩ := exists_of_map h
    exact getU16_pos_lt hget
  | uint32 =>
    obtain ⟨u, hget⟩ := exists_of_map h
    cases order <;> exact InputMessage.fetch_pos_lt hget
  | uint64 =>
    obtain ⟨u, hget⟩ := exists_of_map h
    cases order <;> exact InputMessage.fetch_pos_lt hget
  | string =>
    obtain ⟨s, hget⟩ := exists_of_map h
    obtain ⟨⟨len, k⟩, hlen, hchars⟩ := Option.bind_eq_some_iff.1 hget
    rw [getChars] at hchars
    split_ifs at hchars
    · cases hchars
      exact getU16_pos_lt hlen
    · cases hchars
      exact getU16_pos_lt hlen
    · exact InputMessage.fetch_pos_lt hchars

theorem readAll_pos_lt {types : List MessageType} {values : List MessageValue}
    (hi : i.pos < 2 ^ 32) (h : readAll order i types = some (values, i')) : i'.pos < 2 ^ 32 := by
  induction types generalizing i values with
  | nil =>
    cases h
    exact hi
  | cons t types ih =>
    obtain ⟨⟨v, j⟩, hread, h⟩ := Option.bind_eq_some_iff.1 h
    obtain ⟨⟨rest, k⟩, hrest, he⟩ := Option.map_eq_some_iff.1 h
    cases he
    exact ih (read_pos_lt hread) hrest

/-! ### The round trip -/

theorem short_of_slip {v : MessageValue} (h : slip v.type = 0) : Short v := by
  cases v with
  | string s => cases h
  | _ => trivial

theorem slip_eq_zero_iff (t : MessageType) : slip t = 0 ↔ t ≠ .uint16 ∧ t ≠ .string := by
  cases t <;> simp [slip]

/-- **The round trip of a message.** Whatever the order of the bytes and the initial capacity, the
promise is kept exactly where no value is a `uint16_t` or a string and the message has less than
`2 ^ 32` bytes. -/
theorem roundTrips_iff (fresh : ℕ → UInt8) (order : ByteOrder) (fixedSize : ℕ)
    (values : List MessageValue) :
    RoundTrips fresh order fixedSize values ↔
      (∀ v ∈ values, v.type ≠ .uint16 ∧ v.type ≠ .string) ∧
        (values.map MessageValue.width).sum < 2 ^ 32 := by
  simp only [← slip_eq_zero_iff]
  have hnew : (OutputMessage.new fresh fixedSize).Holding [] := OutputMessage.holding_new fixedSize
  have hpos : (OutputMessage.new fresh fixedSize).pos =
      (OutputMessage.new fresh fixedSize).buffer.size := rfl
  -- the message that values without a slip make
  have hmake : (∀ v ∈ values, slip v.type = 0) → ∃ o,
      Runs.run (write fresh order) (OutputMessage.new fresh fixedSize) values = some o ∧
        o.Holding (values.flatMap (bytes order)) := fun hv => holding_run hnew hv
  constructor
  · rintro ⟨o, hrun, halways, data, hdata, hread⟩
    have hslip := (always_iff_slip hpos (by rw [hrun]; rfl)).1 halways
    obtain ⟨o', hrun', hheld⟩ := hmake hslip
    cases hrun.symm.trans hrun'
    cases hheld.written.symm.trans hdata
    have hlt := readAll_pos_lt (Nat.two_pow_pos 32) hread
    rw [length_flatMap_bytes] at hlt
    exact ⟨hslip, hlt⟩
  · rintro ⟨hslip, hlt⟩
    obtain ⟨o, hrun, hheld⟩ := hmake hslip
    refine ⟨o, hrun, (always_iff_slip hpos (by rw [hrun]; rfl)).2 hslip, _, hheld.written, ?_⟩
    have hread := readAll_append order (fun v hv => short_of_slip (hslip v hv)) []
      (by simpa using hlt)
    rw [length_flatMap_bytes]
    simpa using hread

/-- With room for one byte, the second byte of a `uint16_t` is stored past the cells. -/
theorem not_roundTrips_onePlace :
    ¬ RoundTrips (fun _ => 0) .bigEndian 1 [.uint16 0x1234] := by
  rintro ⟨o, hrun, -⟩
  have hnone : (Runs.run (write (fun _ => 0) .bigEndian) (OutputMessage.new (fun _ => 0) 1)
      [.uint16 0x1234]).isSome = false := by decide +kernel
  rw [hrun] at hnone
  cases hnone

end MessageBuffer

end CTorrent
