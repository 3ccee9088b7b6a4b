import CTorrent.Lib.Splice
import CTorrent.Peer.Message
import CTorrent.Util.DataBuffer

/-!
# `net/outputmessage.cpp` and `net/inputmessage.cpp`

An `OutputMessage` is a growing buffer with a cursor; everything is added behind the cursor. An
`InputMessage` reads a block of bytes from its cursor on, which is a `uint32_t`. The messages to
peers are made and read in big-endian order.

* `OutputMessage.put`: how every value is added; `addBytes`, `build`: what `out << a << b` comes to;
* `build_eq`: the bytes of a message are its parts, one behind the other;
* `InputMessage.fetch`: how every value is read; `getByte`, `getU16`, `getU32`, `getU64`,
  `getBuffer`.
-/

namespace CTorrent

/-- `ByteOrder`. -/
inductive ByteOrder where
  | bigEndian
  | littleEndian
  deriving DecidableEq

/-- An `OutputMessage`. -/
structure OutputMessage where
  buffer : DataBuffer UInt8
  pos : ℕ

namespace OutputMessage

variable (fresh : ℕ → UInt8)

/-- The constructor. -/
def new (fixedSize : ℕ) : OutputMessage :=
  ⟨DataBuffer.new fresh (if fixedSize ≠ 0 then fixedSize else 64), 0⟩

/-- `m_buffer.grow(m_buffer.size() + more)`, then the bytes are stored at `m_buffer[m_pos]` and
`m_pos` moves behind them. `none` where the buffer does not grow, the assertion on `m_buffer[m_pos]`
fails, or bytes would be stored past the cells. -/
def put (more : ℕ) (bytes : Bytes) (o : OutputMessage) : Option OutputMessage :=
  (o.buffer.grow fresh (o.buffer.size + more)).bind fun b =>
    if b.cap ≤ o.pos ∨ b.cap < o.pos + bytes.length then none
    else some ⟨{ b with cells := Splice.overwrite b.cells o.pos bytes }, o.pos + bytes.length⟩

/-- `addBytes`. -/
def addBytes (o : OutputMessage) (bytes : Bytes) : Option OutputMessage :=
  o.put fresh bytes.length bytes

/-- The `size()` bytes from `data(0)` on, which `Connection::write` takes. -/
def written (o : OutputMessage) : Option Bytes :=
  if o.buffer.cap = 0 then none else some (o.buffer.cells.take o.pos)

/-- The message has been given `bytes` so far. -/
structure Holding (o : OutputMessage) (bytes : Bytes) : Prop where
  size_eq : o.buffer.size = bytes.length
  pos_eq : o.pos = bytes.length
  pos_le : o.pos ≤ o.buffer.cap
  cap_pos : 0 < o.buffer.cap
  take_eq : o.buffer.cells.take o.pos = bytes

variable {fresh}

theorem holding_new (fixedSize : ℕ) : Holding (new fresh fixedSize) [] where
  size_eq := rfl
  pos_eq := rfl
  pos_le := Nat.zero_le _
  cap_pos := by
    simp only [new, DataBuffer.new, DataBuffer.cap, List.length_map, List.length_range]
    split_ifs with h
    · exact Nat.pos_of_ne_zero h
    · decide
  take_eq := rfl

/-- **Adding to a message.** A part that is not empty is put behind what the message holds. -/
theorem Holding.addBytes {o : OutputMessage} {bytes part : Bytes} (h : Holding o bytes)
    (hpart : part ≠ []) : ∃ o', o.addBytes fresh part = some o' ∧ Holding o' (bytes ++ part) := by
  have hlen : 0 < part.length := List.length_pos_iff.2 hpart
  have hpos := h.pos_le
  have hsize := h.size_eq
  have hat := h.pos_eq
  obtain ⟨b, hb, hbsize, hle, htake⟩ := DataBuffer.grow_spec fresh
    (by omega : o.buffer.size ≤ o.buffer.cap) h.cap_pos
    (Nat.lt_add_of_pos_right hlen : o.buffer.size < o.buffer.size + part.length)
  have hcells : bytes.length + part.length ≤ b.cells.length := by
    rw [hsize] at hle
    exact hle
  have hover : (Splice.overwrite b.cells o.pos part).length = b.cells.length :=
    Splice.length_overwrite (by omega)
  refine ⟨⟨{ b with cells := Splice.overwrite b.cells o.pos part }, o.pos + part.length⟩, ?_, ?_⟩
  · rw [OutputMessage.addBytes, put, hb, Option.bind_some, if_neg]
    simp only [DataBuffer.cap]
    omega
  · constructor
    · simpa [hsize] using hbsize
    · simp [hat]
    · simp only [DataBuffer.cap, hover]
      omega
    · simp only [DataBuffer.cap, hover]
      omega
    · have hbytes : b.cells.take o.pos = bytes := by
        rw [hat, ← hsize, htake, hsize, ← hat]
        exact h.take_eq
      simp only [Splice.overwrite, hbytes]
      rw [hat, ← List.length_append, List.take_left]

theorem Holding.written {o : OutputMessage} {bytes : Bytes} (h : Holding o bytes) :
    o.written = some bytes := by
  have hcap := h.cap_pos
  rw [OutputMessage.written, if_neg (by omega), h.take_eq]

variable (fresh)

/-- `out << part << … << part`, and what `Connection::write` takes of it. -/
def build (fixedSize : ℕ) (parts : List Bytes) : Option Bytes :=
  (parts.foldlM (addBytes fresh) (new fresh fixedSize)).bind written

/-- **The bytes of a message.** Whatever size was reserved, they are the parts in order. -/
theorem build_eq (fixedSize : ℕ) {parts : List Bytes} (h : ∀ part ∈ parts, part ≠ []) :
    build fresh fixedSize parts = some parts.flatten := by
  have hfold : ∀ (ps : List Bytes) (o : OutputMessage) (bytes : Bytes), (∀ p ∈ ps, p ≠ []) →
      Holding o bytes → ∃ o', ps.foldlM (OutputMessage.addBytes fresh) o = some o' ∧
        Holding o' (bytes ++ ps.flatten) := by
    intro ps
    induction ps with
    | nil =>
      intro o bytes _ ho
      exact ⟨o, rfl, by simpa using ho⟩
    | cons p ps ih =>
      intro o bytes hps ho
      obtain ⟨o1, h1, ho1⟩ : ∃ o1, o.addBytes fresh p = some o1 ∧ Holding o1 (bytes ++ p) :=
        ho.addBytes (hps p List.mem_cons_self)
      obtain ⟨o2, h2, ho2⟩ := ih o1 _ (fun q hq => hps q (List.mem_cons_of_mem p hq)) ho1
      refine ⟨o2, ?_, by simpa using ho2⟩
      rw [List.foldlM_cons, h1]
      exact h2
  obtain ⟨o, ho, hold⟩ := hfold parts _ [] h (holding_new fixedSize)
  rw [build, ho, Option.bind_some, hold.written, List.nil_append]

end OutputMessage

/-- An `InputMessage`. -/
structure InputMessage where
  data : Bytes
  pos : ℕ := 0

namespace InputMessage

variable (i : InputMessage) (order : ByteOrder)

/-- `width` bytes are read at `m_data[m_pos]` and `m_pos` moves behind them, as a `uint32_t`. `none`
where bytes past the data are read. -/
def fetch {α : Type} (width : ℕ) (read : Bytes → ℕ → α) (i : InputMessage) :
    Option (α × InputMessage) :=
  if i.pos + width ≤ i.data.length then
    some (read i.data i.pos, { i with pos := (i.pos + width) % 2 ^ 32 })
  else none

/-- `getByte`. -/
def getByte : Option (UInt8 × InputMessage) := i.fetch 1 byteAt

/-- `getU16`. -/
def getU16 : Option (UInt16 × InputMessage) :=
  match order with
  | .bigEndian => i.fetch 2 fun data pos => (readBE16 data pos).toUInt16
  | .littleEndian => i.fetch 2 fun data pos => (readLE16 data pos).toUInt16

/-- `getU32`. -/
def getU32 : Option (UInt32 × InputMessage) :=
  match order with
  | .bigEndian => i.fetch 4 readBE32
  | .littleEndian => i.fetch 4 readLE32

/-- `getU64`. -/
def getU64 : Option (UInt64 × InputMessage) :=
  match order with
  | .bigEndian => i.fetch 8 readBE64
  | .littleEndian => i.fetch 8 readLE64

/-- `getBuffer(size)`: `none` is the null pointer. -/
def getBuffer (size : ℕ) : Option Bytes :=
  if i.pos + size > i.data.length then none else some (Splice.region i.data i.pos size)

section Fetch

variable {α : Type} {width : ℕ} {reader : Bytes → ℕ → α} {i}

theorem fetch_of_le {payload : Bytes} {pos : ℕ} (h : pos + width ≤ payload.length)
    (hlt : pos + width < 2 ^ 32) :
    fetch width reader ⟨payload, pos⟩ = some (reader payload pos, ⟨payload, pos + width⟩) := by
  rw [fetch, if_pos h, Nat.mod_eq_of_lt hlt]

/-- A part that the cursor can count is read, and the cursor moves behind it. -/
theorem fetch_append {s m t : Bytes} {a : α} (hm : m.length = width)
    (hread : reader (s ++ m ++ t) s.length = a) (hlt : s.length + width < 2 ^ 32) :
    fetch width reader ⟨s ++ m ++ t, s.length⟩ = some (a, ⟨s ++ m ++ t, s.length + width⟩) := by
  rw [fetch_of_le ?_ hlt, hread]
  simp only [List.length_append]
  omega

theorem fetch_pos_lt {i' : InputMessage} {a : α} (h : i.fetch width reader = some (a, i')) :
    i'.pos < 2 ^ 32 := by
  rw [fetch] at h
  split_ifs at h
  cases h
  exact Nat.mod_lt _ (by decide)

end Fetch

theorem getU32_of_le (payload : Bytes) (pos : ℕ) (h : pos + 4 ≤ payload.length)
    (hlt : pos + 4 < 2 ^ 32) :
    getU32 ⟨payload, pos⟩ .bigEndian = some (readBE32 payload pos, ⟨payload, pos + 4⟩) :=
  fetch_of_le h hlt

theorem getU16_of_le (payload : Bytes) (pos : ℕ) (h : pos + 2 ≤ payload.length)
    (hlt : pos + 2 < 2 ^ 32) :
    getU16 ⟨payload, pos⟩ .bigEndian =
      some ((readBE16 payload pos).toUInt16, ⟨payload, pos + 2⟩) :=
  @fetch_of_le _ 2 (fun data pos => (readBE16 data pos).toUInt16) payload pos h hlt

/-- A word in front of the rest is read, and the cursor moves behind it. -/
theorem getU32_eq (s t : Bytes) (w : UInt32) (hlt : s.length + 4 < 2 ^ 32) :
    getU32 ⟨s ++ writeBE32 w ++ t, s.length⟩ .bigEndian =
      some (w, ⟨s ++ writeBE32 w ++ t, s.length + 4⟩) :=
  fetch_append rfl (readBE32_writeBE32 w s t) hlt

end InputMessage

end CTorrent
