import CTorrent.Bencode.Value
import CTorrent.Util.DataBuffer

/-!
# `bencode/encoder.cpp`: the encoder

A `Bencode` object is its buffer and the cursor `m_pos`. The writers append to the buffer, which
also holds whatever was decoded, and move the cursor along. A writer is `none` only where the
buffer's `grow` would not return (capacity zero).

* `writeType`, `writeVector`, `writeDictionary`, `encode`: the writers;
* `encoding`: the bytes a value is written as;
* `Appends`: what a writer does to the object; `writeType_spec`, `encode_spec`.
-/

namespace CTorrent

/-- A `Bencode` object. -/
structure Bencode where
  buffer : DataBuffer UInt8
  pos : ℕ

/-- `std::to_string` of a signed number. -/
def intText (z : ℤ) : Bytes :=
  if z < 0 then ch '-' :: Decimal.text (-z).toNat else Decimal.text z.toNat

namespace Bencode

variable (fresh : ℕ → UInt8)

/-- `Bencode()`: an empty buffer of 64 cells. -/
def new : Bencode := ⟨DataBuffer.new fresh 64, 0⟩

/-- `m_buffer.add(c); ++m_pos`. -/
def addByte (b : Bencode) (c : UInt8) : Option Bencode :=
  (b.buffer.add fresh c).map fun buffer => ⟨buffer, b.pos + 1⟩

/-- `internalWriteString`. -/
def internalWriteString (b : Bencode) (str : Bytes) : Option Bencode :=
  (str.foldlM (fun buffer c => DataBuffer.add fresh buffer c) b.buffer).map fun buffer =>
    ⟨buffer, b.pos + str.length⟩

/-- `writeString`. -/
def writeString (b : Bencode) (str : Bytes) : Option Bencode := do
  let b ← b.internalWriteString fresh (Decimal.text str.length)
  let b ← b.addByte fresh (ch ':')
  b.internalWriteString fresh str

/-- `writeInt`. -/
def writeInt (b : Bencode) (i : ℤ) : Option Bencode := do
  let b ← b.addByte fresh (ch 'i')
  let b ← b.internalWriteString fresh (intText i)
  b.addByte fresh (ch 'e')

/-- `writeUint`. -/
def writeUint (b : Bencode) (i : ℕ) : Option Bencode := do
  let b ← b.addByte fresh (ch 'i')
  let b ← b.internalWriteString fresh (Decimal.text i)
  b.addByte fresh (ch 'e')

mutual

/-- `writeType`. -/
def writeType : Any → Bencode → Option Bencode
  | .int64 i, b => b.writeInt fresh i.toInt
  | .uint64 u, b => b.writeUint fresh u.toNat
  | .int i, b => b.writeInt fresh i.toInt
  | .uint32 u, b => b.writeUint fresh u.toNat
  | .string s, b => b.writeString fresh s
  | .cstring s, b => b.writeString fresh s
  | .dictionary d, b => do
      let b ← b.addByte fresh (ch 'd')
      let b ← writePairs d b
      b.addByte fresh (ch 'e')
  | .vector v, b => do
      let b ← b.addByte fresh (ch 'l')
      let b ← writeValues v b
      b.addByte fresh (ch 'e')
  | .empty, b => some b

/-- The loop of `writeVector`. -/
def writeValues : VectorType → Bencode → Option Bencode
  | [], b => some b
  | value :: v, b => do
      let b ← writeType value b
      writeValues v b

/-- The loop of `writeDictionary`. -/
def writePairs : Dictionary → Bencode → Option Bencode
  | [], b => some b
  | (key, value) :: d, b => do
      let b ← b.writeString fresh key
      let b ← writeType value b
      writePairs d b

end

/-- `writeDictionary`. -/
def writeDictionary (b : Bencode) (d : Dictionary) : Option Bencode :=
  writeType fresh (.dictionary d) b

/-- `encode`: the buffer is cut at the cursor and the dictionary is written there. -/
def encode (b : Bencode) (d : Dictionary) : Option Bencode :=
  writeDictionary fresh { b with buffer := b.buffer.setSize b.pos } d

/-- `buffer(pos, bufferSize)`: the bytes from `pos` to the end of the buffer. -/
def bufferFrom (b : Bencode) (pos : ℕ) : Bytes := b.buffer.contents.drop pos

end Bencode

/-! ### The bytes a value is written as -/

/-- The bytes of a string. -/
def stringEncoding (s : Bytes) : Bytes := Decimal.text s.length ++ ch ':' :: s

/-- The bytes of an integer whose decimal text is `t`. -/
def intEncoding (t : Bytes) : Bytes := ch 'i' :: (t ++ [ch 'e'])

mutual

/-- The bytes `writeType` appends. -/
def encoding : Any → Bytes
  | .int64 i => intEncoding (intText i.toInt)
  | .uint64 u => intEncoding (Decimal.text u.toNat)
  | .int i => intEncoding (intText i.toInt)
  | .uint32 u => intEncoding (Decimal.text u.toNat)
  | .string s => stringEncoding s
  | .cstring s => stringEncoding s
  | .dictionary d => ch 'd' :: (pairsEncoding d ++ [ch 'e'])
  | .vector v => ch 'l' :: (valuesEncoding v ++ [ch 'e'])
  | .empty => []

/-- The bytes of the elements of a vector. -/
def valuesEncoding : VectorType → Bytes
  | [] => []
  | value :: v => encoding value ++ valuesEncoding v

/-- The bytes of the pairs of a dictionary. -/
def pairsEncoding : Dictionary → Bytes
  | [] => []
  | (key, value) :: d => stringEncoding key ++ (encoding value ++ pairsEncoding d)

end

namespace Bencode

variable (fresh : ℕ → UInt8)

/-- The buffer has room to grow: its size is within a positive capacity. -/
structure Ready (b : Bencode) : Prop where
  size_le : b.buffer.size ≤ b.buffer.cap
  cap_pos : 0 < b.buffer.cap

/-- `b'` is `b` with `bs` appended to the buffer and the cursor moved past it. -/
structure Appends (b : Bencode) (bs : Bytes) (b' : Bencode) : Prop where
  pos : b'.pos = b.pos + bs.length
  size : b'.buffer.size = b.buffer.size + bs.length
  contents : b'.buffer.contents = b.buffer.contents ++ bs
  ready : b'.Ready

theorem Appends.refl {b : Bencode} (h : b.Ready) : Appends b [] b :=
  ⟨by simp, by simp, by simp, h⟩

theorem Appends.trans {a b c : Bencode} {bs cs : Bytes} (h1 : Appends a bs b)
    (h2 : Appends b cs c) : Appends a (bs ++ cs) c where
  pos := by rw [h2.pos, h1.pos, List.length_append, Nat.add_assoc]
  size := by rw [h2.size, h1.size, List.length_append, Nat.add_assoc]
  contents := by rw [h2.contents, h1.contents, List.append_assoc]
  ready := h2.ready

theorem add_ready {buffer : DataBuffer UInt8} {p q : ℕ} (h : Ready ⟨buffer, p⟩) (c : UInt8) :
    ∃ buffer', buffer.add fresh c = some buffer' ∧ Ready ⟨buffer', q⟩ ∧
      buffer'.size = buffer.size + 1 ∧ buffer'.contents = buffer.contents ++ [c] := by
  obtain ⟨buffer', h', hs, hle, hc⟩ := DataBuffer.add_spec fresh h.size_le h.cap_pos c
  exact ⟨buffer', h', ⟨hle, (Nat.succ_pos _).trans_le (hs ▸ hle)⟩, hs, hc⟩

theorem addByte_spec {b : Bencode} (h : b.Ready) (c : UInt8) :
    ∃ b', b.addByte fresh c = some b' ∧ Appends b [c] b' := by
  obtain ⟨buffer', h', hr, hs, hc⟩ := add_ready fresh (q := b.pos + 1) h c
  exact ⟨⟨buffer', b.pos + 1⟩, by rw [addByte, h']; rfl, rfl, hs, hc, hr⟩

theorem foldlM_add_spec (str : Bytes) {buffer : DataBuffer UInt8} {p q : ℕ}
    (h : Ready ⟨buffer, p⟩) :
    ∃ buffer', str.foldlM (fun buffer c => DataBuffer.add fresh buffer c) buffer = some buffer' ∧
      Ready ⟨buffer', q⟩ ∧ buffer'.size = buffer.size + str.length ∧
      buffer'.contents = buffer.contents ++ str := by
  induction str generalizing buffer with
  | nil => exact ⟨buffer, rfl, ⟨h.size_le, h.cap_pos⟩, rfl, by simp⟩
  | cons c str ih =>
    obtain ⟨buffer₁, h₁, hr₁, hs₁, hc₁⟩ := add_ready fresh (q := p) h c
    obtain ⟨buffer₂, h₂, hr₂, hs₂, hc₂⟩ := ih hr₁
    refine ⟨buffer₂, by rw [List.foldlM_cons, h₁]; exact h₂, hr₂, ?_, ?_⟩
    · rw [hs₂, hs₁, List.length_cons]; omega
    · rw [hc₂, hc₁, List.append_assoc, List.singleton_append]

theorem internalWriteString_spec {b : Bencode} (h : b.Ready) (str : Bytes) :
    ∃ b', b.internalWriteString fresh str = some b' ∧ Appends b str b' := by
  obtain ⟨buffer', h', hr, hs, hc⟩ := foldlM_add_spec fresh str (q := b.pos + str.length) h
  exact ⟨⟨buffer', b.pos + str.length⟩, by rw [internalWriteString, h']; rfl, rfl, hs, hc, hr⟩

/-- Two writers in sequence. -/
theorem bind_spec {b : Bencode} {bs : Bytes} (cs : Bytes) {f : Option Bencode}
    {g : Bencode → Option Bencode} (hf : ∃ b', f = some b' ∧ Appends b bs b')
    (hg : ∀ b', b'.Ready → ∃ b'', g b' = some b'' ∧ Appends b' cs b'') :
    ∃ b'', f.bind g = some b'' ∧ Appends b (bs ++ cs) b'' := by
  obtain ⟨b₁, rfl, h₁⟩ := hf
  obtain ⟨b₂, h₂, h₃⟩ := hg b₁ h₁.ready
  exact ⟨b₂, h₂, h₁.trans h₃⟩

theorem writeString_spec {b : Bencode} (h : b.Ready) (str : Bytes) :
    ∃ b', b.writeString fresh str = some b' ∧ Appends b (stringEncoding str) b' :=
  bind_spec _ (internalWriteString_spec fresh h _) fun _ h₁ =>
    bind_spec str (addByte_spec fresh h₁ _) fun _ h₂ => internalWriteString_spec fresh h₂ _

theorem writeUint_spec {b : Bencode} (h : b.Ready) (n : ℕ) :
    ∃ b', b.writeUint fresh n = some b' ∧ Appends b (intEncoding (Decimal.text n)) b' :=
  bind_spec _ (addByte_spec fresh h _) fun _ h₁ =>
    bind_spec _ (internalWriteString_spec fresh h₁ _) fun _ h₂ => addByte_spec fresh h₂ _

theorem writeInt_spec {b : Bencode} (h : b.Ready) (i : ℤ) :
    ∃ b', b.writeInt fresh i = some b' ∧ Appends b (intEncoding (intText i)) b' :=
  bind_spec _ (addByte_spec fresh h _) fun _ h₁ =>
    bind_spec _ (internalWriteString_spec fresh h₁ _) fun _ h₂ => addByte_spec fresh h₂ _

mutual

/-- `writeType` appends the encoding of the value. -/
theorem writeType_spec : ∀ (value : Any) {b : Bencode}, b.Ready →
    ∃ b', writeType fresh value b = some b' ∧ Appends b (encoding value) b'
  | .int64 i, _, h => by rw [writeType, encoding]; exact writeInt_spec fresh h _
  | .uint64 u, _, h => by rw [writeType, encoding]; exact writeUint_spec fresh h _
  | .int i, _, h => by rw [writeType, encoding]; exact writeInt_spec fresh h _
  | .uint32 u, _, h => by rw [writeType, encoding]; exact writeUint_spec fresh h _
  | .string s, _, h => by rw [writeType, encoding]; exact writeString_spec fresh h _
  | .cstring s, _, h => by rw [writeType, encoding]; exact writeString_spec fresh h _
  | .dictionary d, _, h => by
      rw [writeType, encoding]
      exact bind_spec (pairsEncoding d ++ [ch 'e']) (addByte_spec fresh h _) fun _ h₁ =>
        bind_spec _ (writePairs_spec d h₁) fun _ h₂ => addByte_spec fresh h₂ _
  | .vector v, _, h => by
      rw [writeType, encoding]
      exact bind_spec (valuesEncoding v ++ [ch 'e']) (addByte_spec fresh h _) fun _ h₁ =>
        bind_spec _ (writeValues_spec v h₁) fun _ h₂ => addByte_spec fresh h₂ _
  | .empty, b, h => ⟨b, by rw [writeType], by rw [encoding]; exact Appends.refl h⟩

theorem writeValues_spec : ∀ (v : VectorType) {b : Bencode}, b.Ready →
    ∃ b', writeValues fresh v b = some b' ∧ Appends b (valuesEncoding v) b'
  | [], b, h => ⟨b, by rw [writeValues], by rw [valuesEncoding]; exact Appends.refl h⟩
  | value :: v, _, h => by
      rw [writeValues, valuesEncoding]
      exact bind_spec _ (writeType_spec value h) fun _ h₁ => writeValues_spec v h₁

theorem writePairs_spec : ∀ (d : Dictionary) {b : Bencode}, b.Ready →
    ∃ b', writePairs fresh d b = some b' ∧ Appends b (pairsEncoding d) b'
  | [], b, h => ⟨b, by rw [writePairs], by rw [pairsEncoding]; exact Appends.refl h⟩
  | (key, value) :: d, _, h => by
      rw [writePairs, pairsEncoding]
      exact bind_spec _ (writeString_spec fresh h key) fun _ h₁ =>
        bind_spec _ (writeType_spec value h₁) fun _ h₂ => writePairs_spec d h₂

end

/-- **`encode` writes at the cursor.** What the buffer held below the cursor stays, the encoding
of the dictionary follows it, and nothing else. -/
theorem encode_spec {b : Bencode} (hpos : b.pos ≤ b.buffer.cap) (hcap : 0 < b.buffer.cap)
    (d : Dictionary) :
    ∃ b', b.encode fresh d = some b' ∧ b'.pos = b.pos + (encoding (.dictionary d)).length ∧
      b'.buffer.size = b'.pos ∧
      b'.buffer.contents = b.buffer.cells.take b.pos ++ encoding (.dictionary d) ∧
      b'.bufferFrom b.pos = encoding (.dictionary d) := by
  obtain ⟨b', h', ha⟩ := writeType_spec fresh (.dictionary d)
    (b := { b with buffer := b.buffer.setSize b.pos }) ⟨hpos, hcap⟩
  have hc : b'.buffer.contents = b.buffer.cells.take b.pos ++ encoding (.dictionary d) := ha.contents
  refine ⟨b', h', ha.pos, by rw [ha.size, ha.pos]; rfl, hc, ?_⟩
  rw [bufferFrom, hc, List.drop_left' (by rw [List.length_take]; exact Nat.min_eq_left hpos)]

end Bencode

end CTorrent
