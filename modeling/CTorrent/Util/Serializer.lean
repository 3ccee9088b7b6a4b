import CTorrent.Bencode.Value
import Mathlib.Tactic.IntervalCases

/-!
# `util/serializer.h`: words in either byte order

The readers take a word out of a block of bytes at an offset, the writers give the bytes of a word.
What `readBE16` and `readLE16` return is kept with 32 bits, as the longer readers use it.

* `readLE16`, `readLE32`, `readLE64`, `readBE16`, `readBE32`, `readBE64`;
* `writeLE16`, `writeLE32`, `writeLE64`, `writeBE16`, `writeBE32`, `writeBE64`;
* `readLE16_writeLE16`, …, `readBE64_writeBE64`: a word is read back;
* `readBE32_eq_iff`: the bytes from which a word is read.
-/

namespace CTorrent

/-- The byte at an offset; the callers stay inside the payload. -/
def byteAt (payload : Bytes) (pos : ℕ) : UInt8 := payload[pos]?.getD 0

/-! ### Little endian -/

/-- `readLE16` at an offset. -/
def readLE16 (bytes : Bytes) (pos : ℕ) : UInt32 :=
  ((byteAt bytes (pos + 1)).toUInt32 <<< 8) ||| (byteAt bytes pos).toUInt32

/-- `readLE32` at an offset. -/
def readLE32 (bytes : Bytes) (pos : ℕ) : UInt32 :=
  (readLE16 bytes (pos + 2) <<< 16) ||| readLE16 bytes pos

/-- `readLE64` at an offset. -/
def readLE64 (bytes : Bytes) (pos : ℕ) : UInt64 :=
  ((readLE32 bytes (pos + 4)).toUInt64 <<< 32) ||| (readLE32 bytes pos).toUInt64

/-- `writeLE16`. -/
def writeLE16 (w : UInt16) : Bytes := [w.toUInt8, (w >>> 8).toUInt8]

/-- `writeLE32`. -/
def writeLE32 (w : UInt32) : Bytes :=
  [w.toUInt8, (w >>> 8).toUInt8, (w >>> 16).toUInt8, (w >>> 24).toUInt8]

/-- `writeLE64`. -/
def writeLE64 (w : UInt64) : Bytes := writeLE32 w.toUInt32 ++ writeLE32 (w >>> 32).toUInt32

/-! ### Big endian -/

/-- `readBE16` at an offset. -/
def readBE16 (payload : Bytes) (pos : ℕ) : UInt32 :=
  (byteAt payload (pos + 1)).toUInt32 ||| ((byteAt payload pos).toUInt32 <<< 8)

/-- `readBE32` at an offset. -/
def readBE32 (payload : Bytes) (pos : ℕ) : UInt32 :=
  readBE16 payload (pos + 2) ||| (readBE16 payload pos <<< 16)

/-- `readBE64` at an offset. -/
def readBE64 (bytes : Bytes) (pos : ℕ) : UInt64 :=
  (readBE32 bytes (pos + 4)).toUInt64 ||| ((readBE32 bytes pos).toUInt64 <<< 32)

/-- `writeBE16`. -/
def writeBE16 (w : UInt16) : Bytes := [(w >>> 8).toUInt8, w.toUInt8]

/-- `writeBE32`. -/
def writeBE32 (w : UInt32) : Bytes :=
  [(w >>> 24).toUInt8, (w >>> 16).toUInt8, (w >>> 8).toUInt8, w.toUInt8]

/-- `writeBE64`. -/
def writeBE64 (w : UInt64) : Bytes :=
  [(w >>> 56).toUInt8, (w >>> 48).toUInt8, (w >>> 40).toUInt8, (w >>> 32).toUInt8,
    (w >>> 24).toUInt8, (w >>> 16).toUInt8, (w >>> 8).toUInt8, w.toUInt8]

@[simp] theorem length_writeLE16 (w : UInt16) : (writeLE16 w).length = 2 := rfl
@[simp] theorem length_writeLE32 (w : UInt32) : (writeLE32 w).length = 4 := rfl
@[simp] theorem length_writeLE64 (w : UInt64) : (writeLE64 w).length = 8 := rfl
@[simp] theorem length_writeBE16 (w : UInt16) : (writeBE16 w).length = 2 := rfl
@[simp] theorem length_writeBE32 (w : UInt32) : (writeBE32 w).length = 4 := rfl
@[simp] theorem length_writeBE64 (w : UInt64) : (writeBE64 w).length = 8 := rfl

/-- A short word has 16 bits. -/
theorem readBE16_lt (bytes : Bytes) (pos : ℕ) : (readBE16 bytes pos).toNat < 2 ^ 16 := by
  have hlow := (byteAt bytes (pos + 1)).toNat_lt
  have hhigh := (byteAt bytes pos).toNat_lt
  rw [readBE16, UInt32.toNat_or]
  refine Nat.or_lt_two_pow (by rw [UInt8.toNat_toUInt32]; omega) ?_
  rw [UInt32.toNat_shiftLeft, UInt8.toNat_toUInt32, Nat.shiftLeft_eq]
  have hshift : (8 : UInt32).toNat % 32 = 8 := rfl
  rw [hshift]
  omega

/-! ### A word is read back -/

theorem byteAt_append_left {s t : Bytes} {k : ℕ} (h : k < s.length) :
    byteAt (s ++ t) k = byteAt s k := by
  rw [byteAt, byteAt, List.getElem?_append_left h]

/-- The bytes in the middle of a text. -/
theorem byteAt_append (s m t : Bytes) {k : ℕ} (hk : k < m.length) :
    byteAt (s ++ m ++ t) (s.length + k) = byteAt m k := by
  rw [byteAt, byteAt, List.append_assoc, List.getElem?_append_right (by omega),
    Nat.add_sub_cancel_left, List.getElem?_append_left hk]

/-- The bytes of a short word, put together again. -/
theorem join_bytes16 (w : UInt16) :
    w.toUInt8.toUInt32 ||| ((w >>> 8).toUInt8.toUInt32 <<< 8) = w.toUInt32 := by
  apply UInt32.eq_of_toBitVec_eq
  apply BitVec.eq_of_getLsbD_eq
  intro i hi
  simp only [UInt32.toBitVec_or, UInt32.toBitVec_shiftLeft, UInt8.toBitVec_toUInt32,
    UInt16.toBitVec_toUInt32, UInt16.toBitVec_toUInt8, UInt16.toBitVec_shiftRight]
  interval_cases i <;> simp

/-- The bytes of a word, put together again. -/
theorem join_bytes (w : UInt32) :
    (w.toUInt8.toUInt32 ||| ((w >>> 8).toUInt8.toUInt32 <<< 8)) |||
      (((w >>> 16).toUInt8.toUInt32 ||| ((w >>> 24).toUInt8.toUInt32 <<< 8)) <<< 16) = w := by
  apply UInt32.eq_of_toBitVec_eq
  apply BitVec.eq_of_getLsbD_eq
  intro i hi
  simp only [UInt32.toBitVec_or, UInt32.toBitVec_shiftLeft, UInt8.toBitVec_toUInt32,
    UInt32.toBitVec_toUInt8, UInt32.toBitVec_shiftRight]
  interval_cases i <;> simp

/-- The bytes of a word that was put together. -/
theorem split_bytes (b0 b1 b2 b3 : UInt8) (w : UInt32)
    (h : (b0.toUInt32 ||| (b1.toUInt32 <<< 8)) |||
      ((b2.toUInt32 ||| (b3.toUInt32 <<< 8)) <<< 16) = w) :
    b0 = w.toUInt8 ∧ b1 = (w >>> 8).toUInt8 ∧ b2 = (w >>> 16).toUInt8 ∧
      b3 = (w >>> 24).toUInt8 := by
  subst h
  refine ⟨?_, ?_, ?_, ?_⟩ <;>
  · apply UInt8.eq_of_toBitVec_eq
    apply BitVec.eq_of_getLsbD_eq
    intro i hi
    simp only [UInt32.toBitVec_or, UInt32.toBitVec_shiftLeft, UInt8.toBitVec_toUInt32,
      UInt32.toBitVec_toUInt8, UInt32.toBitVec_shiftRight]
    interval_cases i <;> simp

/-- The halves of a long word, put together again. -/
theorem join_halves (w : UInt64) :
    w.toUInt32.toUInt64 ||| ((w >>> 32).toUInt32.toUInt64 <<< 32) = w := by
  apply UInt64.eq_of_toBitVec_eq
  apply BitVec.eq_of_getLsbD_eq
  intro i hi
  simp only [UInt64.toBitVec_or, UInt64.toBitVec_shiftLeft, UInt32.toBitVec_toUInt64,
    UInt64.toBitVec_toUInt32, UInt64.toBitVec_shiftRight]
  interval_cases i <;> simp

theorem readLE16_writeLE16 (w : UInt16) (s t : Bytes) :
    readLE16 (s ++ writeLE16 w ++ t) s.length = w.toUInt32 := by
  have h0 := byteAt_append s (writeLE16 w) t (k := 0) (by simp)
  have h1 := byteAt_append s (writeLE16 w) t (k := 1) (by simp)
  rw [Nat.add_zero] at h0
  rw [readLE16, h0, h1, UInt32.or_comm]
  exact join_bytes16 w

theorem readBE16_writeBE16 (w : UInt16) (s t : Bytes) :
    readBE16 (s ++ writeBE16 w ++ t) s.length = w.toUInt32 := by
  have h0 := byteAt_append s (writeBE16 w) t (k := 0) (by simp)
  have h1 := byteAt_append s (writeBE16 w) t (k := 1) (by simp)
  rw [Nat.add_zero] at h0
  rw [readBE16, h0, h1]
  exact join_bytes16 w

theorem readLE32_writeLE32 (w : UInt32) (s t : Bytes) :
    readLE32 (s ++ writeLE32 w ++ t) s.length = w := by
  have hbyte := fun k => byteAt_append s (writeLE32 w) t (k := k)
  rw [length_writeLE32] at hbyte
  have h0 := hbyte 0 (by decide)
  rw [Nat.add_zero] at h0
  rw [readLE32, readLE16, readLE16, h0, Nat.add_assoc, hbyte 1 (by decide), hbyte 2 (by decide),
    hbyte 3 (by decide), UInt32.or_comm, UInt32.or_comm _ (byteAt _ 0).toUInt32,
    UInt32.or_comm _ (byteAt _ 2).toUInt32]
  exact join_bytes w

theorem readBE32_writeBE32 (w : UInt32) (s t : Bytes) :
    readBE32 (s ++ writeBE32 w ++ t) s.length = w := by
  have hbyte := fun k => byteAt_append s (writeBE32 w) t (k := k)
  rw [length_writeBE32] at hbyte
  have h0 := hbyte 0 (by decide)
  rw [Nat.add_zero] at h0
  rw [readBE32, readBE16, readBE16, h0, Nat.add_assoc, hbyte 1 (by decide), hbyte 2 (by decide),
    hbyte 3 (by decide)]
  simp only [writeBE32, byteAt, List.getElem?_cons_zero, List.getElem?_cons_succ, Option.getD_some]
  exact join_bytes w

/-- A word is known by its bytes. -/
theorem readBE32_eq_iff {bytes : Bytes} {pos : ℕ} {w : UInt32} :
    readBE32 bytes pos = w ↔ ∀ j < 4, byteAt bytes (pos + j) = byteAt (writeBE32 w) j := by
  constructor
  · intro h
    obtain ⟨h3, h2, h1, h0⟩ := split_bytes (byteAt bytes (pos + 2 + 1)) (byteAt bytes (pos + 2))
      (byteAt bytes (pos + 1)) (byteAt bytes pos) w h
    intro j hj
    interval_cases j <;> assumption
  · intro h
    have hword := readBE32_writeBE32 w [] []
    rw [← hword]
    simp only [readBE32, readBE16, Nat.add_assoc, h 1 (by decide), h 2 (by decide), h 3 (by decide)]
    have h0 := h 0 (by decide)
    rw [Nat.add_zero] at h0
    rw [h0]
    rfl

/-- A long word is written as its halves. -/
theorem writeBE64_eq (w : UInt64) :
    writeBE64 w = writeBE32 (w >>> 32).toUInt32 ++ writeBE32 w.toUInt32 := by
  simp only [writeBE64, writeBE32, List.cons_append, List.nil_append, List.cons.injEq, and_true]
  refine ⟨?_, ?_, ?_, ?_, ?_, ?_, ?_, ?_⟩ <;>
  · apply UInt8.eq_of_toBitVec_eq
    apply BitVec.eq_of_getLsbD_eq
    intro i hi
    simp only [UInt64.toBitVec_toUInt8, UInt32.toBitVec_toUInt8, UInt64.toBitVec_toUInt32,
      UInt64.toBitVec_shiftRight, UInt32.toBitVec_shiftRight]
    interval_cases i <;> simp

theorem readLE64_writeLE64 (w : UInt64) (s t : Bytes) :
    readLE64 (s ++ writeLE64 w ++ t) s.length = w := by
  have hlow := readLE32_writeLE32 w.toUInt32 s (writeLE32 (w >>> 32).toUInt32 ++ t)
  have hhigh := readLE32_writeLE32 (w >>> 32).toUInt32 (s ++ writeLE32 w.toUInt32) t
  rw [List.length_append, length_writeLE32] at hhigh
  simp only [List.append_assoc] at hlow hhigh
  rw [readLE64, writeLE64]
  simp only [List.append_assoc]
  rw [hlow, hhigh, UInt64.or_comm]
  exact join_halves w

theorem readBE64_writeBE64 (w : UInt64) (s t : Bytes) :
    readBE64 (s ++ writeBE64 w ++ t) s.length = w := by
  have hhigh := readBE32_writeBE32 (w >>> 32).toUInt32 s (writeBE32 w.toUInt32 ++ t)
  have hlow := readBE32_writeBE32 w.toUInt32 (s ++ writeBE32 (w >>> 32).toUInt32) t
  rw [List.length_append, length_writeBE32] at hlow
  simp only [List.append_assoc] at hlow hhigh
  rw [readBE64, writeBE64_eq]
  simp only [List.append_assoc]
  rw [hlow, hhigh]
  exact join_halves w

end CTorrent
