import CTorrent.Peer.Handle

/-!
# Bitfields

`Torrent::sendBitfield` builds one byte for each piece where one bit is meant: the byte of a
completed piece gets at most one bit, taken from the mirrored position of its group of eight, and
the other bytes are whatever the stack holds. The receiver takes the payload for eight pieces a
byte, most significant bit first.

* `test_receiveBits`: the pieces a payload announces;
* `Agrees`: the receiver knows exactly the pieces of the sender; `not_agrees`: it never does.
-/

namespace CTorrent

theorem Torrent.requestPiece_bitset {s s' : Session} (h : Torrent.requestPiece s = some s') :
    s'.peer.bitset = s.peer.bitset := by
  obtain ⟨-, -, -, hp | ⟨index, length, -, -, hp⟩⟩ := Torrent.requestPiece_cases h <;> rw [hp]

namespace Peer

variable {sha1 : Bytes → Sha1sum} {human : ℕ → String}

/-- A bit of a byte as the handler of `MT_Bitfield` tests it. -/
theorem and_shift_ne_zero (x : UInt8) {k : ℕ} (hk : k < 8) :
    x &&& (1 <<< UInt8.ofNat (7 - k)) ≠ 0 ↔ x.toNat.testBit (7 - k) = true := by
  have h := Bitset.and_mask_ne_zero x (7 - k)
  rw [Bitset.mask, Nat.mod_eq_of_lt (by omega)] at h
  rw [← h, bne_iff_ne]

/-- **The pieces a bitfield announces.** Bit `7 - x` of byte `i` stands for piece `i * 8 + x`. -/
theorem test_receiveBits (buf : Bytes) (total : ℕ) (bits : Bitset) (j : ℕ) :
    (receiveBits buf total bits).test j = true ↔
      (∃ i < buf.length, ∃ x < 8, (byteAt buf i).toNat.testBit (7 - x) = true ∧
        i * 8 + x < total ∧ (i * 8 + x) % 2 ^ 32 = j % 2 ^ 32) ∨ bits.test j = true := by
  have hinner : ∀ (i : ℕ) (b : Bitset), ((List.range 8).foldl (fun bits x =>
      if byteAt buf i &&& (1 <<< UInt8.ofNat (7 - x)) ≠ 0 ∧ i * 8 + x < total then
        bits.set (i * 8 + x) else bits) b).test j = true ↔
      (∃ x ∈ List.range 8, (byteAt buf i &&& (1 <<< UInt8.ofNat (7 - x)) ≠ 0 ∧
        i * 8 + x < total) ∧ (i * 8 + x) % 2 ^ 32 = j % 2 ^ 32) ∨ b.test j = true := by
    intro i b
    refine Bitset.test_foldl (fun b x => ?_) _ b
    split_ifs with h
    · rw [Bitset.test_set, Bool.or_eq_true, decide_eq_true_iff]
      simp [h]
    · simp [h]
  rw [receiveBits, Bitset.test_foldl fun b i => hinner i b]
  simp only [List.mem_range]
  refine or_congr_left (exists_congr fun i => and_congr_right fun _ => exists_congr fun x =>
    and_congr_right fun hx => ?_)
  rw [and_shift_ne_zero _ hx, and_assoc]

theorem handleBitfield_bitset {s s' : Session} {payload : Bytes} (hlen : 0 < payload.length)
    (h : handleMessage sha1 human s 5 payload = some s') :
    s'.peer.bitset = receiveBits payload s.torrent.fileManager.pieces.length s.peer.bitset := by
  have h5 : handleMessage sha1 human s 5 payload = handleBitfield
    { s with peer := { s.peer with wire := s.peer.wire ++ [.received 5 payload] } } payload := rfl
  rw [h5, handleBitfield, if_neg (by omega)] at h
  simp only at h
  split_ifs at h
  · rw [Torrent.requestPiece_bitset h]
  · cases h
    rfl

end Peer

/-! ### What is sent and what is understood -/

section Agree

variable (sha1 : Bytes → Sha1sum) (human : ℕ → String)

/-- The torrent when the pieces of `S` are completed, one by one, out of `N`. -/
def Torrent.withCompleted (t : Torrent) (heap : ℤ → UInt8) (N : ℕ) (S : List ℕ) : Torrent :=
  { t with fileManager := { t.fileManager with
    completedBits := S.foldl Bitset.set (Bitset.construct heap N) } }

/-- The torrent with the pieces `S` sends a bitfield, and a new peer of the same torrent that
handles its payload has exactly the pieces of `S`. -/
def Agrees (t : Torrent) (N : ℕ) (S : List ℕ) (stack : ℕ → UInt8) (heap : ℤ → UInt8) : Prop :=
  ∃ bits s, ((t.withCompleted heap N S).sendBitfield stack (Peer.new 1 heap N)).wire =
      [.sent (.bitfield bits)] ∧
    Peer.handleMessage sha1 human ⟨t, Peer.new 2 heap N⟩ 5 bits = some s ∧
    ∀ i < N, s.peer.bitset.test i = true ↔ i ∈ S

variable {sha1 human} {t : Torrent} {N : ℕ} {S : List ℕ} {stack : ℕ → UInt8}

/-- What agreement comes to with zeros around the bit sets. -/
theorem Agrees.test_iff (hN : 0 < N) (ht : t.fileManager.pieces.length = N)
    (h : Agrees sha1 human t N S stack fun _ => 0) :
    ∀ i < N, (Peer.receiveBits (Torrent.bitfieldBits stack
      (S.foldl Bitset.set (Bitset.construct (fun _ => 0) N))) N
        (Bitset.construct (fun _ => 0) N)).test i = true ↔ i ∈ S := by
  obtain ⟨bits, s, hw, hs, h⟩ := h
  rw [Torrent.sendBitfield] at hw
  split_ifs at hw
  · cases hw
  · have hbits : Torrent.bitfieldBits stack
        (S.foldl Bitset.set (Bitset.construct (fun _ => 0) N)) = bits := by
      simpa [Peer.sendBitfield, Peer.send, Peer.new, Torrent.withCompleted] using hw
    rw [hbits]
    have hlen : 0 < bits.length := by
      rw [← hbits, Torrent.bitfieldBits, List.length_map, List.length_range,
        Bitset.size_foldl_set]
      exact hN
    rw [Peer.handleBitfield_bitset hlen hs, ht] at h
    exact h

theorem byteAt_bitfieldBits {b : Bitset} {i : ℕ} (h : i < b.size) :
    byteAt (Torrent.bitfieldBits stack b) i =
      if b.test i then b.bitsAt i &&& (1 <<< UInt8.ofNat (7 - i % 8)) else stack i := by
  rw [byteAt, Torrent.bitfieldBits, List.getElem?_map, List.getElem?_range h]
  rfl

/-- The bits of the array over a stack of zeros: byte `i` has at most bit `7 - i % 8`, and that
only if the pieces `i` and, mirrored in its group of eight, `i / 8 * 8 + (7 - i % 8)` are set. -/
theorem testBit_bitfieldBits {b : Bitset} {i k : ℕ} (h : i < b.size) (hk : k < 8)
    (hbit : (byteAt (Torrent.bitfieldBits (fun _ => 0) b) i).toNat.testBit (7 - k) = true) :
    k = i % 8 ∧ b.test i = true ∧ b.test (i / 8 * 8 + (7 - i % 8)) = true := by
  rw [byteAt_bitfieldBits h] at hbit
  split_ifs at hbit with hi
  · have h7 : (7 - i % 8) % 8 = 7 - i % 8 := by omega
    have hmask : (1 : UInt8) <<< UInt8.ofNat (7 - i % 8) = Bitset.mask (7 - i % 8) := by
      rw [Bitset.mask, h7]
    rw [hmask, UInt8.toNat_and, Nat.testBit_and, Bool.and_eq_true, Bitset.toNat_mask,
      Nat.testBit_two_pow, decide_eq_true_iff, h7] at hbit
    have hki : k = i % 8 := by omega
    refine ⟨hki, hi, ?_⟩
    rw [← hki, ← Bitset.testBit_bitsAt b i (by omega : 7 - k < 8)]
    exact hbit.1
  · simp at hbit

variable (sha1 human)

/-- **Bitfields never agree.** For every number of pieces and every set of completed ones, the
receiver does not come to know exactly that set, for some content of the stack. -/
theorem not_agrees (hN : 1 ≤ N) (ht : t.fileManager.pieces.length = N)
    (hlt : ∀ i ∈ S, i < N) : ¬ ∀ stack heap, Agrees sha1 human t N S stack heap := by
  intro hall
  generalize hb : S.foldl Bitset.set (Bitset.construct (fun _ => 0) N) = b
  have hsize : b.size = N := by rw [← hb, Bitset.size_foldl_set, Bitset.size_construct]
  have htest : ∀ j, b.test j = true ↔ ∃ s ∈ S, s % 2 ^ 32 = j % 2 ^ 32 := by
    intro j
    rw [← hb, Bitset.test_foldl_set, Bitset.test_construct_zero]
    simp
  have hrecv : ∀ stack : ℕ → UInt8, ∀ i < N, (∃ k < N, ∃ x < 8,
      (byteAt (Torrent.bitfieldBits stack b) k).toNat.testBit (7 - x) = true ∧ k * 8 + x < N ∧
        (k * 8 + x) % 2 ^ 32 = i % 2 ^ 32) ↔ i ∈ S := by
    intro stack i hi
    have hlen : (Torrent.bitfieldBits stack b).length = N := by
      rw [Torrent.bitfieldBits, List.length_map, List.length_range, hsize]
    have h := (hall stack fun _ => 0).test_iff (by omega) ht i hi
    rw [hb, Peer.test_receiveBits, Bitset.test_construct_zero, hlen] at h
    simpa using h
  by_cases h0 : b.test 0 = true
  · -- over a stack of zeros: the first piece comes from a byte `k` with `k % 8 = 0`, which needs a
    -- completed piece `s` with `s % 8 = 7` that no byte can announce
    obtain ⟨s0, hs0, hs0mod⟩ := (htest 0).1 h0
    obtain ⟨k, hk, x, hx, hbit, -, hmod⟩ := (hrecv (fun _ => 0) s0 (hlt s0 hs0)).2 hs0
    obtain ⟨hxk, -, hmirror⟩ := testBit_bitfieldBits (by omega) hx hbit
    obtain ⟨s, hs, hsmod⟩ := (htest _).1 hmirror
    obtain ⟨l, hl, y, hy, hbit', -, hmod'⟩ := (hrecv (fun _ => 0) s (hlt s hs)).2 hs
    obtain ⟨hyl, -, -⟩ := testBit_bitfieldBits (by omega) hy hbit'
    omega
  · -- over a stack whose first byte announces piece 0
    have hnot : 0 ∉ S := fun h => h0 ((htest 0).2 ⟨0, h, rfl⟩)
    refine hnot ((hrecv (fun i => if i = 0 then 128 else 0) 0 (by omega)).1
      ⟨0, by omega, 0, by decide, ?_, by omega, rfl⟩)
    rw [byteAt_bitfieldBits (by omega), if_neg h0]
    decide

end Agree

/-- A torrent of `N` pieces. -/
def torrentOf (N : ℕ) : Torrent where
  fileManager := FileManager.register (fun _ => 0) (fun _ => 0)
    { checkSum := fun _ => 0, pieceLength := 1, totalSize := N,
      sha1sums := List.replicate N fun _ => 0 } []

theorem not_agrees_two_of_nine :
    ¬ ∀ stack heap, Agrees (fun _ _ => 0) toString (torrentOf 9) 9 [3, 8] stack heap :=
  not_agrees (fun _ _ => 0) toString (by decide) (by decide) (by decide)

/-- The bitfield of a torrent with one piece, which is completed, is the byte 0. -/
theorem agrees_one_false :
    ¬ Agrees (fun _ _ => 0) toString (torrentOf 1) 1 [0] (fun _ => 255) fun _ => 0 := by
  intro h
  have hbit := (h.test_iff (by decide) (by decide) 0 (by decide)).2 (by decide)
  exact absurd hbit (by decide +kernel)

end CTorrent
