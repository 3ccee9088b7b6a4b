import CTorrent.FileManager.Completion
import CTorrent.Peer.Peer
import CTorrent.Util.Cardinality

/-!
# When a torrent is finished

`isFinished` compares the number of pieces with the count of the completed bits. For an odd number
of pieces the count depends on the byte behind the bits: a torrent of one piece is finished before
its download begins if that byte happens to have one bit set.

* `count_isFinished_iff`: when the count and `isFinished` are right;
* `count_isFinished_iff_overread`: a torrent of one piece.
-/

namespace CTorrent

open Bitset

/-- **When the count and `isFinished` are right.** Behind any calls on indices below the size, the
count of the bits is their number, no byte outside the allocation is read, and a torrent with these
completed bits is finished exactly when all of them are set, if and only if the size is even and no
bit from `2 ^ 31` on is set. -/
theorem count_isFinished_iff (heap : ℤ → UInt8) {n : ℕ} {ops : List Op}
    (hops : ∀ op ∈ ops, op.index < n) :
    (CountsBits (after heap n ops) n ∧
      ∀ torrent : Torrent, torrent.fileManager.pieces.length = n →
        torrent.fileManager.completedBits = after heap n ops →
        (torrent.isFinished = true ↔ ∀ i < n, (after heap n ops).test i = true)) ↔
      n % 2 = 0 ∧ ∀ i, 2 ^ 31 ≤ i → i < n → (after heap n ops).test i = false := by
  rw [← (clean_after heap hops).countsBits_iff]
  refine and_iff_left_of_imp fun hcounts torrent hn hbits => ?_
  rw [Torrent.isFinished, decide_eq_true_iff, hn, hbits, hcounts.1, eq_comm, Nat.count_iff_forall]

/-- Setting, toggling and assigning both bits of two, in a memory full of ones. -/
theorem count_isFinished_iff_two :
    (CountsBits (after (fun _ => 255) 2 [.set 0, .toggle 1, .setTo 0 false]) 2 ∧
      ∀ torrent : Torrent, torrent.fileManager.pieces.length = 2 →
        torrent.fileManager.completedBits =
          after (fun _ => 255) 2 [.set 0, .toggle 1, .setTo 0 false] →
        (torrent.isFinished = true ↔
          ∀ i < 2, (after (fun _ => 255) 2 [.set 0, .toggle 1, .setTo 0 false]).test i = true)) ↔
      2 % 2 = 0 ∧ ∀ i, 2 ^ 31 ≤ i → i < 2 →
        (after (fun _ => 255) 2 [.set 0, .toggle 1, .setTo 0 false]).test i = false :=
  count_isFinished_iff (fun _ => 255) (by
    intro op hop
    simp only [List.mem_cons, List.not_mem_nil, or_false] at hop
    rcases hop with rfl | rfl | rfl <;> decide)

/-- A torrent of one piece, next to a byte with one bit. -/
def overreadTorrent : Torrent where
  fileManager := FileManager.register (fun _ => 1) (fun _ => 0) FileManager.oneByte []

/-- Nothing is completed, the count reads the byte behind the bits, and the torrent is finished. -/
theorem count_isFinished_iff_overread :
    overreadTorrent.fileManager.completedBits = after (fun _ => 1) 1 [] ∧
    (after (fun _ => 1) 1 []).test 0 = false ∧ (after (fun _ => 1) 1 []).reads = [(0, 2)] ∧
    (after (fun _ => 1) 1 []).count = 1 ∧ overreadTorrent.isFinished = true := by
  refine ⟨rfl, ?_, ?_, ?_, ?_⟩ <;> decide +kernel

end CTorrent
