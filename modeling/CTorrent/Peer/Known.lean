import CTorrent.FileManager.Balance
import CTorrent.Peer.Bitfield
import CTorrent.Peer.Queue

/-!
# What is known about the pieces of a peer

A Have names a piece, a Bitfield has a bit for each, the most significant bit of a byte first. The
peer object keeps them in its bit set, least significant bit first, and nothing else touches it.

* `Event.Tells`: the event is a valid message that announces the piece;
* `Session.Sized`, `sized_step`: there is a bit for each piece;
* `hasPiece_step`, `hasPiece_run`: what one event and what a run adds;
* `hasPiece_iff_told`: the pieces of a peer are those that it announced.
-/

namespace CTorrent

/-- `hasPiece`. -/
def Peer.hasPiece (p : Peer) (i : ℕ) : Bool := p.bitset.test i

/-- The event is a Have for the piece, or a Bitfield with its bit. -/
def Event.Tells (i : ℕ) : Event → Prop
  | .message type payload =>
      (type = 4 ∧ payload.length = 4 ∧ Peer.indexOf payload = i) ∨
      (type = 5 ∧ i / 8 < payload.length ∧
        (byteAt payload (i / 8)).toNat.testBit (7 - i % 8) = true)
  | _ => False

/-- The bit set of the peer has a bit for each piece. -/
def Session.Sized (s : Session) : Prop :=
  s.peer.bitset.size = s.torrent.fileManager.pieces.length

namespace Peer

variable {sha1 : Bytes → Sha1sum} {human : ℕ → String} {s s' : Session} {payload : Bytes} {n i : ℕ}

theorem size_receiveBits (buf : Bytes) (total : ℕ) (bits : Bitset) :
    (receiveBits buf total bits).size = bits.size := by
  have hfold : ∀ {α : Type} (g : Bitset → α → Bitset) (l : List α) (b : Bitset),
      (∀ b a, (g b a).size = b.size) → (l.foldl g b).size = b.size := by
    intro α g l b hg
    induction l generalizing b with
    | nil => rfl
    | cons a l ih => rw [List.foldl_cons, ih, hg]
  rw [receiveBits, hfold]
  intro b k
  rw [hfold]
  intro b x
  split_ifs
  · exact Bitset.size_set b _
  · rfl

/-- A message that is no Have and no Bitfield leaves the bit set as it is. -/
theorem Outcome.bitset_eq (h : Outcome sha1 s payload n s') (h4 : n ≠ 4) (h5 : n ≠ 5) :
    s'.peer.bitset = s.peer.bitset := by
  cases h with
  | have_ h bitset hbitset => exact absurd rfl h4
  | bitfield h hselect => exact absurd rfl h5
  | interested h =>
    dsimp only
    split_ifs <;> rfl
  | finish h hdone hlast hfinish =>
    obtain ⟨t, -, ⟨rfl, -⟩ | hselect⟩ := finishPiece_cases hfinish
    · rfl
    · exact hselect.bitset
  | _ => rfl

/-- No message changes the size of the bit set. -/
theorem Outcome.size_bitset (h : Outcome sha1 s payload n s') :
    s'.peer.bitset.size = s.peer.bitset.size := by
  cases h with
  | have_ h bitset hbitset =>
    subst hbitset
    dsimp only
    split_ifs <;> rfl
  | bitfield h hselect =>
    rw [hselect.bitset]
    exact size_receiveBits _ _ _
  | interested h =>
    dsimp only
    split_ifs <;> rfl
  | finish h hdone hlast hfinish =>
    obtain ⟨t, -, ⟨rfl, -⟩ | hselect⟩ := finishPiece_cases hfinish
    · rfl
    · rw [hselect.bitset]
  | _ => rfl

/-- What a Have adds. -/
theorem Outcome.hasPiece_have (h : Outcome sha1 s payload 4 s') (hs : s.Sized)
    (hN : s.torrent.fileManager.pieces.length < 2 ^ 31)
    (hi : i < s.torrent.fileManager.pieces.length) :
    s'.peer.hasPiece i = true ↔
      (payload.length = 4 ∧ indexOf payload = i) ∨ s.peer.hasPiece i = true := by
  cases h with
  | error errmsg hreject =>
    have hlen : payload.length ≠ 4 := hreject
    simp [hlen, handleError, Peer.hasPiece]
  | have_ hlen bitset hbitset =>
    rw [hs] at hbitset
    subst hbitset
    by_cases hin : indexOf payload < s.torrent.fileManager.pieces.length
    · simp only [Peer.hasPiece, if_pos hin, Bitset.test_set, Bool.or_eq_true, decide_eq_true_iff,
        hlen, true_and]
      refine or_congr_left ⟨fun hmod => by omega, fun he => by rw [he]⟩
    · have hne : indexOf payload ≠ i := by omega
      simp [Peer.hasPiece, hin, hne]
  | unknown h => omega

/-- What a Bitfield adds. -/
theorem Outcome.hasPiece_bitfield (h : Outcome sha1 s payload 5 s')
    (hN : s.torrent.fileManager.pieces.length < 2 ^ 31)
    (hi : i < s.torrent.fileManager.pieces.length) :
    s'.peer.hasPiece i = true ↔
      (i / 8 < payload.length ∧ (byteAt payload (i / 8)).toNat.testBit (7 - i % 8) = true) ∨
        s.peer.hasPiece i = true := by
  cases h with
  | error errmsg hreject =>
    have hlen : payload.length < 1 := hreject
    have hno : ¬ i / 8 < payload.length := by omega
    simp [hno, handleError, Peer.hasPiece]
  | bitfield hlen hselect =>
    rw [Peer.hasPiece, hselect.bitset, test_receiveBits]
    refine or_congr_left ⟨?_, ?_⟩
    · rintro ⟨k, hk, x, hx, hbit, hlt, hmod⟩
      obtain rfl : k = i / 8 := by omega
      obtain rfl : x = i % 8 := by omega
      exact ⟨hk, hbit⟩
    · rintro ⟨hk, hbit⟩
      exact ⟨i / 8, hk, i % 8, by omega, hbit, by omega, by omega⟩
  | unknown h => omega

end Peer

variable {sha1 : Bytes → Sha1sum} {human : ℕ → String} {s s' : Session} {i : ℕ}

/-- What an event other than a message does to the bit set. -/
theorem Session.bitset_step {e : Event} (h : s.step sha1 human e = some s')
    (he : ∀ type payload, e ≠ .message type payload) : s'.peer.bitset = s.peer.bitset := by
  cases e with
  | message type payload => exact absurd rfl (he type payload)
  | sendHave index =>
    cases h
    unfold Peer.sendHave
    split_ifs <;> rfl
  | sendPieceBlock index begin block =>
    cases h
    rfl
  | sendBitfield stack =>
    cases h
    unfold Torrent.sendBitfield
    split_ifs <;> rfl
  | handleError errmsg =>
    cases h
    rfl
  | torrent t =>
    simp only [Session.step] at h
    split_ifs at h
    cases h
    rfl

/-- No event changes the size of the bit set, or the number of pieces. -/
theorem Session.sized_step (s : Session) (e : Event) (s' : Session) (hs : s.Sized)
    (h : s.step sha1 human e = some s') : s'.Sized := by
  rw [Sized, (Peer.sameLayout_step h).length, ← hs]
  by_cases he : ∀ type payload, e ≠ .message type payload
  · rw [bitset_step h he]
  · simp only [not_forall, not_not] at he
    obtain ⟨type, payload, rfl⟩ := he
    simp only [Session.step] at h
    split_ifs at h
    exact (Peer.handleMessage_outcome h).size_bitset

/-- **One event.** It adds the piece if it announces it. -/
theorem Session.hasPiece_step {e : Event} (h : s.step sha1 human e = some s') (hs : s.Sized)
    (hN : s.torrent.fileManager.pieces.length < 2 ^ 31)
    (hi : i < s.torrent.fileManager.pieces.length) :
    s'.peer.hasPiece i = true ↔ e.Tells i ∨ s.peer.hasPiece i = true := by
  have hkeep : s'.peer.bitset = s.peer.bitset → ¬ e.Tells i →
      (s'.peer.hasPiece i = true ↔ e.Tells i ∨ s.peer.hasPiece i = true) := by
    intro hbits hno
    simp [Peer.hasPiece, hbits, hno]
  by_cases he : ∀ type payload, e ≠ .message type payload
  · refine hkeep (bitset_step h he) fun htells => ?_
    cases e with
    | message type payload => exact he type payload rfl
    | _ => exact htells
  · simp only [not_forall, not_not] at he
    obtain ⟨type, payload, rfl⟩ := he
    simp only [Session.step] at h
    split_ifs at h
    have hout := Peer.handleMessage_outcome h
    have htype : ∀ k : UInt8, type = k ↔ type.toNat = k.toNat := fun k => UInt8.toNat_inj.symm
    by_cases h4 : type.toNat = 4
    · rw [h4] at hout
      have h5 : type ≠ 5 := fun he => by simp [he] at h4
      refine (hout.hasPiece_have hs hN hi).trans (or_congr_left ?_)
      simp [Event.Tells, (htype 4).2 h4]
    · by_cases h5 : type.toNat = 5
      · rw [h5] at hout
        refine (hout.hasPiece_bitfield hN hi).trans (or_congr_left ?_)
        simp [Event.Tells, (htype 5).2 h5]
      · refine hkeep (hout.bitset_eq h4 h5) ?_
        rintro (⟨rfl, -⟩ | ⟨rfl, -⟩)
        · exact h4 rfl
        · exact h5 rfl

/-- A run adds the pieces that its events announce. -/
theorem Session.hasPiece_run {events : List Event}
    (h : Runs.run (Session.step sha1 human) s events = some s') (hs : s.Sized)
    (hN : s.torrent.fileManager.pieces.length < 2 ^ 31)
    (hi : i < s.torrent.fileManager.pieces.length) :
    s'.peer.hasPiece i = true ↔ (∃ e ∈ events, e.Tells i) ∨ s.peer.hasPiece i = true := by
  induction events generalizing s with
  | nil =>
    cases h
    simp
  | cons e events ih =>
    obtain ⟨s₁, h₁, h⟩ := Runs.run_cons_eq_some.1 h
    have hs₁ := sized_step s e s₁ hs h₁
    have hiff := hasPiece_step h₁ hs hN hi
    have hlength := (Peer.sameLayout_step h₁).length
    rw [ih h hs₁ (by omega) (by omega), hiff, ← or_assoc, or_comm (b := e.Tells i)]
    simp only [List.mem_cons, exists_eq_or_imp]

/-- **The known pieces of a peer.** Whatever happens to a connection, its peer object has exactly
the pieces that were announced in the messages it received. -/
theorem hasPiece_iff_told (t : Torrent) (hN : t.fileManager.pieces.length < 2 ^ 31) (ip : UInt32)
    (heap : ℤ → UInt8) {events : List Event}
    (hr : Runs.run (Session.step sha1 human)
      ⟨t, Peer.new ip heap t.fileManager.pieces.length⟩ events = some s)
    (hi : i < t.fileManager.pieces.length) :
    s.peer.hasPiece i = true ↔ ∃ e ∈ events, e.Tells i := by
  have hnew : (Peer.new ip heap t.fileManager.pieces.length).hasPiece i = false :=
    Bitset.test_construct heap hi (by omega)
  rw [Session.hasPiece_run hr rfl hN hi, hnew]
  simp

/-- A Bitfield with the second of two pieces and spare bits, and a Have for the first. -/
theorem hasPiece_iff_told_two : ∃ s, Runs.run (Session.step (fun _ _ => 0) toString)
      ⟨{ fileManager := FileManager.twoUntried }, Peer.new 1 (fun _ => 255) 2⟩
      [.message 5 [0x7F, 0xFF], .message 4 [0, 0, 0, 0]] = some s ∧
    (s.peer.hasPiece 0 = true ↔ ∃ e ∈ [Event.message 5 [0x7F, 0xFF], .message 4 [0, 0, 0, 0]],
      e.Tells 0) := by
  have hrun : (Runs.run (Session.step (fun _ _ => 0) toString)
      ⟨{ fileManager := FileManager.twoUntried }, Peer.new 1 (fun _ => 255) 2⟩
      [.message 5 [0x7F, 0xFF], .message 4 [0, 0, 0, 0]]).isSome = true := by decide +kernel
  obtain ⟨s, hs⟩ := Option.isSome_iff_exists.1 hrun
  exact ⟨s, hs, hasPiece_iff_told { fileManager := FileManager.twoUntried } (by decide) 1
    (fun _ => 255) hs (by decide)⟩

end CTorrent
