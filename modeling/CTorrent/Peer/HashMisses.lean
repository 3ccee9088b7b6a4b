import CTorrent.Peer.WrittenOnce

/-!
# Which pieces count as hash misses

`writePieceBlock` returns false for a piece with a bad digest and for one whose write is pending,
and `handlePieceCompleted` takes either for a hash miss. The test compares five bytes, so that a
near miss is not counted.

* `Genuine`: the assembled data has the digest recorded for its index;
* `Real`: a step counts what has another digest, nothing else, and chokes nobody for a good piece;
* `Sincere`: a test neither meets a pending write of a good piece nor lets a near miss through;
* `hashMisses_iff`: the runs in which all steps are real.
-/

namespace CTorrent

namespace Swarm

variable (sha1 : Bytes → Sha1sum) (human : ℕ → String) (m : TorrentMeta)

/-- The assembled data of a call has the digest recorded for its index. -/
def Genuine (c : Call) : Prop := m.sha1sums[c.piece.index]? = some (sha1 c.piece.data)

/-- `m_hashMisses` and `m_wastedBytes`. -/
def misses (s : Swarm) : ℕ × ℕ := (s.world.torrent.hashMisses, s.world.torrent.wastedBytes)

/-- How often a peer has been sent a Choke. -/
def chokes (s : Swarm) (id : ℕ) : ℕ :=
  ((s.world.peers[id]?).map fun p => p.wire.count (.sent .choke)).getD 0

/-- What the step from `s` to `s'` counts, and whom it chokes. -/
structure Real (s : Swarm) (a : SwarmAction) (s' : Swarm) : Prop where
  /-- A piece whose digest differs is counted. -/
  counted : ∀ c, a = .check → s.callAt .checking = some c → ¬Genuine sha1 m c →
    s'.misses = (s.misses.1 + 1, s.misses.2 + c.piece.data.length)
  /-- Nothing else is. -/
  uncounted : (∀ c, a = .check → s.callAt .checking = some c → Genuine sha1 m c) →
    s'.misses = s.misses
  /-- The peer that delivered a good piece is not choked for it. -/
  unchoked : ∀ c, a = .check ∨ a = .push ∨ a = .select → s.call = some c → Genuine sha1 m c →
    s'.chokes c.id = s.chokes c.id

/-- At a test, the write of a piece with the recorded digest is not pending, and one whose bit is
clear is no near miss. -/
def Sincere (s : Swarm) : SwarmAction → Prop
  | .check => ∀ c, s.callAt .checking = some c →
      (s.fm.pendingBits.test c.piece.index = true → ¬Genuine sha1 m c) ∧
        (s.fm.pendingBits.test c.piece.index = false →
          ¬FileManager.NearMiss sha1 m c.piece.index c.piece.data)
  | _ => True

variable {sha1 human m} {s s' : Swarm}

/-! ### The steps -/

/-- The hashes are those of the metainfo throughout. -/
theorem hashes_step (s : Swarm) (a : SwarmAction) (s' : Swarm)
    (h : s.fm.pieces.map Piece.hash = m.sha1sums) (hs : s.step sha1 human a = some s') :
    s'.fm.pieces.map Piece.hash = m.sha1sums := by
  cases a with
  | check =>
    obtain ⟨c, p, ok, fm, -, -, hw, ⟨-, rfl⟩ | ⟨-, rfl⟩⟩ := step_check hs
    all_goals
      obtain ⟨-, -, -, -, hpieces, -⟩ := writeCheck_iff hw
      change fm.pieces.map Piece.hash = m.sha1sums
      rw [hpieces, h]
  | push =>
    obtain ⟨c, w, -, -, rfl⟩ := step_push hs
    exact h
  | work wrote =>
    obtain ⟨w, ws, fm, size, -, rfl, -, rfl⟩ := step_work hs
    exact h
  | _ => exact (step_quiet (by simp) hs).1.hashes.trans h

/-- A test lets through what has a clear bit and passes the comparison of five bytes. -/
theorem refused_iff (h : s.fm.pieces.map Piece.hash = m.sha1sums) (c : Call) :
    (c.piece.index < s.fm.pieces.length ∧
        s.fm.isWriteEligible sha1 c.piece.index c.piece.data = some true ↔ Genuine sha1 m c) ↔
      (s.fm.pendingBits.test c.piece.index = true → ¬Genuine sha1 m c) ∧
        (s.fm.pendingBits.test c.piece.index = false →
          ¬FileManager.NearMiss sha1 m c.piece.index c.piece.data) := by
  have helig : c.piece.index < s.fm.pieces.length ∧
      s.fm.isWriteEligible sha1 c.piece.index c.piece.data = some true ↔
        s.fm.pendingBits.test c.piece.index = false ∧
          FileManager.Passes sha1 m (c.piece.index, c.piece.data) := by
    rw [← FileManager.isWriteEligible_iff h, and_iff_right_iff_imp]
    exact fun helig => (of_isWriteEligible helig).1
  have hgenuine : Genuine sha1 m c → FileManager.Passes sha1 m (c.piece.index, c.piece.data) := by
    intro hg
    refine ⟨_, hg, ?_⟩
    rw [memcmpEq_five_iff]
    exact ⟨rfl, rfl⟩
  rw [helig, FileManager.nearMiss_iff]
  change _ ↔ _ ∧ (_ → ¬(_ ∧ ¬Genuine sha1 m c))
  cases s.fm.pendingBits.test c.piece.index <;> by_cases hg : Genuine sha1 m c <;>
    simp [hg, hgenuine]

theorem misses_quiet {a : SwarmAction} (ha : a ≠ .check ∧ a ≠ .push ∧ ∀ wrote, a ≠ .work wrote)
    (hs : s.step sha1 human a = some s') : s'.misses = s.misses := by
  have hsame := (step_quiet ha hs).1
  exact Prod.ext hsame.misses hsame.wasted

/-- The end of a handler may send an Interested and Requests. -/
theorem chokes_select {c : Call} (hc : s.call = some c) (hs : s.step sha1 human .select = some s') :
    s'.chokes c.id = s.chokes c.id := by
  obtain ⟨c', p, r, hc', hp, -, hselected, rfl⟩ := step_select hs
  cases hc.symm.trans (callAt_eq_some.1 hc').1
  have hlt := (List.getElem?_eq_some_iff.1 hp).1
  have hcount : r.peer.wire.count (.sent .choke) = p.wire.count (.sent .choke) := by
    rcases hselected.cases.2 with hpeer | ⟨index, length, -, -, hpeer⟩
    · rw [hpeer]
    · have hrequests : (Peer.requests index length).count (.sent .choke) = 0 := by
        rw [List.count_eq_zero]
        simp [Peer.requests]
      rw [hpeer]
      split_ifs <;> simp [hrequests]
  rw [chokes, chokes, hp, List.getElem?_set_self hlt]
  exact hcount

/-- A step is real exactly if it is sincere. -/
theorem sincere_iff_real (h : s.fm.pieces.map Piece.hash = m.sha1sums) {a : SwarmAction}
    (hs : s.step sha1 human a = some s') : s.Sincere sha1 m a ↔ Real sha1 m s a s' := by
  cases a with
  | check =>
    obtain ⟨c, p, ok, fm, hc, hp, hw, hend⟩ := step_check hs
    have hcall := (callAt_eq_some.1 hc).1
    have hsincere : s.Sincere sha1 m .check ↔ (ok = true ↔ Genuine sha1 m c) := by
      rw [(writeCheck_iff hw).1, refused_iff h]
      constructor
      · exact fun hall => hall c hc
      · intro hone c' hc'
        cases hc.symm.trans hc'
        exact hone
    rw [hsincere]
    rcases hend with ⟨rfl, rfl⟩ | ⟨rfl, rfl⟩
    · constructor
      · intro hiff
        have hbad : ¬Genuine sha1 m c := fun hg => Bool.false_ne_true (hiff.2 hg)
        refine ⟨fun c' _ hc' _ => ?_, fun hall => absurd (hall c rfl hc) hbad,
          fun c' _ hc' hg => ?_⟩
        · cases hc.symm.trans hc'
          rfl
        · cases hcall.symm.trans hc'
          exact absurd hg hbad
      · intro hreal
        refine iff_of_false Bool.false_ne_true fun hg => ?_
        have hmisses := congrArg Prod.fst (hreal.uncounted fun c' _ hc' => by
          cases hc.symm.trans hc'
          exact hg)
        exact Nat.succ_ne_self _ hmisses
    · constructor
      · intro hiff
        refine ⟨fun c' _ hc' hbad => ?_, fun _ => rfl, fun _ _ _ _ => rfl⟩
        cases hc.symm.trans hc'
        exact absurd (hiff.1 rfl) hbad
      · intro hreal
        refine iff_of_true rfl (by_contra fun hbad => ?_)
        have hmisses := congrArg Prod.fst (hreal.counted c rfl hc hbad)
        exact Nat.succ_ne_self _ hmisses.symm
  | push =>
    obtain ⟨c, w, -, -, rfl⟩ := step_push hs
    exact iff_of_true trivial ⟨by simp, fun _ => rfl, fun _ _ _ _ => rfl⟩
  | work wrote =>
    obtain ⟨w, ws, fm, size, -, -, -, rfl⟩ := step_work hs
    exact iff_of_true trivial ⟨by simp, fun _ => rfl, by simp⟩
  | select =>
    have hmisses := misses_quiet (by simp) hs
    exact iff_of_true trivial ⟨by simp, fun _ => hmisses, fun c _ hc _ => chokes_select hc hs⟩
  | _ =>
    have hmisses := misses_quiet (by simp) hs
    exact iff_of_true trivial ⟨by simp, fun _ => hmisses, by simp⟩

/-! ### The runs -/

variable (sha1 human)

/-- **Which pieces count as hash misses.** From the scanned state of a torrent, with any number of
peers and the worker in any interleaving: every step counts the pieces whose digest differs, counts
nothing else, and chokes no peer for a good piece, exactly if all tests are sincere. -/
theorem hashMisses_iff (heap heap' : ℤ → UInt8) (files : List TorrentFile)
    (stack : ℕ → ℕ → UInt8) (fm : FileManager)
    (hscan : FileManager.scanPieces sha1 stack (FileManager.register heap heap' m files) = some fm)
    (as : List SwarmAction) (hrun : (Runs.run (step sha1 human) (start fm) as).isSome = true) :
    Runs.Meets (step sha1 human)
        (fun s a => ∀ s', s.step sha1 human a = some s' → Real sha1 m s a s') (start fm) as ↔
      Runs.Meets (step sha1 human) (Sincere sha1 m) (start fm) as := by
  obtain ⟨-, hhashes, -⟩ := FileManager.Writer.scanPieces_frame hscan
  refine Runs.meets_congr hashes_step (fun s a s' h hs => ?_) hhashes hrun
  rw [sincere_iff_real h hs]
  constructor
  · exact fun hall => hall s' hs
  · intro hreal s'' hs''
    cases hs.symm.trans hs''
    exact hreal

theorem hashMisses_iff_inTurn : ∃ fm,
    FileManager.scanPieces FileManager.nearSha1 (fun _ _ => 0) FileManager.oneByteState =
        some fm ∧
      (Runs.Meets (step FileManager.nearSha1 toString)
          (fun s a => ∀ s', s.step FileManager.nearSha1 toString a = some s' →
            Real FileManager.nearSha1 FileManager.oneByte s a s') (start fm) inTurn ↔
        Runs.Meets (step FileManager.nearSha1 toString)
          (Sincere FileManager.nearSha1 FileManager.oneByte) (start fm) inTurn) := by
  obtain ⟨fm, hfm, hrun⟩ := exists_run_inTurn
  exact ⟨fm, hfm, hashMisses_iff FileManager.nearSha1 toString (m := FileManager.oneByte)
    (fun _ => 0) (fun _ => 0) FileManager.oneByteFiles (fun _ _ => 0) fm hfm inTurn
    hrun⟩

/-- Two peers deliver the byte, the second one while the write of the first copy is pending. -/
def twice : List SwarmAction :=
  twoPeers ++ [deliver 0, .check, .push, .select, deliver 1]

/-- The second copy has the recorded digest, and is counted as a hash miss. -/
theorem not_real_twice : ∃ fm s s' c,
    FileManager.scanPieces FileManager.nearSha1 (fun _ _ => 0) FileManager.oneByteState =
        some fm ∧
      Runs.run (step FileManager.nearSha1 toString) (start fm) twice = some s ∧
      s.callAt .checking = some c ∧ Genuine FileManager.nearSha1 FileManager.oneByte c ∧
      s.step FileManager.nearSha1 toString .check = some s' ∧
      s'.misses = (s.misses.1 + 1, s.misses.2 + 1) ∧ s'.chokes c.id = s.chokes c.id + 1 ∧
      ¬Real FileManager.nearSha1 FileManager.oneByte s .check s' := by
  have hany : ((FileManager.scanPieces FileManager.nearSha1 (fun _ _ => 0)
      FileManager.oneByteState).bind fun fm =>
        (Runs.run (step FileManager.nearSha1 toString) (start fm) twice).bind fun s =>
          (s.callAt .checking).bind fun c =>
            (s.step FileManager.nearSha1 toString .check).map fun s' =>
              (c.piece.index, c.piece.data,
                decide (s'.misses = (s.misses.1 + 1, s.misses.2 + 1)),
                decide (s'.chokes c.id = s.chokes c.id + 1))) = some (0, [5], true, true) := by
    decide +kernel
  obtain ⟨fm, hfm, hs⟩ := Option.bind_eq_some_iff.1 hany
  obtain ⟨s, hs, hc⟩ := Option.bind_eq_some_iff.1 hs
  obtain ⟨c, hc, hs'⟩ := Option.bind_eq_some_iff.1 hc
  obtain ⟨s', hs', heq⟩ := Option.map_eq_some_iff.1 hs'
  simp only [Prod.mk.injEq, decide_eq_true_iff] at heq
  obtain ⟨hindex, hdata, hmisses, hchokes⟩ := heq
  have hgood : Genuine FileManager.nearSha1 FileManager.oneByte c := by
    rw [Genuine, hindex, hdata]
    exact congrArg some (funext fun k => (if_pos (Or.inl rfl)).symm)
  refine ⟨fm, s, s', c, hfm, hs, hc, hgood, hs', hmisses, hchokes, fun hreal => ?_⟩
  have hcount := hreal.unchoked c (Or.inl rfl) (callAt_eq_some.1 hc).1 hgood
  omega

end Swarm

end CTorrent
