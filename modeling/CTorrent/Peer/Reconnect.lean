import CTorrent.Peer.Liveness

/-!
# Connections that fail

The connection to a seeder may fail between any two messages, as often as it likes. `removePeer`
takes our object for the seeder out of `m_peers`, and what it has of a piece is lost with it. What
is in the queue of writes is not, and the worker goes on. Each connection begins from the front.

* `Line`, `Line.step`: the torrent, with the seeder or without;
* `Waiting.work`, `Inv.fail`: what a step keeps between connections, and what a failure leaves;
* `reconnects`: a connection that does not fail completes the download.
-/

namespace CTorrent

open FileManager Splice

/-- The torrent is connected to the seeder, or is not. -/
inductive Line where
  | up (l : Leech)
  | down (s : Swarm)

/-- A step of one of the parties, or what happens to the connection. -/
inductive LineAction where
  | leech (a : LeechAction)
  /-- The connection fails, and our object for the seeder is gone. -/
  | fail (errmsg : String)
  /-- The worker serves the front of the queue of writes while there is no connection. -/
  | work
  | connect (heap : ℤ → UInt8) (stack : ℕ → UInt8)

namespace Line

variable (sha1 : Bytes → Sha1sum) (human : ℕ → String) (m : TorrentMeta) (orig bits : Bytes)
  (ip : UInt32)

/-- One step. A failure is noticed when our handler is not at work. -/
def step : Line → LineAction → Option Line
  | .up l, .leech a => (l.step sha1 human m orig bits a).map .up
  | .up l, .fail errmsg =>
      if l.swarm.call.isSome then none
      else (l.swarm.step sha1 human (.other (.handleError 0 errmsg))).map fun s =>
        .down { s with world := { s.world with peers := [] } }
  | .down s, .work => (s.step sha1 human (.work fun _ n => n)).map .down
  | .down s, .connect heap stack => some (.up (Leech.connect s.world.torrent ip heap stack))
  | _, _ => none

/-- The file manager. -/
def fm : Line → FileManager
  | .up l => l.swarm.fm
  | .down s => s.fm

/-- The torrent as it is opened. -/
def start (fm : FileManager) : Line := .down { world := ⟨{ fileManager := fm }, []⟩ }

/-- The failures among some actions. -/
def failures (as : List LineAction) : ℕ := as.countP fun
  | .fail _ => true
  | _ => false

end Line

namespace Leech

variable {sha1 : Bytes → Sha1sum} {human : ℕ → String} {m : TorrentMeta} {orig bits : Bytes}
  {heap : ℤ → UInt8} {ip : UInt32} {D K : ℕ}

/-- The worker serves a write between two connections. -/
theorem Waiting.work (hm : Consistent m) (ho : orig.length = m.totalSize) {s s' : Swarm}
    (h : Waiting m orig heap ip D K s.world.torrent)
    (hs : s.step sha1 human (.work fun _ n => n) = some s') :
    Waiting m orig heap ip D K s'.world.torrent := by
  obtain ⟨w, ws, fm, size, hq, hfm, hsize, rfl⟩ := Swarm.step_work hs
  have hold : Saving m orig heap ip.toNat s.fm := h.saving
  have hsaving := hold.work hm ho (fun _ _ => Nat.le_refl _) hq
  have hlt := (hold.writes w (hq ▸ List.mem_cons_self)).1
  have hrest := rest_work hm hold hq fun _ n => n
  have hdownloaded := h.downloaded
  rw [← hfm] at hsaving
  cases (hm.tiled.pieceSize_eq hsaving.metainfo hsaving.length hlt).symm.trans hsize
  have hbits : fm.completedBits = (s.fm.processWrite (fun _ n => n) w).completedBits := by rw [hfm]
  rw [show s.world.torrent.fileManager = s.fm from rfl, ← hrest, ← hbits] at hdownloaded
  refine ⟨hsaving, ?_, h.wasted, h.misses, ?_, h.few, fun i hi => ?_⟩
  · rw [hfm]
    exact h.calls
  · show s.world.torrent.downloadedBytes + pieceLen m w.index +
      Runs.rest (pieceLen m) (fun i => !fm.completedBits.test i) m.sha1sums.length = D
    omega
  · have hrank : fm.rank = s.fm.rank := by
      rw [hfm]
      rfl
    rw [hrank]
    exact h.ranked i hi

/-- The connection fails. -/
theorem Inv.fail {l : Leech} {s : Swarm} {errmsg : String} (h : Inv m orig heap ip D K l)
    (hfew : K + 2 < 2 ^ 31) (hcall : l.swarm.call = none)
    (hs : l.swarm.step sha1 human (.other (.handleError 0 errmsg)) = some s) :
    Waiting m orig heap ip D (K + 1) s.world.torrent := by
  obtain ⟨p, hbase, hphase⟩ := h
  have htorrent : s.world.torrent = l.swarm.world.torrent.removePeer ip := by
    rw [Swarm.step, if_pos (show (Action.handleError 0 errmsg).isOther = true from rfl)] at hs
    obtain ⟨w, hw, rfl⟩ := Option.map_eq_some_iff.1 hs
    rw [World.step] at hw
    obtain ⟨q, r, hq, -, hr, rfl⟩ := World.atPeer_eq_some hw
    rw [hbase.peers] at hq
    cases hq
    cases hr
    rw [← hbase.ip]
    rfl
  have hcalls : l.swarm.fm.calls = [] := by
    cases hphase with
    | idle h _ => exact h.calls
    | fetching h => exact h.calls
    | handing h =>
      rw [h.call] at hcall
      cases hcall
  rw [htorrent]
  exact ⟨hbase.saving, hcalls, hbase.wasted, hbase.misses, hbase.downloaded, hfew,
    fun i hi => (hbase.ranked.2 i hi).1⟩

variable (m orig heap ip D) in
/-- What holds of a torrent after `K` failures. -/
def LineInv (K : ℕ) : Line → Prop
  | .up l => Inv m orig heap ip D K l
  | .down s => Waiting m orig heap ip D K s.world.torrent

section Runs

variable (hd : Downloadable sha1 m orig bits heap)
include hd

/-- One step. -/
theorem lineInv_step {s s' : Line} {a : LineAction} (h : LineInv m orig heap ip D K s)
    (hs : s.step sha1 human m orig bits ip a = some s')
    (hfew : K + Line.failures [a] + 1 < 2 ^ 31) :
    LineInv m orig heap ip D (K + Line.failures [a]) s' := by
  cases s with
  | up l =>
    cases a with
    | leech a =>
      obtain ⟨l', hl', rfl⟩ := Option.map_eq_some_iff.1 hs
      exact (inv_step hd l a l' h hl').1
    | fail errmsg =>
      simp only [Line.step] at hs
      split_ifs at hs with hcall
      obtain ⟨t, ht, rfl⟩ := Option.map_eq_some_iff.1 hs
      have hwaiting := Inv.fail h hfew (by simpa using hcall) ht
      exact hwaiting
    | _ => cases hs
  | down s =>
    cases a with
    | work =>
      obtain ⟨t, ht, rfl⟩ := Option.map_eq_some_iff.1 hs
      exact Waiting.work hd.consistent hd.length_eq h ht
    | connect heap' stack =>
      cases hs
      exact (inv_connect h heap' stack).1
    | _ => cases hs

/-- A run. -/
theorem lineInv_run {as : List LineAction} {s s' : Line} (h : LineInv m orig heap ip D K s)
    (hr : Runs.run (Line.step sha1 human m orig bits ip) s as = some s')
    (hfew : K + Line.failures as + 1 < 2 ^ 31) :
    LineInv m orig heap ip D (K + Line.failures as) s' := by
  induction as generalizing s K with
  | nil =>
    cases hr
    exact h
  | cons a as ih =>
    obtain ⟨t, ht, hr⟩ := Runs.run_cons_eq_some.1 hr
    have hsplit : Line.failures (a :: as) = Line.failures [a] + Line.failures as := by
      rw [Line.failures, Line.failures, Line.failures, ← List.countP_append]
      rfl
    rw [hsplit, ← Nat.add_assoc] at hfew ⊢
    exact ih (lineInv_step hd h ht (by omega)) hr hfew

/-- **Connections may fail.** From files that hold what they hold, let the connection to the seeder
fail at any time, and as often as a counter allows. What is completed is on disk, whenever. A
connection that does not fail comes to the end of the download from where the others left it: in
whatever order, its run can go on until all pieces are completed, every file is the original, and
each byte that was missing at first counts as downloaded once. -/
theorem reconnects {fm : FileManager} (hopen : Opened m orig heap fm) {as : List LineAction}
    {s : Line} (hfew : Line.failures as + 1 < 2 ^ 31)
    (hr : Runs.run (Line.step sha1 human m orig bits ip) (Line.start fm) as = some s) :
    s.fm.files.map TorrentFile.info = m.files ∧
    (∀ i < m.sha1sums.length, s.fm.completedBits.test i = true → ∀ f ∈ s.fm.files, ∀ p,
      i * m.pieceLength ≤ p → p < i * m.pieceLength + pieceLen m i →
        f.info.begin ≤ p → p < f.info.end_ → f.fp.content[p - f.info.begin]? = orig[p]?) ∧
    ∀ l, s = .up l → ∀ (bs : List LeechAction) (l' : Leech),
      Runs.run (step sha1 human m orig bits) l bs = some l' →
      bs.length ≤ l.remaining m ∧
      (bs.length < l.remaining m → ∃ a, (l'.step sha1 human m orig bits a).isSome = true) ∧
      (bs.length = l.remaining m →
        (∀ i < m.sha1sums.length, l'.swarm.fm.completedBits.test i = true) ∧
        l'.swarm.fm.files.map TorrentFile.info = m.files ∧
        (∀ f ∈ l'.swarm.fm.files, f.fp.content = region orig f.info.begin f.info.length) ∧
        l'.swarm.world.torrent.downloadedBytes =
          Runs.rest (pieceLen m) (fun i => !fm.completedBits.test i) m.sha1sums.length) := by
  have hstart : LineInv m orig heap ip
      (Runs.rest (pieceLen m) (fun i => !fm.completedBits.test i) m.sha1sums.length) 0
      (Line.start fm) := waiting_of_opened hopen ip
  have hline := lineInv_run hd hstart hr (by omega)
  have hstored : Stored m orig s.fm := by
    cases s with
    | up l =>
      obtain ⟨p, hbase, -⟩ := hline
      exact hbase.saving.stored
    | down s => exact (Waiting.saving hline).stored
  refine ⟨hstored.info, fun i hi ht f hf p h1 h2 h3 h4 => ?_, ?_⟩
  · exact hstored.getElem?_content hd.consistent hi ht hf h1 h2 h3 h4
  · rintro l rfl bs l' hbs
    obtain ⟨hle, hmore, hend⟩ := Runs.step_or_end (inv_step hd) (exists_step hd) hline hbs
    have hinv := (Runs.length_add_measure (inv_step hd) hline hbs).1
    exact ⟨hle, hmore, fun heq => stored_of_remaining hd hinv (hend heq).1⟩

end Runs

/-- A connection that fails when we know the pieces, and one that fails behind the last block of the
second piece; the worker is left to write it. A third connection is made. -/
def threePiecesReconnect : List LineAction :=
  [.connect (fun _ => 0) (fun _ => 0), .leech .greet, .leech .deliver, .fail "reset",
    .connect (fun _ => 0) (fun _ => 0), .leech .greet, .leech .deliver, .leech .unchoke,
    .leech .deliver, .leech .process, .leech .process, .leech (.answer ⟨1, 0, 2⟩), .leech .deliver,
    .leech .check, .leech .push, .leech .select, .fail "reset",
    .connect (fun _ => 0) (fun _ => 0)]

/-- What is left to be done. -/
def threePiecesRest : List LeechAction :=
  [.greet, .deliver, .unchoke, .deliver, .process, .process, .work, .answer ⟨0, 0, 2⟩, .deliver,
    .check, .push, .select, .process, .process, .work, .answer ⟨2, 0, 1⟩, .deliver, .check, .push,
    .select, .work]

theorem reconnects_threePieces : ∃ l l',
    Runs.run (Line.step threePiecesSha1 toString threePieces [1, 2, 3, 4, 5] [0xE0] 1)
      (Line.start threePiecesOpened) threePiecesReconnect = some (.up l) ∧
    Runs.run (step threePiecesSha1 toString threePieces [1, 2, 3, 4, 5] [0xE0]) l
      threePiecesRest = some l' ∧
    threePiecesRest.length = l.remaining threePieces ∧
    (∀ i < threePieces.sha1sums.length, l'.swarm.fm.completedBits.test i = true) ∧
    l'.swarm.fm.files.map TorrentFile.info = threePieces.files ∧
    (∀ f ∈ l'.swarm.fm.files,
      f.fp.content = region [1, 2, 3, 4, 5] f.info.begin f.info.length) ∧
    l'.swarm.world.torrent.downloadedBytes =
      Runs.rest (pieceLen threePieces) (fun i => !threePiecesOpened.completedBits.test i)
        threePieces.sha1sums.length := by
  have hrun : (Runs.run (Line.step threePiecesSha1 toString threePieces [1, 2, 3, 4, 5] [0xE0] 1)
      (Line.start threePiecesOpened) threePiecesReconnect).any (fun
        | .up l => decide (l.remaining threePieces = 21) &&
          (Runs.run (step threePiecesSha1 toString threePieces [1, 2, 3, 4, 5] [0xE0]) l
            threePiecesRest).isSome
        | .down _ => false) = true := by
    decide +kernel
  obtain ⟨s, hs, hup⟩ := (Option.any_eq_true _ _).1 hrun
  cases s with
  | down s => cases hup
  | up l =>
    rw [Bool.and_eq_true, decide_eq_true_iff] at hup
    obtain ⟨l', hl'⟩ := Option.isSome_iff_exists.1 hup.2
    have hopen : Opened threePieces [1, 2, 3, 4, 5] (fun _ => 0) threePiecesOpened :=
      opened_register consistent_threePieces (fun _ => 0) (fun _ => 0) rfl
        (by simp [threePiecesCreated])
    obtain ⟨-, -, hrest⟩ := reconnects downloadable_threePieces hopen (by decide) hs
    exact ⟨l, l', hs, hl', hup.1.symm, (hrest l rfl threePiecesRest l' hl').2.2 hup.1.symm⟩

end Leech

end CTorrent
