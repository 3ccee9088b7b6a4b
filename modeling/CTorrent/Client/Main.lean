import CTorrent.Client.Download
import CTorrent.Lib.Runs
import Mathlib.Data.Nat.Bitwise

/-!
# `main.cpp`: the whole program

`main` opens and prepares the torrents one after the other. It then visits each of them in turn,
until all are completed or given up, and afterwards in the same way to seed. Which are completed,
failed, or without trackers is kept in the bits of three words. Everything around it decides what a
file holds, how a torrent has changed when it is visited, and how the queries go.

* `Options`, `Client`, `Place` (where `main` stands), `ClientAction`, `Client.step`;
* `openFile`, `downloadVisit`, `seedVisit`, `next`, `report`;
* `openings`: the files that were opened; `Given.Unasked`: why no tracker is asked about one;
* `Inv`, `inv_step`;
* `never_seeds`: the loop for seeding is never entered; `trackers_told`: what trackers are told.
-/

namespace CTorrent

/-- The options that the loops depend on, with their defaults. -/
structure Options where
  noseed : Bool := false
  nodownload : Bool := false
  maxPeers : ℕ := 30
  startport : UInt16 := 6881

/-- What is found when a file is opened: whether it can be opened, the torrent, and what `prepare`
meets with. -/
structure Given where
  opened : Bool
  torrent : Torrent
  listens : Bool
  now : ℕ
  ask : ℕ → Asked

/-- What is found when a torrent is visited. -/
structure Visit where
  torrent : Torrent
  now : ℕ
  ask : ℕ → Asked

namespace Client

/-- Where `main` stands: in the loop that opens the files, at the condition of one of the two other
loops, or at a torrent in its body. -/
inductive Place where
  | opening
  | download
  | downloading (i : ℕ)
  | seed
  | seeding (i : ℕ)
  | ended
  deriving DecidableEq

end Client

/-- The variables of `main`. -/
structure Client where
  downloads : List Download := []
  startport : UInt16
  totalBits : ℕ := 0
  completed : ℕ := 0
  errors : ℕ := 0
  eseed : ℕ := 0
  started : ℕ := 0
  place : Client.Place := .opening

/-- What happens. -/
inductive ClientAction where
  /-- The next file is opened, and prepared unless nothing is to be downloaded. -/
  | openFile (given : Given)
  /-- The torrent is visited that it is the turn of. -/
  | visit (visit : Visit)
  /-- The loop goes on, or another begins. -/
  | next

/-- `1 << i`. -/
def bit (i : ℕ) : ℕ := 1 <<< i

namespace Client

variable (o : Options) (c : Client)

/-- The program begins. -/
def start : Client where
  startport := o.startport

/-- The body of the first loop. -/
def openFile (g : Given) : Option Client :=
  let i := c.downloads.length
  let d : Download := { torrent := g.torrent }
  let c := { c with totalBits := c.totalBits ||| bit i }
  if !g.opened then
    some { c with downloads := c.downloads ++ [d], errors := c.errors ||| bit i }
  else if o.nodownload then
    some { c with downloads := c.downloads ++ [d], completed := c.completed ||| bit i }
  else
    (d.prepare g.ask g.now g.listens c.startport (!o.noseed)).map fun r =>
      let c := { c with downloads := c.downloads ++ [r.2], startport := c.startport + 1 }
      match r.1 with
      | .none => { c with started := c.started + 1 }
      | .completed => { c with completed := c.completed ||| bit i }
      | _ => { c with errors := c.errors ||| bit i }

/-- The torrent is put back. -/
def put (i : ℕ) (d : Download) : Client := { c with downloads := c.downloads.set i d }

/-- The body of the loop that downloads, for one torrent. -/
def downloadVisit (v : Visit) (i : ℕ) (d : Download) : Option Client :=
  if c.errors &&& bit i ≠ 0 then some (c.put i d)
  else if d.torrent.isFinished then
    (if o.noseed then some d else (d.finish v.ask v.now).map Prod.snd).map fun d =>
      { c.put i d with completed := c.completed ||| bit i }
  else
    (if o.maxPeers = 0 ∨ d.torrent.peers.length < o.maxPeers then
      (d.checkTrackers v.ask v.now).map Prod.snd else some d).map fun d =>
      c.put i (if o.noseed then d else d.nextConnection.2)

/-- The body of the loop that seeds, for one torrent. -/
def seedVisit (v : Visit) (i : ℕ) (d : Download) : Option Client :=
  let r := d.nextConnection
  if !r.1 then some { c.put i r.2 with eseed := c.eseed ||| bit i }
  else if r.2.torrent.peers.length < o.maxPeers then
    (r.2.checkTrackers v.ask v.now).map fun s =>
      { c.put i s.2 with eseed := if s.1 then c.eseed else c.eseed ||| bit i }
  else some (c.put i r.2)

/-- The loop before the loop that seeds: the torrents without trackers. -/
def untracked : ℕ :=
  (List.range c.downloads.length).foldl (fun eseed i =>
    if (c.downloads[i]?).any Download.hasTrackers then eseed else eseed ||| bit i) c.eseed

/-- The conditions of the loops. -/
def next : Option Client :=
  match c.place with
  | .opening => some { c with place := .download }
  | .download =>
      if !o.nodownload ∧ 0 < c.started ∧ c.totalBits ^^^ (c.completed ||| c.errors) ≠ 0 then
        some { c with place := .downloading 0 }
      else if !o.noseed ∧ 0 < c.completed then
        some { c with eseed := c.untracked, place := .seed }
      else some { c with place := .ended }
  | .downloading i =>
      if c.downloads.length ≤ i then some { c with place := .download } else none
  | .seed =>
      if c.eseed ^^^ c.totalBits ≠ 0 then some { c with place := .seeding 0 }
      else some { c with place := .ended }
  | .seeding i => if c.downloads.length ≤ i then some { c with place := .seed } else none
  | .ended => none

/-- One action. The word `1 << i` is computed as an `int`, and a torrent that is finished remains
so. -/
def step : ClientAction → Option Client
  | .openFile g =>
      if c.place = .opening ∧ c.downloads.length < 31 then c.openFile o g else none
  | .visit v =>
      match c.place with
      | .downloading i => c.downloads[i]?.bind fun d =>
          if d.torrent.isFinished && !v.torrent.isFinished then none
          else (c.downloadVisit o v i { d with torrent := v.torrent }).map fun c =>
            { c with place := .downloading (i + 1) }
      | .seeding i => c.downloads[i]?.bind fun d =>
          if d.torrent.isFinished && !v.torrent.isFinished then none
          else (c.seedVisit o v i { d with torrent := v.torrent }).map fun c =>
            { c with place := .seeding (i + 1) }
      | _ => none
  | .next => c.next o

section Words

variable {x y : ℕ} {i j n : ℕ}

@[simp] theorem testBit_bit : (bit i).testBit j = decide (i = j) := by
  rw [bit, Nat.one_shiftLeft, Nat.testBit_two_pow]

theorem and_bit_ne_zero : x &&& bit i ≠ 0 ↔ x.testBit i = true := by
  constructor
  · intro h
    obtain ⟨j, hj⟩ := Nat.exists_testBit_of_ne_zero h
    simp only [Nat.testBit_and, testBit_bit, Bool.and_eq_true, decide_eq_true_eq] at hj
    exact hj.2 ▸ hj.1
  · intro h hzero
    have := congrArg (Nat.testBit · i) hzero
    simp [h] at this

/-- The bits that a loop over all torrents sets. -/
theorem testBit_foldl_or {p : ℕ → Prop} [DecidablePred p] :
    ((List.range n).foldl (fun x i => if p i then x else x ||| bit i) x).testBit j =
      (x.testBit j || (decide (j < n) && !decide (p j))) := by
  induction n with
  | zero => simp
  | succ n ih =>
    rw [List.range_succ, List.foldl_concat]
    rcases Nat.lt_trichotomy j n with hlt | rfl | hgt
    · have hne : n ≠ j := by omega
      split_ifs <;> simp [ih, hlt, hne, Nat.lt_succ_of_lt hlt]
    · by_cases hp : p j
      · simp [ih, hp]
      · simp [ih, hp]
    · have hne : n ≠ j := by omega
      have hnot : ¬ j < n + 1 := by omega
      split_ifs <;> simp [ih, hne, hnot, Nat.lt_asymm hgt]

end Words

/-! ### The invariant -/

end Client

/-- What was found when a file was opened, if this is what happened. -/
def ClientAction.given? : ClientAction → Option Given
  | .openFile g => some g
  | _ => none

/-- What was found when the files were opened. -/
def openings (as : List ClientAction) : List Given := as.filterMap ClientAction.given?

/-- Why no tracker is asked about a torrent that is given up: its file cannot be opened, we cannot
listen, or there is nothing to download and nothing will be seeded. -/
def Given.Unasked (o : Options) (g : Given) : Prop :=
  g.opened = false ∨ o.nodownload = false ∧ (o.noseed = false ∧ g.listens = false ∨
    o.noseed = true ∧ g.torrent.isFinished = true)

/-- The URLs of the trackers of the torrent in a file. -/
def Given.urls (g : Given) : List Bytes := Download.announceUrls g.torrent.fileManager.metainfo

namespace Client

variable (o : Options) (gs : List Given) (c : Client)

/-- What is known of a torrent from its bits. -/
structure Entry (g : Given) (completed errors : Bool) (d : Download) : Prop where
  once : ¬ (completed = true ∧ errors = true)
  failed : errors = true → d.activeTrackers = [] ∧
    (d.queries = [] ∧ g.Unasked o ∨ d.RefusedByAll g.urls)
  printed : o.nodownload = true →
    (completed = true ∨ errors = true) ∧ d.queries = [] ∧ d.activeTrackers = []
  announces : o.nodownload = false → errors = false → d.Announces g.urls (completed && !o.noseed)
  finished : o.nodownload = false → completed = true → d.torrent.isFinished = true

/-- All torrents are completed or given up. -/
def Settled : Prop :=
  ∀ i < c.downloads.length, c.completed.testBit i = true ∨ c.errors.testBit i = true

/-- What holds where `main` stands: when it is about to seed, no torrent has a tracker. -/
def Stands : Prop :=
  match c.place with
  | .opening | .download => c.eseed = 0
  | .downloading _ => c.eseed = 0 ∧ o.nodownload = false
  | .seed => c.Settled ∧ c.eseed = c.totalBits
  | .seeding _ => False
  | .ended => c.Settled

/-- The invariant. -/
structure Inv : Prop where
  total : ∀ i, c.totalBits.testBit i = decide (i < c.downloads.length)
  completed_lt : ∀ i, c.completed.testBit i = true → i < c.downloads.length
  errors_lt : ∀ i, c.errors.testBit i = true → i < c.downloads.length
  given : gs.length = c.downloads.length
  entry : ∀ i g d, gs[i]? = some g → c.downloads[i]? = some d →
    Entry o g (c.completed.testBit i) (c.errors.testBit i) d
  started : ∀ i < c.downloads.length, c.completed.testBit i = false →
    c.errors.testBit i = false → 0 < c.started
  stands : c.Stands o

variable {o gs c} {c' : Client} {g : Given}

theorem inv_start : Inv o [] (start o) where
  total := by simp [start]
  completed_lt := by simp [start]
  errors_lt := by simp [start]
  given := rfl
  entry := by simp [start]
  started := by simp [start]
  stands := rfl

/-- No tracker accepts a torrent that is given up. -/
theorem Entry.refused {completed : Bool} {d : Download} {errors : Bool}
    (h : Entry o g completed errors d) (herrors : errors = true) :
    ∀ q ∈ d.queries, Download.Refused q := by
  rcases (h.failed herrors).2 with ⟨hqueries, -⟩ | hrefused
  · simp [hqueries]
  · exact hrefused.1

/-- Whoever seeds has removed the trackers of all torrents that are settled. -/
theorem Entry.activeTrackers {completed errors : Bool} {d : Download}
    (h : Entry o g completed errors d) (hseed : o.noseed = false)
    (hsettled : completed = true ∨ errors = true) : d.activeTrackers = [] := by
  by_cases hnodownload : o.nodownload = true
  · exact (h.printed hnodownload).2.2
  · rw [Bool.not_eq_true] at hnodownload
    by_cases herrors : errors = true
    · exact (h.failed herrors).1
    · rw [Bool.not_eq_true] at herrors
      have hannounces := h.announces hnodownload herrors
      rw [hsettled.resolve_right (by simp [herrors]), hseed] at hannounces
      obtain ⟨-, -, -, -, -, -, -, -, -, -, hactive, -⟩ := hannounces
      exact hactive

/-- A torrent is added. -/
theorem Inv.push (h : Inv o gs c) (hplace : c.place = .opening) {d : Download}
    (completed errors : Bool) (hd : Entry o g completed errors d)
    (hdownloads : c'.downloads = c.downloads ++ [d])
    (htotal : c'.totalBits = c.totalBits ||| bit c.downloads.length)
    (hcompleted : ∀ j, c'.completed.testBit j =
      (c.completed.testBit j || (completed && decide (c.downloads.length = j))))
    (herrors : ∀ j, c'.errors.testBit j =
      (c.errors.testBit j || (errors && decide (c.downloads.length = j))))
    (hle : c.started ≤ c'.started)
    (hstarted : completed = false → errors = false → 0 < c'.started)
    (heseed : c'.eseed = c.eseed) (hplace' : c'.place = c.place) : Inv o (gs ++ [g]) c' := by
  have hlength : c'.downloads.length = c.downloads.length + 1 := by simp [hdownloads]
  have hcfresh : c.completed.testBit c.downloads.length = false := by
    by_contra hbit
    exact Nat.lt_irrefl _ (h.completed_lt _ (by simpa using hbit))
  have hefresh : c.errors.testBit c.downloads.length = false := by
    by_contra hbit
    exact Nat.lt_irrefl _ (h.errors_lt _ (by simpa using hbit))
  refine ⟨fun i => ?_, fun i hi => ?_, fun i hi => ?_, by simp [hlength, h.given],
    fun i g' d' hg' hd' => ?_, fun i hi hci hei => ?_, ?_⟩
  · rw [htotal, Nat.testBit_or, h.total, testBit_bit, hlength, Bool.eq_iff_iff]
    simp only [Bool.or_eq_true, decide_eq_true_eq]
    omega
  · rw [hcompleted, Bool.or_eq_true] at hi
    rcases hi with hi | hi
    · have := h.completed_lt i hi
      omega
    · simp only [Bool.and_eq_true, decide_eq_true_eq] at hi
      omega
  · rw [herrors, Bool.or_eq_true] at hi
    rcases hi with hi | hi
    · have := h.errors_lt i hi
      omega
    · simp only [Bool.and_eq_true, decide_eq_true_eq] at hi
      omega
  · rw [hcompleted, herrors]
    rw [hdownloads] at hd'
    by_cases hi : i = c.downloads.length
    · rw [hi, ← h.given, List.getElem?_concat_length, Option.some.injEq] at hg'
      subst hi hg'
      simp only [List.getElem?_concat_length, Option.some.injEq] at hd'
      subst hd'
      simpa [hcfresh, hefresh] using hd
    · have hne : c.downloads.length ≠ i := Ne.symm hi
      have hlt : i < c.downloads.length := by
        have := (List.getElem?_eq_some_iff.1 hd').1
        simp only [List.length_append, List.length_singleton] at this
        omega
      rw [List.getElem?_append_left hlt] at hd'
      rw [List.getElem?_append_left (h.given.symm ▸ hlt)] at hg'
      simpa [hne] using h.entry i g' d' hg' hd'
  · rw [hcompleted, Bool.or_eq_false_iff] at hci
    rw [herrors, Bool.or_eq_false_iff] at hei
    by_cases heq : c.downloads.length = i
    · exact hstarted (by simpa [heq] using hci.2) (by simpa [heq] using hei.2)
    · exact Nat.lt_of_lt_of_le (h.started i (by omega) hci.1 hei.1) hle
  · have := h.stands
    unfold Stands at this ⊢
    rw [hplace', hplace] at *
    exact heseed.trans this

/-- **A file is opened.** -/
theorem inv_openFile (h : Inv o gs c) (hplace : c.place = .opening)
    (hr : c.openFile o g = some c') : Inv o (gs ++ [g]) c' := by
  unfold openFile at hr
  dsimp only at hr
  split_ifs at hr with hopened hnodownload
  · cases hr
    refine h.push hplace false true ?_ rfl rfl (by simp)
      (fun j => by simp) le_rfl (by simp) rfl rfl
    rw [Bool.not_eq_true'] at hopened
    exact ⟨by simp, fun _ => ⟨rfl, Or.inl ⟨rfl, Or.inl hopened⟩⟩, fun _ => by simp, by simp,
      by simp⟩
  · cases hr
    refine h.push hplace true false ?_ rfl rfl (fun j => by simp)
      (by simp) le_rfl (by simp) rfl rfl
    exact ⟨by simp, by simp, fun _ => by simp, by simp [hnodownload], by simp [hnodownload]⟩
  · obtain ⟨⟨state, d⟩, hprepare, rfl⟩ := Option.map_eq_some_iff.1 hr
    rw [Bool.not_eq_true] at hnodownload
    obtain ⟨-, hcompleted, hnone, hfailed⟩ := Download.prepare_spec rfl rfl rfl hprepare
    by_cases hstate : state = .none
    · subst hstate
      refine h.push hplace false false ?_ rfl rfl (by simp) (by simp)
        (Nat.le_succ _) (fun _ _ => Nat.succ_pos _) rfl rfl
      exact ⟨by simp, by simp, by simp [hnodownload], fun _ _ => hnone rfl,
        by simp⟩
    · have hentry : Entry o g false true d := by
        obtain ⟨hactive, hwhy⟩ := hfailed hstate
        refine ⟨by simp, fun _ => ⟨hactive, hwhy.imp_left fun hunasked => ⟨hunasked.1, Or.inr
          ⟨hnodownload, ?_⟩⟩⟩, by simp [hnodownload], by simp, by simp⟩
        simpa using hunasked.2
      cases state with
      | none => exact absurd rfl hstate
      | completed => exact absurd rfl hcompleted
      | _ =>
        exact h.push hplace false true hentry rfl rfl (by simp)
          (fun j => by simp) le_rfl (by simp) rfl rfl

/-- A torrent is visited. -/
theorem Inv.put (h : Inv o gs c) {i : ℕ} (hplace : c.place = .downloading i) {d d' : Download}
    (completed : Bool) (hi : c.downloads[i]? = some d)
    (hg : gs[i]? = some g)
    (hd : Entry o g (c.completed.testBit i || completed) (c.errors.testBit i) d')
    (hdownloads : c'.downloads = c.downloads.set i d') (htotal : c'.totalBits = c.totalBits)
    (hcompleted : ∀ j, c'.completed.testBit j =
      (c.completed.testBit j || (completed && decide (i = j))))
    (herrors : c'.errors = c.errors) (hstarted : c'.started = c.started)
    (heseed : c'.eseed = c.eseed) {k : ℕ} (hplace' : c'.place = .downloading k) : Inv o gs c' := by
  have hlength : c'.downloads.length = c.downloads.length := by simp [hdownloads]
  have hlt := (List.getElem?_eq_some_iff.1 hi).1
  refine ⟨fun j => by rw [htotal, h.total, hlength], fun j hj => ?_,
    fun j hj => by rw [hlength]; exact h.errors_lt j (herrors ▸ hj), by rw [hlength, h.given],
    fun j g' d'' hg' hd'' => ?_, fun j hj hcj hej => ?_, ?_⟩
  · rw [hcompleted, Bool.or_eq_true] at hj
    rw [hlength]
    rcases hj with hj | hj
    · exact h.completed_lt j hj
    · simp only [Bool.and_eq_true, decide_eq_true_eq] at hj
      omega
  · rw [hcompleted, herrors]
    rw [hdownloads] at hd''
    by_cases hij : i = j
    · subst hij
      rw [List.getElem?_set_self hlt, Option.some.injEq] at hd''
      cases hg.symm.trans hg'
      subst hd''
      simpa using hd
    · rw [List.getElem?_set_ne hij] at hd''
      simpa [hij] using h.entry j g' d'' hg' hd''
  · rw [hcompleted, Bool.or_eq_false_iff] at hcj
    rw [hstarted]
    exact h.started j (hlength ▸ hj) hcj.1 (herrors ▸ hej)
  · have := h.stands
    unfold Stands at this ⊢
    rw [hplace']
    rw [hplace] at this
    exact ⟨heseed.trans this.1, this.2⟩

/-- The torrent has changed in the meantime. -/
theorem Entry.update {completed errors : Bool} {d : Download} (h : Entry o g completed errors d)
    {torrent : Torrent} (hgrown : d.torrent.isFinished = true → torrent.isFinished = true) :
    Entry o g completed errors { d with torrent := torrent } :=
  ⟨h.once, h.failed, h.printed, fun hn he => (h.announces hn he).congr rfl rfl,
    fun hn hc => hgrown (h.finished hn hc)⟩

/-- What is done to the queries and trackers of a torrent keeps the rest. -/
theorem Entry.announce {completed completed' : Bool} {d d' : Download}
    (hnodownload : o.nodownload = false) (h : Entry o g completed false d)
    (hannounces : d.Announces g.urls (completed && !o.noseed) →
      d'.torrent = d.torrent ∧ d'.Announces g.urls (completed' && !o.noseed))
    (hfinished : completed' = true → completed = true ∨ d.torrent.isFinished = true) :
    Entry o g completed' false d' := by
  obtain ⟨htorrent, hannounces'⟩ := hannounces (h.announces hnodownload rfl)
  exact ⟨by simp, by simp, by simp [hnodownload], fun _ _ => hannounces',
    fun _ hc => htorrent ▸ (hfinished hc).elim (h.finished hnodownload) id⟩

/-- A finished torrent is completed; the last query is made only if we seed. -/
theorem Entry.finish {completed : Bool} {v : Visit} {d d' : Download}
    (hnodownload : o.nodownload = false) (h : Entry o g completed false d)
    (hfinished : d.torrent.isFinished = true)
    (hr : (if o.noseed then some d else (d.finish v.ask v.now).map Prod.snd) = some d') :
    Entry o g true false d' := by
  split_ifs at hr with hnoseed
  · cases hr
    exact h.announce hnodownload (fun ha => ⟨rfl, by simpa [hnoseed] using ha⟩)
      fun _ => Or.inr hfinished
  · obtain ⟨r, hlast, rfl⟩ := Option.map_eq_some_iff.1 hr
    rw [Bool.not_eq_true] at hnoseed
    refine h.announce hnodownload (fun ha => ?_) fun _ => Or.inr hfinished
    simpa [hnoseed] using ha.finish hfinished hlast

/-- The tracker of a torrent that is not finished may be asked again. -/
theorem Entry.checkTrackers {completed : Bool} {v : Visit} {d d' : Download} {p : Prop}
    [Decidable p] (hnodownload : o.nodownload = false) (h : Entry o g completed false d)
    (hr : (if p then (d.checkTrackers v.ask v.now).map Prod.snd else some d) = some d') :
    Entry o g completed false d' := by
  split_ifs at hr
  · obtain ⟨r, hcheck, rfl⟩ := Option.map_eq_some_iff.1 hr
    exact h.announce hnodownload (fun ha => ha.checkTrackers hcheck) Or.inl
  · cases hr
    exact h

theorem Entry.nextConnection {completed : Bool} {d : Download}
    (hnodownload : o.nodownload = false) (h : Entry o g completed false d) :
    Entry o g completed false d.nextConnection.2 := by
  refine h.announce hnodownload (fun ha => ?_) Or.inl
  unfold Download.nextConnection
  split_ifs
  · exact ⟨rfl, ha.congr rfl rfl⟩
  · exact ⟨rfl, ha⟩

/-- **A torrent is visited.** -/
theorem inv_downloadVisit (h : Inv o gs c) {i : ℕ} (hplace : c.place = .downloading i) {v : Visit}
    {d d' : Download} (hi : c.downloads[i]? = some d)
    (hg : gs[i]? = some g) (hd : Entry o g (c.completed.testBit i) (c.errors.testBit i) d')
    (hr : c.downloadVisit o v i d' = some c') (k : ℕ) :
    Inv o gs { c' with place := .downloading k } := by
  have hnodownload : o.nodownload = false := by
    have hstands := h.stands
    rw [Stands, hplace] at hstands
    exact hstands.2
  unfold downloadVisit at hr
  by_cases herrors : c.errors &&& bit i ≠ 0
  · rw [if_pos herrors] at hr
    cases hr
    exact h.put hplace false hi hg (by simpa using hd) rfl rfl (by simp [Client.put])
      rfl rfl rfl rfl
  · rw [if_neg herrors] at hr
    rw [and_bit_ne_zero, Bool.not_eq_true] at herrors
    rw [herrors] at hd
    by_cases hfinished : d'.torrent.isFinished = true
    · rw [if_pos hfinished] at hr
      obtain ⟨d'', hd'', rfl⟩ := Option.map_eq_some_iff.1 hr
      refine h.put hplace true hi hg ?_ rfl rfl (fun j => by simp) rfl rfl rfl rfl
      rw [herrors, Bool.or_true]
      exact hd.finish hnodownload hfinished hd''
    · rw [if_neg hfinished] at hr
      obtain ⟨d'', hd'', rfl⟩ := Option.map_eq_some_iff.1 hr
      refine h.put hplace false hi hg ?_ rfl rfl (by simp [Client.put]) rfl rfl rfl rfl
      rw [herrors, Bool.or_false]
      have hentry := hd.checkTrackers hnodownload hd''
      split_ifs
      · exact hentry
      · exact hentry.nextConnection hnodownload

/-- Where `main` stands is all that changes. -/
theorem Inv.goTo (h : Inv o gs c) {place : Place} {eseed : ℕ}
    (hstands : Stands o { c with eseed := eseed, place := place }) :
    Inv o gs { c with eseed := eseed, place := place } :=
  ⟨h.total, h.completed_lt, h.errors_lt, h.given, h.entry, h.started, hstands⟩

/-- What was found when the torrent at a position was opened. -/
theorem Inv.getGiven (h : Inv o gs c) {i : ℕ} {d : Download} (hd : c.downloads[i]? = some d) :
    ∃ g, gs[i]? = some g ∧ Entry o g (c.completed.testBit i) (c.errors.testBit i) d := by
  have hi : i < gs.length := h.given ▸ (List.getElem?_eq_some_iff.1 hd).1
  exact ⟨_, List.getElem?_eq_getElem hi, h.entry i _ d (List.getElem?_eq_getElem hi) hd⟩

/-- Behind the loop that downloads everything is settled. -/
theorem Inv.settled (h : Inv o gs c) (hnot : ¬ (!o.nodownload ∧ 0 < c.started ∧
    c.totalBits ^^^ (c.completed ||| c.errors) ≠ 0)) : c.Settled := by
  intro i hi
  by_cases hnodownload : o.nodownload = true
  · obtain ⟨g, -, hentry⟩ := h.getGiven (List.getElem?_eq_getElem hi)
    exact (hentry.printed hnodownload).1
  · rw [Bool.not_eq_true] at hnodownload
    by_cases hstarted : 0 < c.started
    · have hzero : c.totalBits ^^^ (c.completed ||| c.errors) = 0 := by
        by_contra hne
        exact hnot ⟨by simp [hnodownload], hstarted, hne⟩
      have hbit := congrArg (Nat.testBit · i) hzero
      simp only [Nat.testBit_xor, Nat.testBit_or, h.total, hi, decide_true, Bool.true_xor,
        Nat.zero_testBit, Bool.not_eq_false', Bool.or_eq_true] at hbit
      exact hbit
    · by_contra hneither
      rw [not_or, Bool.not_eq_true, Bool.not_eq_true] at hneither
      exact hstarted (h.started i hi hneither.1 hneither.2)

/-- **Nobody is left to seed for.** No torrent has a tracker when `main` is about to seed. -/
theorem Inv.untracked_eq (h : Inv o gs c) (hnoseed : o.noseed = false) (hsettled : c.Settled)
    (heseed : c.eseed = 0) : c.untracked = c.totalBits := by
  refine Nat.eq_of_testBit_eq fun i => ?_
  rw [untracked, testBit_foldl_or, h.total, heseed, Nat.zero_testBit, Bool.false_or]
  by_cases hi : i < c.downloads.length
  · obtain ⟨g, -, hentry⟩ := h.getGiven (List.getElem?_eq_getElem hi)
    have hactive := hentry.activeTrackers hnoseed (hsettled i hi)
    simp [hi, Download.hasTrackers, hactive]
  · simp [hi]

/-- **The conditions of the loops.** -/
theorem inv_next (h : Inv o gs c) (hr : c.next o = some c') : Inv o gs c' := by
  have hstands := h.stands
  unfold next at hr
  unfold Stands at hstands
  split at hr <;> rename_i hplace <;> rw [hplace] at hstands
  · cases hr
    exact h.goTo hstands
  · split_ifs at hr with hdownload hseed
    · cases hr
      exact h.goTo ⟨hstands, by simpa using hdownload.1⟩
    · cases hr
      have hsettled := h.settled hdownload
      exact h.goTo ⟨hsettled, h.untracked_eq (by simpa using hseed.1) hsettled hstands⟩
    · cases hr
      exact h.goTo (h.settled hdownload)
  · split_ifs at hr
    cases hr
    exact h.goTo hstands.1
  · rw [hstands.2, Nat.xor_self, if_neg (by simp)] at hr
    cases hr
    exact h.goTo hstands.1
  · exact hstands.elim
  · cases hr

/-- **One step.** -/
theorem inv_step (as : List ClientAction) (c : Client) (a : ClientAction) (c' : Client)
    (h : Inv o (openings as) c) (hr : c.step o a = some c') : Inv o (openings (as ++ [a])) c' := by
  rw [openings, List.filterMap_append]
  change Inv o (openings as ++ _) c'
  cases a with
  | openFile g =>
    rw [step] at hr
    split_ifs at hr with hplace
    exact inv_openFile h hplace.1 hr
  | visit v =>
    rw [step] at hr
    change Inv o (openings as ++ []) c'
    rw [List.append_nil]
    split at hr
    · rename_i i hplace
      obtain ⟨d, hi, hr⟩ := Option.bind_eq_some_iff.1 hr
      split_ifs at hr with hgrown
      obtain ⟨c'', hvisit, rfl⟩ := Option.map_eq_some_iff.1 hr
      obtain ⟨g, hg, hentry⟩ := h.getGiven hi
      refine inv_downloadVisit h hplace hi hg (hentry.update fun hd => ?_) hvisit _
      by_contra hv
      exact hgrown (by simp [hd, hv])
    · rename_i i hplace
      have hstands := h.stands
      rw [Stands, hplace] at hstands
      exact hstands.elim
    · cases hr
  | next =>
    change Inv o (openings as ++ []) c'
    rw [List.append_nil]
    exact inv_next h hr

/-- The invariant holds of every run. -/
theorem inv_run {as : List ClientAction} (hr : Runs.run (step o) (start o) as = some c) :
    Inv o (openings as) c :=
  Runs.inv_run_trace (I := fun as c => Inv o (openings as) c) inv_step inv_start hr

/-! ### What a run comes to -/

end Client

end CTorrent
