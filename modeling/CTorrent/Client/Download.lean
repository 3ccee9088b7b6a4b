import CTorrent.Peer.TrackerQuery
import CTorrent.Tracker.QueryTrackers

/-!
# A torrent as `main` sees it

`main` opens a torrent, prepares it, looks at it again and again, and finishes it. Its trackers are
asked on the way. `ask` decides how a query goes, by the number of queries before it. The clock
counts nanoseconds in a signed word of 64 bits, so that the time of the next request wraps around
for a long interval. A query that is made with `std::async` is waited for, since the future that is
thrown away blocks.

* `Asked.due`, `Asked.timeToNextRequest`: when a tracker asks to be asked again, and what is stored;
* `Download`: the torrent with its listener and its trackers, and every query that was made;
* `prepare`, `finish`, `checkTrackers`, `nextConnection`;
* `RefusedByAll`, `Announces`: what the queries of a torrent look like.
-/

namespace CTorrent

/-- How a query goes: when it is answered or given up, and the interval in seconds if it
succeeds. -/
structure Asked where
  done : ℕ
  interval : Option UInt64

/-- When the next request is due: after the interval, or a tenth of a second after a failure. -/
def Asked.due (asked : Asked) : ℕ :=
  match asked.interval with
  | some interval => asked.done + 10 ^ 9 * interval.toNat
  | none => asked.done + 10 ^ 8

/-- What `m_timeToNextRequest` is set to: the number of nanoseconds, as an `int64_t`. -/
def Asked.timeToNextRequest (asked : Asked) : ℤ := toInt64 asked.due

/-- A query of a tracker, made at the time `sent`. -/
structure Query where
  tracker : Tracker
  request : TrackerQuery
  sent : ℕ
  asked : Asked

/-- An element of `m_activeTrackers`. -/
structure ActiveTracker where
  tracker : Tracker
  timeToNextRequest : ℤ

/-- `timeUp`. -/
def ActiveTracker.timeUp (tracker : ActiveTracker) (now : ℕ) : Bool :=
  decide (tracker.timeToNextRequest ≤ now)

/-- `Torrent::DownloadState`. -/
inductive DownloadState where
  | none
  | completed
  | trackerQueryFailure
  | alreadyDownloaded
  | networkError
  deriving DecidableEq

/-- A `Torrent` with `m_listener` and `m_activeTrackers`. `accepts` counts the calls of `accept`,
`queries` are those of all trackers. -/
structure Download where
  torrent : Torrent
  listener : Bool := false
  accepts : ℕ := 0
  activeTrackers : List ActiveTracker := []
  queries : List Query := []

namespace Download

/-- `hasTrackers`. -/
def hasTrackers (d : Download) : Bool := !d.activeTrackers.isEmpty

section Queries

variable (ask : ℕ → Asked) (now : ℕ)

/-- `Tracker::query`. -/
def query (d : Download) (tracker : Tracker) (q : TrackerQuery) : Asked × Download :=
  let asked := ask d.queries.length
  (asked, { d with queries := d.queries ++ [⟨tracker, q, now, asked⟩] })

variable (tport : UInt16) (q : TrackerQuery)

/-- `queryTracker`. -/
def queryTracker (d : Download) (furl : Bytes) : Bool × Download :=
  let url := parseUrl furl
  if url.hostname = [] then (false, d)
  else
    let tracker := Tracker.new url.hostname url.servname url.protocol tport
    let r := d.query ask now tracker q
    if r.1.interval.isNone then (false, r.2)
    else (true, { r.2 with
      activeTrackers := r.2.activeTrackers ++ [⟨tracker, r.1.timeToNextRequest⟩] })

/-- The loop over a list in the announce list. -/
def queryVector : VectorType → Download → Bool × Download
  | [], d => (false, d)
  | announce :: v, d =>
      let r := d.queryTracker ask now tport q (castString announce)
      if r.1 then r else queryVector v r.2

/-- The loop over the announce list. -/
def queryElements : VectorType → Download → Bool × Download
  | [], d => (false, d)
  | .vector v :: es, d =>
      let r := queryVector ask now tport q v d
      if r.1 then r else queryElements es r.2
  | .string x :: es, d =>
      let r := d.queryTracker ask now tport q (castString (Any.ofPointer (.string x)))
      if r.1 then r else queryElements es r.2
  | _ :: es, d => queryElements es d

/-- `queryTrackers`. -/
def queryTrackers (d : Download) : Bool × Download :=
  let m := d.torrent.fileManager.metainfo
  let r := d.queryTracker ask now tport q m.mainTracker
  if r.1 then r else queryElements ask now tport q m.trackers r.2

/-- `prepare`; `listens` tells if a listener can be allocated. -/
def prepare (listens : Bool) (port : UInt16) (seeder : Bool) (d : Download) :
    Option (DownloadState × Download) :=
  if seeder && !d.listener && !listens then some (.networkError, d)
  else if !seeder && d.torrent.isFinished then some (.alreadyDownloaded, d)
  else
    let d := { d with listener := d.listener || seeder }
    (d.torrent.makeTrackerQuery .started).map fun q =>
      let r := d.queryTrackers ask now (if seeder then port else 0) q
      (if r.1 then .none else .trackerQueryFailure, r.2)

/-- The loop of `finish`: each tracker is asked once more and removed. -/
def finishTrackers : List ActiveTracker → Download → Download
  | [], d => { d with activeTrackers := [] }
  | tracker :: trackers, d => finishTrackers trackers (d.query ask now tracker.tracker q).2

/-- `finish`. -/
def finish (d : Download) : Option (Bool × Download) :=
  let event := if d.torrent.isFinished then .completed else .stopped
  (d.torrent.makeTrackerQuery event).map fun q =>
    (d.torrent.isFinished, finishTrackers ask now q d.activeTrackers d)

/-- The loop of `checkTrackers`. -/
def checkLoop : List ActiveTracker → Download → Option Download
  | [], d => some d
  | tracker :: trackers, d =>
      if tracker.timeUp now then
        (d.torrent.makeTrackerQuery .none).bind fun q =>
          let r := d.query ask now tracker.tracker q
          checkLoop trackers { r.2 with
            activeTrackers := r.2.activeTrackers ++ [⟨tracker.tracker, r.1.timeToNextRequest⟩] }
      else checkLoop trackers { d with activeTrackers := d.activeTrackers ++ [tracker] }

/-- `checkTrackers`. -/
def checkTrackers (d : Download) : Option (Bool × Download) :=
  (checkLoop ask now d.activeTrackers { d with activeTrackers := [] }).map fun d => (true, d)

/-- `nextConnection`. -/
def nextConnection (d : Download) : Bool × Download :=
  if d.listener then (true, { d with accepts := d.accepts + 1 }) else (false, d)

end Queries

/-! ### What the queries look like -/

/-- A query that told a tracker that we start, and failed. -/
def Refused (q : Query) : Prop := q.request.event = .started ∧ q.asked.interval = none

/-- A query that told a tracker that we start, and was answered. -/
def Accepted (q : Query) : Prop := q.request.event = .started ∧ q.asked.interval ≠ none

/-- The same tracker is asked again, with no event and not before the time that is stored. If the
word has room for the time when the request is due, that is the time. -/
def Follows (a b : Query) : Prop :=
  b.tracker = a.tracker ∧ b.request.event = .none ∧ a.asked.timeToNextRequest ≤ b.sent ∧
    (a.asked.due < 2 ^ 63 → a.asked.due ≤ b.sent)

/-- The trackers of those URLs that have a host. -/
def trackersOf (tport : UInt16) (urls : List Bytes) : List Tracker :=
  (urls.filter fun url => decide ((parseUrl url).hostname ≠ [])).map (Querier.trackerOf tport)

/-- The URLs that `queryTrackers` takes from the metainfo, the main tracker's first. -/
def announceUrls (m : TorrentMeta) : List Bytes :=
  m.mainTracker :: m.trackers.flatMap Querier.passed

/-- All trackers were asked in turn, and refused. -/
def RefusedByAll (d : Download) (urls : List Bytes) : Prop :=
  (∀ q ∈ d.queries, Refused q) ∧ ∃ tport, d.queries.map Query.tracker = trackersOf tport urls

/-- The queries of a torrent that was prepared. The trackers are asked in turn. Some refuse, and one
accepts, which alone is asked from then on, and never too early; if it has been told the end, that
was the last query. -/
def Announces (d : Download) (urls : List Bytes) (told : Bool) : Prop :=
  ∃ tport refused first later final, d.queries = refused ++ first :: later ++ final ∧
    (refused ++ [first]).map Query.tracker <+: trackersOf tport urls ∧
    (∀ q ∈ refused, Refused q) ∧ Accepted first ∧ List.IsChain Follows (first :: later) ∧
    if told then d.activeTrackers = [] ∧ ∃ q, final = [q] ∧ q.tracker = first.tracker ∧
      q.request.event = .completed
    else final = [] ∧ ∃ last, (first :: later).getLast? = some last ∧
      d.activeTrackers = [⟨first.tracker, last.asked.timeToNextRequest⟩]

/-- What the queries of the trackers of some URLs, one after the other, have added. -/
structure Tried (tport : UInt16) (urls : List Bytes) (d : Download) (r : Bool × Download) :
    Prop where
  torrent : r.2.torrent = d.torrent
  added : ∃ refused accepted rest, r.2.queries = d.queries ++ refused ++ accepted ∧
    trackersOf tport urls = (refused ++ accepted).map Query.tracker ++ rest ∧
    (r.1 = false → rest = []) ∧
    (∀ q ∈ refused, Refused q) ∧ (∀ q ∈ accepted, Accepted q) ∧
    accepted.length = r.1.toNat ∧ r.2.activeTrackers = d.activeTrackers ++
      accepted.map fun q => ⟨q.tracker, q.asked.timeToNextRequest⟩

section Announces

variable {ask : ℕ → Asked} {now : ℕ} {tport : UInt16} {q : TrackerQuery} {d d' : Download}
  {told : Bool} {urls urls' : List Bytes}

/-- Nothing but the queries and the trackers matters. -/
theorem Announces.congr (h : d.Announces urls told) (hqueries : d'.queries = d.queries)
    (hactive : d'.activeTrackers = d.activeTrackers) : d'.Announces urls told := by
  unfold Announces at h ⊢
  rw [hqueries, hactive]
  exact h

theorem trackersOf_append (tport : UInt16) (urls urls' : List Bytes) :
    trackersOf tport (urls ++ urls') = trackersOf tport urls ++ trackersOf tport urls' := by
  rw [trackersOf, List.filter_append, List.map_append]
  rfl

/-- Where no URL is tried, nothing is added. -/
theorem tried_nil (tport : UInt16) (d : Download) : Tried tport [] d (false, d) :=
  ⟨rfl, [], [], [], by simp, rfl, by simp, by simp, by simp, rfl, by simp⟩

theorem tried_queryTracker (hq : q.event = .started) (furl : Bytes) :
    Tried tport [furl] d (d.queryTracker ask now tport q furl) := by
  unfold queryTracker
  dsimp only [query]
  split_ifs with hhost hfailed
  · exact ⟨rfl, [], [], [], by simp, by simp [trackersOf, hhost], by simp, by simp, by simp, rfl,
      by simp⟩
  · refine ⟨rfl, [_], [], [], (List.append_nil _).symm, ?_, by simp, ?_, by simp, rfl, by simp⟩
    · simp [trackersOf, hhost, Querier.trackerOf]
    · simp only [List.mem_singleton, forall_eq]
      exact ⟨hq, Option.isNone_iff_eq_none.1 hfailed⟩
  · refine ⟨rfl, [], [_], [], by rw [List.append_nil], ?_, by simp, by simp, ?_, rfl, rfl⟩
    · simp [trackersOf, hhost, Querier.trackerOf]
    · simp only [List.mem_singleton, forall_eq]
      exact ⟨hq, fun h => hfailed (Option.isNone_iff_eq_none.2 h)⟩

/-- One has accepted: no other URL is tried. -/
theorem Tried.append {r : Bool × Download} (h : Tried tport urls d r) (htrue : r.1 = true)
    (urls' : List Bytes) : Tried tport (urls ++ urls') d r := by
  obtain ⟨htorrent, refused, accepted, rest, hqueries, htrackers, -, hall⟩ := h
  refine ⟨htorrent, refused, accepted, rest ++ trackersOf tport urls', hqueries, ?_, ?_, hall⟩
  · rw [trackersOf_append, htrackers, List.append_assoc]
  · simp [htrue]

/-- The next trackers are only asked if the ones before refused. -/
theorem Tried.trans {r r' : Bool × Download} (h : Tried tport urls d r) (hfalse : ¬ r.1 = true)
    (h' : Tried tport urls' r.2 r') : Tried tport (urls ++ urls') d r' := by
  obtain ⟨htorrent, refused, accepted, rest, hqueries, htrackers, hrest, hrefused, -, hlength,
    hactive⟩ := h
  obtain ⟨htorrent', refused', accepted', rest', hqueries', htrackers', hrest', hrefused',
    haccepted', hlength', hactive'⟩ := h'
  rw [Bool.not_eq_true] at hfalse
  rw [hfalse, Bool.toNat_false, List.length_eq_zero_iff] at hlength
  subst hlength
  refine ⟨htorrent'.trans htorrent, refused ++ refused', accepted', rest', ?_, ?_, hrest', ?_,
    haccepted', hlength', ?_⟩
  · rw [hqueries', hqueries, List.append_nil, List.append_assoc d.queries]
  · rw [trackersOf_append, htrackers, htrackers', hrest hfalse]
    simp
  · intro q hq
    rcases List.mem_append.1 hq with hq | hq
    · exact hrefused q hq
    · exact hrefused' q hq
  · rw [hactive', hactive, List.map_nil, List.append_nil]

theorem tried_queryVector (hq : q.event = .started) (v : VectorType) (d : Download) :
    Tried tport (v.map castString) d (queryVector ask now tport q v d) := by
  induction v generalizing d with
  | nil => exact tried_nil tport d
  | cons announce v ih =>
    rw [queryVector, List.map_cons, ← List.singleton_append]
    split_ifs with hsuccess
    · exact (tried_queryTracker hq _).append hsuccess _
    · exact (tried_queryTracker hq _).trans hsuccess (ih _)

theorem tried_queryElements (hq : q.event = .started) (es : VectorType) (d : Download) :
    Tried tport (es.flatMap Querier.passed) d (queryElements ask now tport q es d) := by
  induction es generalizing d with
  | nil => exact tried_nil tport d
  | cons e es ih =>
    rw [List.flatMap_cons]
    cases e with
    | vector v =>
      rw [queryElements]
      split_ifs with hsuccess
      · exact (tried_queryVector hq v d).append hsuccess _
      · exact (tried_queryVector hq v d).trans hsuccess (ih _)
    | string x =>
      rw [queryElements]
      split_ifs with hsuccess
      · exact (tried_queryTracker hq _).append hsuccess _
      · exact (tried_queryTracker hq _).trans hsuccess (ih _)
    | _ => exact ih d

theorem tried_queryTrackers (hq : q.event = .started) :
    Tried tport (announceUrls d.torrent.fileManager.metainfo) d
      (d.queryTrackers ask now tport q) := by
  unfold queryTrackers
  dsimp only
  rw [announceUrls, ← List.singleton_append]
  split_ifs with hsuccess
  · exact (tried_queryTracker hq _).append hsuccess _
  · exact (tried_queryTracker hq _).trans hsuccess (tried_queryElements hq _ _)

/-- A query has the event that it is made for. -/
theorem event_of_makeTrackerQuery {torrent : Torrent} {event : TrackerEvent}
    (h : torrent.makeTrackerQuery event = some q) : q.event = event := by
  obtain ⟨-, -, rfl⟩ := Option.map_eq_some_iff.1 h
  rfl

/-- **How a torrent starts.** It is not prepared if we cannot listen, or if there is nothing to
download and nothing will be seeded. Else one tracker accepts, or all of them refuse. -/
theorem prepare_spec {listens : Bool} {port : UInt16} {seeder : Bool}
    {r : DownloadState × Download} (hqueries : d.queries = []) (hactive : d.activeTrackers = [])
    (hlistener : d.listener = false) (hr : d.prepare ask now listens port seeder = some r) :
    r.2.torrent = d.torrent ∧ r.1 ≠ .completed ∧
      (r.1 = .none → r.2.Announces (announceUrls d.torrent.fileManager.metainfo) false) ∧
      (r.1 ≠ .none → r.2.activeTrackers = [] ∧
        (r.2.queries = [] ∧ (seeder = true ∧ listens = false ∨
            seeder = false ∧ d.torrent.isFinished = true) ∨
          r.2.RefusedByAll (announceUrls d.torrent.fileManager.metainfo))) := by
  unfold prepare at hr
  generalize (if seeder = true then port else 0) = tport at hr
  split_ifs at hr with hnetwork hfinished
  · cases hr
    refine ⟨rfl, by simp, by simp, fun _ => ⟨hactive, Or.inl ⟨hqueries, Or.inl ?_⟩⟩⟩
    simpa [hlistener] using hnetwork
  · cases hr
    refine ⟨rfl, by simp, by simp, fun _ => ⟨hactive, Or.inl ⟨hqueries, Or.inr ?_⟩⟩⟩
    simpa using hfinished
  · obtain ⟨q, hq, rfl⟩ := Option.map_eq_some_iff.1 hr
    have htried := @tried_queryTrackers ask now tport q
      { d with listener := d.listener || seeder } (event_of_makeTrackerQuery hq)
    revert htried
    generalize queryTrackers ask now tport q { d with listener := d.listener || seeder } = r
    rintro ⟨htorrent, refused, accepted, rest, hadded, htrackers, hrest, hrefused, haccepted,
      hlength, hadds⟩
    simp only [hqueries, hactive, List.nil_append] at hadded hadds
    dsimp only
    split_ifs with hsuccess
    · rw [hsuccess, Bool.toNat_true, List.length_eq_one_iff] at hlength
      obtain ⟨first, rfl⟩ := hlength
      refine ⟨htorrent, by simp, fun _ => ?_, by simp⟩
      exact ⟨tport, refused, first, [], [], by simp [hadded], ⟨rest, htrackers.symm⟩, hrefused,
        haccepted first (by simp), List.isChain_singleton _, rfl, first, rfl, by simp [hadds]⟩
    · rw [Bool.not_eq_true] at hsuccess
      rw [hsuccess, Bool.toNat_false, List.length_eq_zero_iff] at hlength
      subst hlength
      rw [List.append_nil] at hadded htrackers
      rw [hrest hsuccess, List.append_nil] at htrackers
      refine ⟨htorrent, by simp, by simp, fun _ => ⟨by simp [hadds], Or.inr ⟨?_, tport, ?_⟩⟩⟩
      · rw [hadded]
        exact hrefused
      · rw [hadded]
        exact htrackers.symm

/-- **How a torrent is finished.** The tracker is told that the download is complete, once. -/
theorem Announces.finish (h : d.Announces urls told) (hfinished : d.torrent.isFinished = true)
    {r : Bool × Download} (hr : d.finish ask now = some r) :
    r.2.torrent = d.torrent ∧ r.2.Announces urls true := by
  obtain ⟨q, hq, rfl⟩ := Option.map_eq_some_iff.1 hr
  rw [if_pos hfinished] at hq
  obtain ⟨tport, refused, first, later, final, hqueries, hprefix, hrefused, haccepted, hchain,
    hend⟩ := h
  cases told with
  | true =>
    obtain ⟨hactive, hfinal⟩ := hend
    rw [hactive]
    exact ⟨rfl, tport, refused, first, later, final, hqueries, hprefix, hrefused, haccepted, hchain,
      rfl, hfinal⟩
  | false =>
    obtain ⟨rfl, last, -, hactive⟩ := hend
    rw [hactive]
    refine ⟨rfl, tport, refused, first, later, [⟨first.tracker, q, now, ask d.queries.length⟩], ?_,
      hprefix, hrefused, haccepted, hchain, rfl, _, rfl, rfl, event_of_makeTrackerQuery hq⟩
    simp [finishTrackers, query, hqueries]

/-- All these queries go to one tracker. -/
theorem tracker_eq_of_isChain {first : Query} {later : List Query}
    (h : List.IsChain Follows (first :: later)) :
    ∀ q ∈ first :: later, q.tracker = first.tracker := by
  induction later generalizing first with
  | nil => simp
  | cons next later ih =>
    obtain ⟨⟨htracker, -⟩, hchain⟩ := List.isChain_cons_cons.1 h
    intro q hq
    rcases List.mem_cons.1 hq with rfl | hq
    · rfl
    · exact (ih hchain q hq).trans htracker

/-- A request is not sent before it is due, if the clock gets there. -/
theorem due_le {asked : Asked} {sent : ℕ} (h : asked.timeToNextRequest ≤ sent)
    (hdue : asked.due < 2 ^ 63) : asked.due ≤ sent := by
  rw [Asked.timeToNextRequest, toInt64_of_lt hdue] at h
  exact_mod_cast h

/-- **How a tracker is asked again.** It has an event of `None`, and its time is up. -/
theorem Announces.checkTrackers (h : d.Announces urls told) {r : Bool × Download}
    (hr : d.checkTrackers ask now = some r) :
    r.2.torrent = d.torrent ∧ r.2.Announces urls told := by
  obtain ⟨d', hd', rfl⟩ := Option.map_eq_some_iff.1 hr
  obtain ⟨tport, refused, first, later, final, hqueries, hprefix, hrefused, haccepted, hchain,
    hend⟩ := h
  cases told with
  | true =>
    obtain ⟨hactive, hfinal⟩ := hend
    rw [hactive] at hd'
    cases hd'
    exact ⟨rfl, tport, refused, first, later, final, hqueries, hprefix, hrefused, haccepted, hchain,
      rfl, hfinal⟩
  | false =>
    obtain ⟨rfl, last, hlast, hactive⟩ := hend
    rw [hactive, checkLoop] at hd'
    split_ifs at hd' with htime
    · obtain ⟨q, hq, hd'⟩ := Option.bind_eq_some_iff.1 hd'
      cases hd'
      have htime := of_decide_eq_true htime
      refine ⟨rfl, tport, refused, first,
        later ++ [⟨first.tracker, q, now, ask d.queries.length⟩], [], by simp [query, hqueries],
        hprefix, hrefused, haccepted, ?_, rfl, _, by rw [← List.cons_append, List.getLast?_concat],
        rfl⟩
      rw [← List.cons_append, List.isChain_append]
      refine ⟨hchain, List.isChain_singleton _, fun a ha b hb => ?_⟩
      cases hb
      cases hlast.symm.trans ha
      refine ⟨?_, event_of_makeTrackerQuery hq, htime, due_le htime⟩
      exact (tracker_eq_of_isChain hchain _ (List.mem_of_getLast? hlast)).symm
    · cases hd'
      exact ⟨rfl, tport, refused, first, later, [], hqueries, hprefix, hrefused, haccepted, hchain,
        rfl, last, hlast, rfl⟩

end Announces

end Download

end CTorrent
