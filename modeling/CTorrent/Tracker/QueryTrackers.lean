import CTorrent.Lib.Cut
import CTorrent.Meta.TorrentMeta
import CTorrent.Util.ParseUrl

/-!
# `Torrent::queryTrackers`: one tracker after the other

`queryTrackers` asks the main tracker and then those of the announce list, until a query succeeds.
Whether it does is up to `answers`, for each URL. The elements of the announce list are values as
decoded. Of one that is a string the code passes a pointer to `Bencode::cast`, which makes another
`boost::any` of it that holds the pointer: the cast yields the empty string.

* `Tracker`; `Querier`: the trackers in use and, for the proofs, the URLs that were tried;
* `queryTracker`, `queryVector`, `queryElements`, `queryTrackers`;
* `tryAll_spec`: the URLs of a list in turn, up to the first success;
* `FallsBack`: what `queryTrackers` should do; `queryTrackers_fallsBack_iff`: when it does.
-/

namespace CTorrent

/-- `TrackerType`. -/
inductive TrackerType where
  | http
  | udp
  deriving DecidableEq

/-- `Tracker`, without the time of its next request. -/
structure Tracker where
  type : TrackerType
  tport : UInt16
  host : Bytes
  port : Bytes
  deriving DecidableEq

/-- The constructor. -/
def Tracker.new (host port proto : Bytes) (tport : UInt16) : Tracker :=
  { type := if proto = key "http" then .http else .udp, tport := tport, host := host, port := port }

/-- `m_activeTrackers`, and the URLs that `queryTracker` was called with. -/
structure Querier where
  activeTrackers : List Tracker := []
  tried : List Bytes := []
  deriving DecidableEq

/-- `boost::any(value)` for a pointer to a `boost::any`: nothing that a cast asks for. -/
def Any.ofPointer (_ : Any) : Any := .empty

/-- A URL as decoded, or a list of them. -/
inductive Announces where
  | url (s : Bytes)
  | urls (l : List Bytes)

/-- The decoded value. -/
def Announces.toAny : Announces → Any
  | .url s => .string s
  | .urls l => .vector (l.map .string)

/-- The URLs in it. -/
def Announces.listed : Announces → List Bytes
  | .url s => [s]
  | .urls l => l

namespace Querier

variable (answers : Bytes → Bool) (tport : UInt16)

/-- `queryTracker`. -/
def queryTracker (s : Querier) (furl : Bytes) : Bool × Querier :=
  let s := { s with tried := s.tried ++ [furl] }
  let url := parseUrl furl
  if url.hostname = [] then (false, s)
  else
    let tracker := Tracker.new url.hostname url.servname url.protocol tport
    if !answers furl then (false, s)
    else (true, { s with activeTrackers := s.activeTrackers ++ [tracker] })

/-- The loop over a list in the announce list. -/
def queryVector : VectorType → Querier → Bool × Querier
  | [], s => (false, s)
  | announce :: v, s =>
      let r := queryTracker answers tport s (castString announce)
      if r.1 then r else queryVector v r.2

/-- The loop over the announce list. -/
def queryElements : VectorType → Querier → Bool × Querier
  | [], s => (false, s)
  | .vector v :: es, s =>
      let r := queryVector answers tport v s
      if r.1 then r else queryElements es r.2
  | .string x :: es, s =>
      let r := queryTracker answers tport s (castString (Any.ofPointer (.string x)))
      if r.1 then r else queryElements es r.2
  | _ :: es, s => queryElements es s

/-- `queryTrackers`. -/
def queryTrackers (m : TorrentMeta) (s : Querier) : Bool × Querier :=
  let r := queryTracker answers tport s m.mainTracker
  if r.1 then r else queryElements answers tport m.trackers r.2

/-- The URL has a host, and the query of its tracker succeeds. -/
def Succeeds (url : Bytes) : Bool := decide ((parseUrl url).hostname ≠ []) && answers url

/-- The tracker of a URL. -/
def trackerOf (url : Bytes) : Tracker :=
  Tracker.new (parseUrl url).hostname (parseUrl url).servname (parseUrl url).protocol tport

/-- The URLs are tried in order up to the first one that succeeds, whose tracker is added. -/
structure FallsBack (urls : List Bytes) (s : Querier) (r : Bool × Querier) : Prop where
  tried : r.2.tried = s.tried ++ Cut.upTo (Succeeds answers) urls
  success : r.1 = true ↔ ∃ url ∈ urls, Succeeds answers url = true
  activeTrackers : r.2.activeTrackers =
    s.activeTrackers ++ (urls.find? (Succeeds answers)).toList.map (trackerOf tport)

/-! ### The URLs that are passed -/

/-- One URL after the other. -/
def tryAll : List Bytes → Querier → Bool × Querier
  | [], s => (false, s)
  | url :: urls, s =>
      let r := queryTracker answers tport s url
      if r.1 then r else tryAll urls r.2

/-- The URLs that the code takes from an element. -/
def passed : Any → List Bytes
  | .vector v => v.map castString
  | .string x => [castString (Any.ofPointer (.string x))]
  | _ => []

variable {answers tport}

theorem queryTracker_eq (s : Querier) (url : Bytes) :
    queryTracker answers tport s url = (Succeeds answers url,
      { activeTrackers := s.activeTrackers ++
          if Succeeds answers url then [trackerOf tport url] else []
        tried := s.tried ++ [url] }) := by
  rw [queryTracker, Succeeds]
  by_cases hhost : (parseUrl url).hostname = []
  · simp [hhost]
  · cases hanswer : answers url with
    | true => simp [hhost, trackerOf]
    | false => simp [hhost]

theorem tryAll_append (urls urls' : List Bytes) (s : Querier) :
    tryAll answers tport (urls ++ urls') s =
      if (tryAll answers tport urls s).1 then tryAll answers tport urls s
      else tryAll answers tport urls' (tryAll answers tport urls s).2 := by
  induction urls generalizing s with
  | nil => rfl
  | cons url urls ih =>
    rw [List.cons_append, tryAll, tryAll]
    by_cases hs : (queryTracker answers tport s url).1 = true
    · simp only [if_pos hs]
    · simp only [if_neg hs, ih]

theorem queryVector_eq (v : VectorType) (s : Querier) :
    queryVector answers tport v s = tryAll answers tport (v.map castString) s := by
  induction v generalizing s with
  | nil => rfl
  | cons announce v ih =>
    rw [queryVector, List.map_cons, tryAll]
    simp only [ih]

/-- What is taken from the elements is tried one after the other. -/
theorem queryElements_eq (es : VectorType) (s : Querier) :
    queryElements answers tport es s = tryAll answers tport (es.flatMap passed) s := by
  induction es generalizing s with
  | nil => rfl
  | cons e es ih =>
    rw [List.flatMap_cons, tryAll_append]
    cases e with
    | vector v =>
      simp only [queryElements, passed, queryVector_eq, ih]
      rfl
    | string x =>
      simp only [queryElements, passed, tryAll, ih]
      split_ifs <;> simp_all
    | _ => simp [queryElements, passed, tryAll, ih]

theorem queryTrackers_eq (m : TorrentMeta) (s : Querier) :
    queryTrackers answers tport m s =
      tryAll answers tport (m.mainTracker :: m.trackers.flatMap passed) s := by
  rw [queryTrackers, tryAll]
  simp only [queryElements_eq]

/-- **One after the other.** A list of URLs is tried up to the first success. -/
theorem tryAll_spec (urls : List Bytes) (s : Querier) :
    FallsBack answers tport urls s (tryAll answers tport urls s) := by
  induction urls generalizing s with
  | nil => exact ⟨by simp [tryAll, Cut.upTo], by simp [tryAll], by simp [tryAll]⟩
  | cons url urls ih =>
    by_cases hs : Succeeds answers url = true
    · have hfirst : tryAll answers tport (url :: urls) s = queryTracker answers tport s url := by
        rw [tryAll, queryTracker_eq]
        simp [hs]
      rw [hfirst, queryTracker_eq]
      exact ⟨by simp [Cut.upTo, hs], by simp [hs], by simp [hs]⟩
    · rw [Bool.not_eq_true] at hs
      have hnext : tryAll answers tport (url :: urls) s =
          tryAll answers tport urls { s with tried := s.tried ++ [url] } := by
        rw [tryAll, queryTracker_eq]
        simp [hs]
      obtain ⟨htried, hsuccess, hactive⟩ := ih { s with tried := s.tried ++ [url] }
      rw [hnext]
      refine ⟨?_, ?_, ?_⟩
      · rw [htried, Cut.upTo_cons_of_neg hs, List.append_assoc, List.singleton_append]
      · rw [hsuccess]
        simp [hs]
      · rw [hactive, List.find?_cons_of_neg (by simp [hs])]

/-- Nothing behind the first success matters. -/
theorem FallsBack.congr {urls urls' : List Bytes} {s : Querier} {r : Bool × Querier}
    (h : FallsBack answers tport urls s r)
    (hupTo : Cut.upTo (Succeeds answers) urls = Cut.upTo (Succeeds answers) urls') :
    FallsBack answers tport urls' s r := by
  have hfind : urls.find? (Succeeds answers) = urls'.find? (Succeeds answers) := by
    rw [← Cut.find?_upTo, hupTo, Cut.find?_upTo]
  refine ⟨hupTo ▸ h.tried, ?_, hfind ▸ h.activeTrackers⟩
  rw [h.success, ← List.find?_isSome, hfind, List.find?_isSome]

/-! ### When a string is reached -/

/-- The empty string that is passed for a string is never queried. -/
theorem succeeds_nil : Succeeds answers [] = false := by
  have hhost : (parseUrl []).hostname = [] := by decide
  simp [Succeeds, hhost]

/-- The same URLs are tried up to the first success, if and only if no string but the empty one
stands before it. -/
theorem upTo_passed_iff (list : List Announces) :
    Cut.upTo (Succeeds answers) ((list.map Announces.toAny).flatMap passed) =
        Cut.upTo (Succeeds answers) (list.flatMap Announces.listed) ↔
      ∀ pre e post, list = pre ++ e :: post → ∀ url, e = .url url → url ≠ [] →
        ∃ u ∈ pre.flatMap Announces.listed, Succeeds answers u = true := by
  induction list with
  | nil => simp
  | cons e list ih =>
    rw [Cut.forall_split_cons (P := fun pre e => ∀ url, e = .url url → url ≠ [] →
      ∃ u ∈ pre.flatMap Announces.listed, Succeeds answers u = true), List.map_cons,
      List.flatMap_cons, List.flatMap_cons]
    simp only [List.flatMap_cons, List.mem_append, or_and_right, exists_or]
    cases e with
    | urls l =>
      have hcast : passed (Announces.urls l).toAny = (Announces.urls l).listed := by
        simp [passed, Announces.toAny, Announces.listed, castString, Function.comp_def]
      rw [hcast, Cut.upTo_append_eq_iff, ih]
      by_cases hl : ∃ u ∈ (Announces.urls l).listed, Succeeds answers u = true
      · simp [hl]
      · simp [hl]
    | url s =>
      have hpassed : passed (Announces.url s).toAny = [[]] := rfl
      have hlisted : (Announces.url s).listed = [s] := rfl
      rw [hpassed, hlisted, List.singleton_append, List.singleton_append,
        Cut.upTo_cons_of_neg succeeds_nil]
      by_cases hs : s = []
      · subst hs
        rw [Cut.upTo_cons_of_neg succeeds_nil, List.cons.injEq, and_iff_right rfl, ih]
        simp [succeeds_nil]
      · -- the empty string stands where `s` should
        refine iff_of_false (fun heq => ?_) fun h => ?_
        · rw [Cut.upTo] at heq
          split_ifs at heq <;> exact hs (List.cons.inj heq).1.symm
        · obtain ⟨u, hu, -⟩ := h.1 s rfl hs
          cases hu

/-- **Falling back.** The URLs of the announce list are tried in order up to the first success, if
and only if each string in it but the empty one stands behind a URL that succeeds. -/
theorem queryTrackers_fallsBack_iff (answers : Bytes → Bool) (tport : UInt16) (m : TorrentMeta)
    (list : List Announces) (s : Querier) :
    FallsBack answers tport (m.mainTracker :: list.flatMap Announces.listed) s
        (queryTrackers answers tport { m with trackers := list.map Announces.toAny } s) ↔
      ∀ pre url post, list = pre ++ .url url :: post → url ≠ [] →
        ∃ u ∈ m.mainTracker :: pre.flatMap Announces.listed, Succeeds answers u = true := by
  -- the main tracker is an announce list of its own before the list
  have hupTo := @upTo_passed_iff answers (.urls [m.mainTracker] :: list)
  rw [Cut.forall_split_cons (P := fun pre e => ∀ url, e = .url url → url ≠ [] →
    ∃ u ∈ pre.flatMap Announces.listed, Succeeds answers u = true)] at hupTo
  have hmain : passed (Announces.urls [m.mainTracker]).toAny = [m.mainTracker] := rfl
  have hlisted : (Announces.urls [m.mainTracker]).listed = [m.mainTracker] := rfl
  rw [List.map_cons, List.flatMap_cons, List.flatMap_cons, hmain, hlisted,
    List.singleton_append, List.singleton_append] at hupTo
  rw [queryTrackers_eq]
  have hspec := @tryAll_spec answers tport
    (m.mainTracker :: (list.map Announces.toAny).flatMap passed) s
  constructor
  · intro h pre url post hlist hne
    have htried := h.tried.symm.trans hspec.tried
    rw [List.append_cancel_left_eq] at htried
    obtain ⟨-, hall⟩ := hupTo.1 htried.symm
    simpa [hlisted] using hall pre _ post hlist url rfl hne
  · intro h
    refine hspec.congr (hupTo.2 ⟨fun url he => ?_, fun pre e post hlist url he hne => ?_⟩)
    · cases he
    · subst he
      simpa [hlisted] using h pre url post hlist hne

/-- The tracker of a plain string in the announce list works, and is not asked. -/
theorem not_fallsBack_plainString :
    ¬ FallsBack (fun url => url = key "http://b") 6881
        (key "http://a" :: [Announces.url (key "http://b")].flatMap Announces.listed) {}
        (queryTrackers (fun url => url = key "http://b") 6881
          { checkSum := fun _ => 0
            mainTracker := key "http://a"
            trackers := [Announces.url (key "http://b")].map Announces.toAny } {}) := by
  intro h
  have hfalse : (queryTrackers (fun url => url = key "http://b") 6881
      { checkSum := fun _ => 0
        mainTracker := key "http://a"
        trackers := [Announces.url (key "http://b")].map Announces.toAny } {}).1 = false := by
    decide +kernel
  have hsucceeds : Succeeds (fun url => url = key "http://b") (key "http://b") = true := by
    decide +kernel
  have htrue := h.success.2 ⟨key "http://b", by simp [Announces.listed], hsucceeds⟩
  rw [hfalse] at htrue
  cases htrue

end Querier

end CTorrent
