import CTorrent.Lib.Path
import CTorrent.Meta.Coherent

/-!
# `TorrentFileManager::registerFiles`: the paths of the files

`registerFiles` joins the base directory and the path of each file, tests the directory part with
`validatePath` unless the path has no separator, and opens the file. The names are passed on as C
strings. Whether a file is there and whether it can be opened is up to the file system; root names
of the form `//host` are not told from other names.

* `validatePath`, `registerFile`, `registerFiles`;
* `Admitted`, `Contained`: which paths come to be opened, and which of them stay inside;
* `files_registerFiles`: what is pushed on success;
* `validatePath_append`: what the test lets through;
* `registerFiles_contained_iff`: the lists of files that stay inside.
-/

namespace CTorrent

open Path

/-- `validatePath`: the two paths have the same parent. -/
def validatePath (base path : Bytes) : Bool := parentElements path == parentElements base

/-- The bytes of `s.c_str()` up to the first NUL. -/
def cString (s : Bytes) : Bytes := s.takeWhile (· ≠ 0)

/-- The answers of the file system while the `k`-th file is registered. A directory is not opened
for writing. -/
structure FileSystem where
  nodeExists : ℕ → Bytes → Bool
  /-- `fopen(path, "wb")` succeeds. -/
  touch : ℕ → Bytes → Bool
  /-- `fopen(path, "rb+")` succeeds. -/
  open_ : ℕ → Bytes → Bool
  touch_directory : ∀ k path, NamesDirectory path → touch k path = false
  open_directory : ∀ k path, NamesDirectory path → open_ k path = false

/-- What `registerFiles` returns, the paths of the files it has created or opened, and the files
it has pushed. -/
structure Registered where
  success : Bool
  opened : List Bytes
  files : List TorrentFileInfo

/-- The pass of `registerFiles` for one file. -/
def registerFile (fs : FileSystem) (k : ℕ) (baseDir : Bytes) (inf : TorrentFileInfo) :
    Registered :=
  let filePath := upToLast inf.path
  let fullPath := cString (baseDir ++ inf.path)
  if inf.path ≠ filePath ∧ validatePath baseDir (baseDir ++ filePath) = false then ⟨false, [], []⟩
  else
    let isThere := fs.nodeExists k fullPath
    if !isThere && !fs.touch k fullPath then ⟨false, [], []⟩
    else
      let created := if isThere then [] else [fullPath]
      if fs.open_ k fullPath then ⟨true, created ++ [fullPath], [inf]⟩
      else ⟨false, created, []⟩

/-- The loop of `registerFiles`, with the number of files that are registered already. -/
def registerFiles (fs : FileSystem) (baseDir : Bytes) : ℕ → List TorrentFileInfo → Registered
  | _, [] => ⟨true, [], []⟩
  | k, inf :: files =>
    let r := registerFile fs k baseDir inf
    if r.success then
      let rest := registerFiles fs baseDir (k + 1) files
      ⟨rest.success, r.opened ++ rest.opened, r.files ++ rest.files⟩
    else r

/-- The path passes the test, and does not lead to a directory by its name. -/
def Admitted (baseDir path : Bytes) : Prop :=
  (path ≠ upToLast path → validatePath baseDir (baseDir ++ upToLast path) = true) ∧
    ¬NamesDirectory (cString (baseDir ++ path))

/-- The base directory is a C string, and the part of the path before its last separator is not
the name `..`, unless the base directory is the root. -/
def Contained (baseDir path : Bytes) : Prop :=
  0 ∉ baseDir ∧ (names (upToLast path) = [dotdot] → resolve baseDir = [] ∧ isAbsolute baseDir = true)

/-! ### C strings -/

theorem cString_of_not_mem {s : Bytes} (h : 0 ∉ s) : cString s = s :=
  Cut.takeWhile_ne_of_notMem h

theorem cString_append {s : Bytes} (h : 0 ∉ s) (t : Bytes) :
    cString (s ++ t) = s ++ cString t :=
  Cut.takeWhile_ne_append h t

theorem cString_append_of_mem {s : Bytes} (h : 0 ∈ s) (t : Bytes) :
    cString (s ++ t) = cString s := by
  obtain ⟨u, v, rfl, hu⟩ := List.eq_append_cons_of_mem h
  rw [List.append_assoc, cString_append hu, cString_append hu]
  rfl

/-- What is cut off begins with a NUL. -/
theorem cString_cases (s : Bytes) : cString s = s ∨ ∃ t, s = cString s ++ 0 :: t := by
  by_cases h : 0 ∈ s
  · obtain ⟨u, v, rfl, hu⟩ := List.eq_append_cons_of_mem h
    refine Or.inr ⟨v, ?_⟩
    rw [cString_append hu]
    simp [cString]
  · exact Or.inl (cString_of_not_mem h)

/-! ### What the test lets through -/

/-- Behind a directory, at most one name passes, without a separator at its end. -/
theorem validatePath_append {base d : Bytes}
    (h : validatePath (base ++ [sep]) (base ++ [sep] ++ d) = true) :
    names d = [] ∨ ∃ x, names d = [x] ∧ d.getLast? ≠ some sep := by
  have hlen := congrArg List.length (beq_iff_eq.1 h)
  have hbase : names (base ++ [sep]) = names base := by
    rw [names_append_sep, names_nil, List.append_nil]
  have hpath : names (base ++ [sep] ++ d) = names base ++ names d := by
    rw [List.append_assoc, List.singleton_append, names_append_sep]
  rw [parentElements, parentElements, List.length_dropLast, List.length_dropLast, length_elements,
    length_elements, hbase, hpath, isAbsolute_append (by simp), List.length_append] at hlen
  rcases hd : names d with _ | ⟨x, ns⟩
  · exact Or.inl rfl
  · have hne : d ≠ [] := by
      rintro rfl
      rw [names_nil] at hd
      cases hd
    rw [hd, List.length_cons, List.getLast?_append_of_ne_nil _ hne] at hlen
    have hdot : (if names base ≠ [] ∧ (base ++ [sep]).getLast? = some sep then 1 else 0) ≤ 1 := by
      split_ifs <;> omega
    by_cases hend : d.getLast? = some sep
    · rw [if_pos (⟨by simp, hend⟩ : names base ++ x :: ns ≠ [] ∧ _)] at hlen
      omega
    · rw [if_neg (fun hc : _ ∧ _ => hend hc.2)] at hlen
      have hns : ns = [] := List.length_eq_zero_iff.1 (by omega)
      exact Or.inr ⟨x, by rw [hns], hend⟩

/-! ### The names of an opened path -/

section Names

variable {base path : Bytes}

theorem names_ne_of_nul {d : Bytes} (h : 0 ∈ d) : names d ≠ [dotdot] := by
  intro hd
  obtain ⟨n, hn, h0⟩ := exists_name h (by decide)
  rw [hd, List.mem_singleton] at hn
  rw [hn] at h0
  exact absurd h0 (by decide)

/-- A separator behind a NUL leaves the NUL in the directory part. -/
theorem upToLast_nul (c : Bytes) {t : Bytes} (ht : sep ∈ t) :
    ∃ d, upToLast (c ++ 0 :: t) = c ++ 0 :: d := by
  obtain ⟨d, l, rfl, hl⟩ := exists_append_sep ht
  refine ⟨d, ?_⟩
  rw [← List.cons_append, ← List.append_assoc, upToLast_append_sep hl]

theorem upToLast_ne (h : sep ∈ path) : path ≠ upToLast path := by
  obtain ⟨d, l, rfl, hl⟩ := exists_append_sep h
  rw [upToLast_append_sep hl]
  intro hc
  have hlen := congrArg List.length hc
  rw [List.length_append, List.length_cons] at hlen
  omega

/-- The names of an admitted path, as the C string has them: a proper one, and before it either
nothing or the one name of the directory part. -/
theorem Admitted.names_cString (h : Admitted (base ++ [sep]) path) (h0 : 0 ∉ base ++ [sep]) :
    ∃ m l, names (cString path) = m ++ [l] ∧ Proper l ∧
      (m = [] ∧ names (upToLast path) ≠ [dotdot] ∨
        ∃ x, m = [x] ∧ names (upToLast path) = [x]) := by
  obtain ⟨hval, hdir⟩ := h
  rw [cString_append h0, List.append_assoc, List.singleton_append] at hdir
  by_cases hsep : sep ∈ cString path
  · obtain ⟨e, l, hc, hl⟩ := exists_append_sep hsep
    have hproper : Proper l := by
      have hp := proper_baseName hdir
      rwa [hc, ← List.cons_append, ← List.append_assoc, baseName_append_sep hl] at hp
    have hnames : names (cString path) = names e ++ [l] := by
      rw [hc, names_append_sep, names_of_not_mem hl hproper.1]
    -- the directory part is `e`, or goes on behind a NUL
    have hpath : upToLast path = e ∨
        ∃ d, upToLast path = e ++ sep :: (l ++ 0 :: d) := by
      rcases cString_cases path with heq | ⟨t, ht⟩
      · rw [← heq, hc]
        exact Or.inl (upToLast_append_sep hl)
      · rw [hc] at ht
        by_cases hst : sep ∈ t
        · obtain ⟨d, hd⟩ := upToLast_nul (e ++ sep :: l) hst
          exact Or.inr ⟨d, by rw [ht, hd, List.append_assoc, List.cons_append]⟩
        · rw [ht, List.append_assoc, List.cons_append]
          refine Or.inl (upToLast_append_sep ?_)
          simp only [List.mem_append, List.mem_cons, not_or]
          exact ⟨hl, by decide, hst⟩
    have hmem : sep ∈ path := (List.takeWhile_subset _) hsep
    have hone := validatePath_append (hval (upToLast_ne hmem))
    refine ⟨names e, l, hnames, hproper, ?_⟩
    rcases hpath with hup | ⟨d, hup⟩
    · rw [hup] at hone ⊢
      rcases hone with hnil | ⟨x, hx, -⟩
      · exact Or.inl ⟨hnil, by simp [hnil]⟩
      · exact Or.inr ⟨x, hx, hx⟩
    · have hnul : names (upToLast path) ≠ [dotdot] := names_ne_of_nul (by rw [hup]; simp)
      refine Or.inl ⟨?_, hnul⟩
      obtain ⟨n, hn, -⟩ := exists_name (p := l ++ 0 :: d) (b := 0) (by simp) (by decide)
      have hpos := List.length_pos_of_mem hn
      rw [hup, names_append_sep] at hone
      rcases hone with hnil | ⟨x, hx, -⟩
      · exact (List.append_eq_nil_iff.1 hnil).1
      · have hlen := congrArg List.length hx
        rw [List.length_append, List.length_singleton] at hlen
        exact List.length_eq_zero_iff.1 (by omega)
  · have hproper : Proper (cString path) := by
      have hp := proper_baseName hdir
      rwa [baseName_append_sep hsep] at hp
    refine ⟨[], cString path, names_of_not_mem hsep hproper.1, hproper, Or.inl ⟨rfl, ?_⟩⟩
    rcases cString_cases path with heq | ⟨t, ht⟩
    · rw [heq] at hsep hproper
      rw [upToLast, if_neg hsep, names_of_not_mem hsep hproper.1, Ne, List.cons.injEq]
      exact fun hc => hproper.2.2 hc.1
    · by_cases hst : sep ∈ t
      · obtain ⟨d, hd⟩ := upToLast_nul (cString path) hst
        rw [ht, hd]
        exact names_ne_of_nul (by simp)
      · have hmem : sep ∉ path := by
          rw [ht]
          simp only [List.mem_append, List.mem_cons, not_or]
          exact ⟨hsep, by decide, hst⟩
        rw [upToLast, if_neg hmem, ht]
        exact names_ne_of_nul (by simp)

/-- Where an admitted path leads. -/
theorem Admitted.strictlyUnder_iff (h : Admitted (base ++ [sep]) path) :
    StrictlyUnder (cString (base ++ [sep])) (cString (base ++ [sep] ++ path)) ↔
      Contained (base ++ [sep]) path := by
  by_cases h0 : 0 ∈ base ++ [sep]
  · rw [cString_append_of_mem h0]
    refine iff_of_false ?_ (fun hc => hc.1 h0)
    rintro ⟨-, rest, hrest, -, heq⟩
    exact hrest (List.self_eq_append_right.1 heq)
  · obtain ⟨m, l, hnames, hproper, hm⟩ := h.names_cString h0
    have habs : isAbsolute (base ++ [sep] ++ cString path) = isAbsolute (base ++ [sep]) :=
      isAbsolute_append (by simp)
    have hresolve : resolve (base ++ [sep] ++ cString path) =
        m.foldl (enter (isAbsolute (base ++ [sep]))) (resolve (base ++ [sep])) ++ [l] := by
      have hb : names (base ++ [sep]) = names base := by
        rw [names_append_sep, names_nil, List.append_nil]
      rw [resolve, resolve, habs, hb, List.append_assoc, List.singleton_append, names_append_sep,
        hnames, List.foldl_append, List.foldl_append, List.foldl_cons, List.foldl_nil,
        enter_proper hproper]
    rw [cString_append h0, cString_of_not_mem h0, StrictlyUnder, and_iff_right habs, hresolve,
      Contained, and_iff_right h0]
    rcases hm with ⟨rfl, hne⟩ | ⟨x, rfl, hx⟩
    · refine iff_of_true ⟨[l], by simp, ?_, rfl⟩ (fun hc => absurd hc hne)
      simpa using hproper.2.2.symm
    · rw [hx, List.foldl_cons, List.foldl_nil,
        enter_append_iff hproper (ne_nil_of_mem_names (hx ▸ List.mem_singleton_self x)),
        List.cons.injEq, and_iff_left rfl]

end Names

/-! ### The files that are reached -/

section Run

variable {fs : FileSystem} {base p : Bytes} {k : ℕ} {inf : TorrentFileInfo}
  {files : List TorrentFileInfo}

/-- A pass succeeds or opens something only with an admitted path. -/
theorem registerFile_cases (fs : FileSystem) (k : ℕ) (base : Bytes) (inf : TorrentFileInfo) :
    (registerFile fs k base inf).success = false ∧ (registerFile fs k base inf).opened = [] ∨
      Admitted base inf.path ∧
        ∀ p ∈ (registerFile fs k base inf).opened, p = cString (base ++ inf.path) := by
  by_cases hdir : NamesDirectory (cString (base ++ inf.path))
  · refine Or.inl ?_
    rw [registerFile, fs.touch_directory k _ hdir, fs.open_directory k _ hdir]
    cases fs.nodeExists k (cString (base ++ inf.path)) <;> simp
  by_cases hval : inf.path ≠ upToLast inf.path ∧
      validatePath base (base ++ upToLast inf.path) = false
  · refine Or.inl ?_
    rw [registerFile]
    simp only [if_pos hval, and_self]
  · refine Or.inr ⟨⟨fun hne => eq_true_of_ne_false fun hc => hval ⟨hne, hc⟩, hdir⟩, ?_⟩
    rw [registerFile]
    simp only [if_neg hval]
    split_ifs <;> simp

/-- The admitted prefix behind each path that is opened. -/
theorem mem_opened_registerFiles (h : p ∈ (registerFiles fs base k files).opened) :
    ∃ pre f post, files = pre ++ f :: post ∧ (∀ g ∈ pre, Admitted base g.path) ∧
      Admitted base f.path ∧ p = cString (base ++ f.path) := by
  induction files generalizing k with
  | nil => cases h
  | cons f files ih =>
    rw [registerFiles] at h
    rcases registerFile_cases fs k base f with ⟨hfail, hnone⟩ | ⟨hadm, hall⟩
    · simp [hfail, hnone] at h
    · by_cases hmem : p ∈ (registerFile fs k base f).opened
      · exact ⟨[], f, files, rfl, by simp, hadm, hall p hmem⟩
      · have hrest : p ∈ (registerFiles fs base (k + 1) files).opened := by
          dsimp only at h
          split_ifs at h
          · exact (List.mem_append.1 h).resolve_left hmem
          · exact absurd h hmem
        obtain ⟨pre, f', post, rfl, hpre, hadm', rfl⟩ := ih hrest
        exact ⟨f :: pre, f', post, rfl, List.forall_mem_cons.2 ⟨hadm, hpre⟩, hadm', rfl⟩

/-- An empty file system in which everything can be created. -/
def emptyDisk : FileSystem where
  nodeExists _ _ := false
  touch _ path := decide (¬NamesDirectory path)
  open_ _ path := decide (¬NamesDirectory path)
  touch_directory _ _ h := decide_eq_false (not_not_intro h)
  open_directory _ _ h := decide_eq_false (not_not_intro h)

theorem registerFile_emptyDisk (h : Admitted base inf.path) :
    registerFile emptyDisk k base inf =
      ⟨true, [cString (base ++ inf.path), cString (base ++ inf.path)], [inf]⟩ := by
  have hval : ¬(inf.path ≠ upToLast inf.path ∧
      validatePath base (base ++ upToLast inf.path) = false) := by
    rintro ⟨hne, hc⟩
    exact Bool.false_ne_true (hc.symm.trans (h.1 hne))
  rw [registerFile]
  simp [if_neg hval, emptyDisk, h.2]

/-- Behind an admitted prefix, an admitted path is opened. -/
theorem mem_opened_emptyDisk {pre post : List TorrentFileInfo}
    (hpre : ∀ g ∈ pre, Admitted base g.path) (h : Admitted base inf.path) :
    cString (base ++ inf.path) ∈
      (registerFiles emptyDisk base k (pre ++ inf :: post)).opened := by
  induction pre generalizing k with
  | nil =>
    rw [List.nil_append, registerFiles, registerFile_emptyDisk h]
    simp
  | cons g pre ih =>
    obtain ⟨hg, hpre⟩ := List.forall_mem_cons.1 hpre
    rw [List.cons_append, registerFiles, registerFile_emptyDisk hg]
    exact List.mem_append_right _ (ih hpre)

end Run

/-- **Downloads inside the directory.** Whatever the file system answers, `registerFiles` creates
and opens only files strictly under the base directory, exactly if each file that is admitted
behind admitted ones has a contained path. -/
theorem registerFiles_contained_iff {baseDir : Bytes} (hsep : baseDir.getLast? = some sep)
    (files : List TorrentFileInfo) :
    (∀ fs : FileSystem, ∀ path ∈ (registerFiles fs baseDir 0 files).opened,
        StrictlyUnder (cString baseDir) path) ↔
      ∀ pre f post, files = pre ++ f :: post → (∀ g ∈ pre, Admitted baseDir g.path) →
        Admitted baseDir f.path → Contained baseDir f.path := by
  obtain ⟨base, rfl⟩ := List.getLast?_eq_some_iff.1 hsep
  constructor
  · rintro h pre f post rfl hpre hf
    exact hf.strictlyUnder_iff.1 (h emptyDisk _ (mem_opened_emptyDisk hpre hf))
  · intro h fs path hpath
    obtain ⟨pre, f, post, hfiles, hpre, hf, rfl⟩ := mem_opened_registerFiles hpath
    exact hf.strictlyUnder_iff.2 (h pre f post hfiles hpre hf)

/-- A file in a directory of its own. -/
def oneFile : List TorrentFileInfo := [⟨key "n/f", 0, 0, 4⟩]

theorem registerFiles_contained_iff_oneFile :
    (∀ fs : FileSystem, ∀ path ∈ (registerFiles fs (key "d/") 0 oneFile).opened,
        StrictlyUnder (cString (key "d/")) path) ↔
      ∀ pre f post, oneFile = pre ++ f :: post → (∀ g ∈ pre, Admitted (key "d/") g.path) →
        Admitted (key "d/") f.path → Contained (key "d/") f.path :=
  registerFiles_contained_iff (by decide +kernel) oneFile

/-- Metainfo for a file with the name `../x`. -/
def parentName : Bytes :=
  key "d8:announce0:4:infod6:lengthi4e4:name4:../x12:piece lengthi4e6:pieces20:aaaaaaaaaaaaaaaaaaaaee"

/-- The file `../x` is registered, and lies beside the base directory. -/
theorem not_contained_parentName :
    ∃ r pos, TorrentMeta.parseZero parentName = .ok r pos ∧ r.success = true ∧
      ∃ path ∈ (registerFiles emptyDisk (key "d/") 0 r.torrent.files).opened,
        ¬StrictlyUnder (cString (key "d/")) path := by
  have haccepts : TorrentMeta.accepts (fun m =>
      (registerFiles emptyDisk (key "d/") 0 m.files).opened.contains (key "d/../x"))
      parentName = true := by decide +kernel
  obtain ⟨r, pos, hparse, hr, hmem⟩ := TorrentMeta.exists_of_accepts haccepts
  refine ⟨r, pos, hparse, hr, key "d/../x", List.contains_iff_mem.1 hmem, ?_⟩
  rintro ⟨-, rest, -, -, heq⟩
  have hx : resolve (key "d/../x") = [key "x"] := by decide +kernel
  have hd : resolve (cString (key "d/")) = [key "d"] := by decide +kernel
  rw [hx, hd, List.singleton_append, List.cons.injEq] at heq
  exact absurd heq.1 (by decide)

end CTorrent
