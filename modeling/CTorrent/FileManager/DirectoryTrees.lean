import CTorrent.FileManager.Paths

/-!
# `registerFiles` on directory trees

The paths of the files of a torrent are joined from their components by `parseFile`. `registerFiles`
compares the parent of the directory part with the parent of the base directory, which are the same
only for one directory right under a base directory with a name.

* `TreeFile`: a file with the components of its path; `names_path`: they are its names;
* `PassesCheck`, `CallFails`, `Accepts`: files that no path check rejects;
* `validatePath_iff`: the directory parts that pass;
* `accepts_iff`: the trees that are accepted.
-/

namespace CTorrent

open Path

/-- A file whose path `parseFile` has joined from proper names. -/
structure TreeFile where
  info : TorrentFileInfo
  components : List Bytes
  components_ne_nil : components ≠ []
  proper : ∀ c ∈ components, Proper c ∧ sep ∉ c
  path_eq : info.path = TorrentMeta.joinPath (components.map .string)

/-- The path check lets the path through. -/
def PassesCheck (baseDir path : Bytes) : Prop :=
  path ≠ upToLast path → validatePath baseDir (baseDir ++ upToLast path) = true

/-- A file that is not there cannot be created, or the file cannot be opened. -/
def CallFails (fs : FileSystem) (k : ℕ) (path : Bytes) : Prop :=
  (fs.nodeExists k path = false ∧ fs.touch k path = false) ∨ fs.open_ k path = false

/-- No path check rejects a file, and `registerFiles` fails only when a file system call fails. -/
structure Accepts (baseDir : Bytes) (files : List TreeFile) : Prop where
  checks : ∀ f ∈ files, PassesCheck baseDir f.info.path
  fails : ∀ fs : FileSystem,
    (registerFiles fs baseDir 0 (files.map TreeFile.info)).success = false →
      ∃ k f, files[k]? = some f ∧ CallFails fs k (cString (baseDir ++ f.info.path))

/-! ### Joined paths -/

section Join

variable {cs : List Bytes} {c : Bytes}

theorem joinPath_concat (l : VectorType) (c : Bytes) :
    TorrentMeta.joinPath (l ++ [.string c]) =
      (if TorrentMeta.joinPath l = [] then [] else TorrentMeta.joinPath l ++ [sep]) ++ c := by
  rw [TorrentMeta.joinPath, List.foldl_append, ← TorrentMeta.joinPath]
  simp only [List.foldl_cons, List.foldl_nil, castString, List.isEmpty_iff]
  split_ifs with hnil
  · rw [hnil]
  · rfl

/-- The names of a joined path are its components, and it does not end in a separator. -/
theorem names_joinPath (h : ∀ c ∈ cs, Proper c ∧ sep ∉ c) :
    names (TorrentMeta.joinPath (cs.map .string)) = cs ∧
      (TorrentMeta.joinPath (cs.map .string)).getLast? ≠ some sep := by
  induction cs using List.reverseRecOn with
  | nil => exact ⟨rfl, by simp [TorrentMeta.joinPath]⟩
  | append_singleton cs c ih =>
    obtain ⟨hnames, hlast⟩ := ih fun c hc => h c (List.mem_append_left _ hc)
    obtain ⟨hproper, hsep⟩ := h c (by simp)
    have hend : c.getLast? ≠ some sep := fun hc => hsep (List.mem_of_getLast? hc)
    rw [List.map_append, List.map_singleton, joinPath_concat]
    by_cases hnil : TorrentMeta.joinPath (cs.map .string) = []
    · rw [if_pos hnil, List.nil_append, names_of_not_mem hsep hproper.1, ← hnames, hnil]
      exact ⟨rfl, hend⟩
    · rw [if_neg hnil, List.append_assoc, List.singleton_append, names_append_sep, hnames,
        names_of_not_mem hsep hproper.1, List.getLast?_append_of_ne_nil _ (by simp),
        List.getLast?_cons_of_ne_nil hproper.1]
      exact ⟨rfl, hend⟩

end Join

/-! ### What the check lets through -/

section Check

variable {base d : Bytes}

/-- A directory without a name is the root. -/
theorem isAbsolute_of_names_eq_nil (h : names base = []) : isAbsolute (base ++ [sep]) = true := by
  cases base with
  | nil => rfl
  | cons b base =>
    by_cases hb : b = sep
    · rw [hb]
      rfl
    · obtain ⟨n, hn, -⟩ := exists_name (p := b :: base) List.mem_cons_self hb
      rw [h] at hn
      cases hn

/-- Under a base directory, the directory part passes if it is a single name, and the base
directory has a name too. -/
theorem validatePath_iff (hd : names d ≠ []) (hend : d.getLast? ≠ some sep) :
    validatePath (base ++ [sep]) (base ++ [sep] ++ d) = true ↔
      (names d).length = 1 ∧ names base ≠ [] := by
  have hne : d ≠ [] := fun hnil => hd (by rw [hnil, names_nil])
  have hnames : names (base ++ [sep]) = names base := by
    rw [names_append_sep, names_nil, List.append_nil]
  have hpath : parentElements (base ++ [sep] ++ d) =
      (if isAbsolute (base ++ [sep]) then [[sep]] else []) ++
        (names base ++ (names d).dropLast) := by
    have hall : names (base ++ [sep] ++ d) = names base ++ names d := by
      rw [List.append_assoc, List.singleton_append, names_append_sep]
    rw [parentElements, elements, hall, isAbsolute_append (by simp),
      List.getLast?_append_of_ne_nil _ hne, if_neg fun hc : _ ∧ _ => hend hc.2, List.append_nil,
      List.dropLast_append_of_ne_nil (by simp [hd]), List.dropLast_append_of_ne_nil hd]
  rw [validatePath, beq_iff_eq, hpath, parentElements, elements, hnames]
  by_cases hbase : names base = []
  · -- the root itself is taken for the last component of the base directory
    simp [hbase, isAbsolute_of_names_eq_nil hbase]
  · rw [if_pos (⟨hbase, by simp⟩ : _ ∧ _), List.dropLast_concat, List.append_cancel_left_eq,
      List.append_right_eq_self, and_iff_left hbase, ← List.length_eq_zero_iff,
      List.length_dropLast]
    have hpos := List.length_pos_of_ne_nil hd
    omega

/-- A file passes the check if it has no directory part, or one that passes. -/
theorem passesCheck_iff (f : TreeFile) :
    PassesCheck (base ++ [sep]) f.info.path ↔
      f.components.length = 1 ∨ f.components.length = 2 ∧ names base ≠ [] := by
  obtain ⟨cs, c, hcs⟩ := (List.eq_nil_or_concat' f.components).resolve_left f.components_ne_nil
  have hproper := f.proper
  rw [hcs] at hproper
  obtain ⟨hc, hsep⟩ := hproper c (by simp)
  obtain ⟨hnames, hend⟩ := names_joinPath fun c hc => hproper c (List.mem_append_left _ hc)
  rw [PassesCheck, f.path_eq, hcs, List.map_append, List.map_singleton, joinPath_concat,
    List.length_append, List.length_singleton]
  by_cases hnil : cs = []
  · have hup : upToLast c = c := by rw [upToLast, if_neg hsep]
    subst hnil
    simp [TorrentMeta.joinPath, hup]
  · have hjoin : TorrentMeta.joinPath (cs.map .string) ≠ [] := by
      intro hj
      rw [hj, names_nil] at hnames
      exact hnil hnames.symm
    have hup : upToLast (TorrentMeta.joinPath (cs.map .string) ++ [sep] ++ c) =
        TorrentMeta.joinPath (cs.map .string) := by
      rw [List.append_assoc, List.singleton_append, upToLast_append_sep hsep]
    have hne : TorrentMeta.joinPath (cs.map .string) ++ [sep] ++ c ≠
        upToLast (TorrentMeta.joinPath (cs.map .string) ++ [sep] ++ c) := upToLast_ne (by simp)
    have hpos := List.length_pos_of_ne_nil hnil
    rw [if_neg hjoin, imp_iff_right hne, hup, validatePath_iff (by rwa [hnames]) hend, hnames]
    constructor
    · rintro ⟨hlen, hbase⟩
      exact Or.inr ⟨by omega, hbase⟩
    · rintro (hlen | ⟨hlen, hbase⟩)
      · omega
      · exact ⟨by omega, hbase⟩

end Check

/-! ### Registering -/

section Register

variable {fs : FileSystem} {baseDir : Bytes}

/-- A file that passes the check is registered unless a call fails. -/
theorem callFails_of_registerFile {k : ℕ} {inf : TorrentFileInfo}
    (hcheck : PassesCheck baseDir inf.path)
    (h : (registerFile fs k baseDir inf).success = false) :
    CallFails fs k (cString (baseDir ++ inf.path)) := by
  have hval : ¬(inf.path ≠ upToLast inf.path ∧
      validatePath baseDir (baseDir ++ upToLast inf.path) = false) := by
    rintro ⟨hne, hfalse⟩
    rw [hcheck hne] at hfalse
    cases hfalse
  rw [registerFile] at h
  simp only [if_neg hval] at h
  by_cases htouch : (!fs.nodeExists k (cString (baseDir ++ inf.path)) &&
      !fs.touch k (cString (baseDir ++ inf.path))) = true
  · exact Or.inl (by simpa using htouch)
  · simp only [if_neg htouch] at h
    refine Or.inr (Bool.eq_false_iff.2 fun hopen => ?_)
    simp [hopen] at h

/-- The first file that is not registered is one for which a call fails. -/
theorem exists_callFails (files : List TreeFile)
    (hchecks : ∀ f ∈ files, PassesCheck baseDir f.info.path) : ∀ n : ℕ,
      (registerFiles fs baseDir n (files.map TreeFile.info)).success = false →
        ∃ k f, files[k]? = some f ∧ CallFails fs (n + k) (cString (baseDir ++ f.info.path)) := by
  induction files with
  | nil => exact fun n h => absurd h (by simp [registerFiles])
  | cons f files ih =>
    intro n h
    obtain ⟨hcheck, hchecks⟩ := List.forall_mem_cons.1 hchecks
    rw [List.map_cons, registerFiles] at h
    by_cases hs : (registerFile fs n baseDir f.info).success = true
    · simp only [if_pos hs] at h
      obtain ⟨k, g, hg, hfails⟩ := ih hchecks (n + 1) h
      refine ⟨k + 1, g, hg, ?_⟩
      rwa [Nat.add_assoc, Nat.add_comm 1] at hfails
    · exact ⟨0, f, rfl, callFails_of_registerFile hcheck (Bool.not_eq_true _ ▸ hs)⟩

end Register

/-- **Trees that are accepted.** No path check rejects a file of a tree, if and only if each file
has no directory, or a single one under a base directory with a name. -/
theorem accepts_iff (base : Bytes) (files : List TreeFile) :
    Accepts (base ++ [sep]) files ↔
      ∀ f ∈ files, f.components.length = 1 ∨ f.components.length = 2 ∧ names base ≠ [] := by
  constructor
  · intro h f hf
    exact (passesCheck_iff f).1 (h.checks f hf)
  · intro h
    have hchecks : ∀ f ∈ files, PassesCheck (base ++ [sep]) f.info.path := fun f hf =>
      (passesCheck_iff f).2 (h f hf)
    refine ⟨hchecks, fun fs hfalse => ?_⟩
    obtain ⟨k, f, hf, hfails⟩ := exists_callFails files hchecks 0 hfalse
    rw [Nat.zero_add] at hfails
    exact ⟨k, f, hf, hfails⟩

/-- `a/b/f`. -/
def nestedFile : TreeFile where
  info := ⟨key "a/b/f", 0, 0, 4⟩
  components := [key "a", key "b", key "f"]
  components_ne_nil := by simp
  proper := by
    simp only [List.mem_cons, List.not_mem_nil, or_false, forall_eq_or_imp, forall_eq]
    unfold Proper
    decide +kernel
  path_eq := by decide +kernel

/-- A directory in a directory is rejected, where every call succeeds. -/
theorem not_accepts_nestedFile :
    (registerFiles emptyDisk (key "d/") 0 [nestedFile.info]).success = false ∧
      ¬ Accepts (key "d/") [nestedFile] := by
  refine ⟨by decide +kernel, fun h => ?_⟩
  have hvalid := h.checks nestedFile (by simp) (by decide +kernel)
  exact absurd hvalid (by decide +kernel)

end CTorrent
