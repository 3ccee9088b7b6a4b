import CTorrent.FileManager.Worker

/-!
# Files laid out one behind the other

The abstract view of the files of a torrent is one flat array of bytes. `parseFile` gives every
file the place behind the one before it, and `process_write` cuts a store into that array at the
file boundaries.

* `LaidOut`: consecutive files from one offset to another; `laidOut_parseFiles`: those of metainfo
  whose total size does not wrap;
* `Exact`, `flat`: every file has its declared length; the concatenation of the files;
* `writeLoop_spec`: when every `fwrite` is complete, `process_write` is one store into `flat`.
-/

namespace CTorrent

/-- The files follow each other from offset `b` to offset `e`. -/
def LaidOut : List TorrentFileInfo → ℕ → ℕ → Prop
  | [], b, e => b = e
  | i :: is, b, e => i.begin = b ∧ LaidOut is (b + i.length) e

namespace LaidOut

variable {i : TorrentFileInfo} {is : List TorrentFileInfo} {b e : ℕ}

theorem le (h : LaidOut is b e) : b ≤ e := by
  induction is generalizing b with
  | nil => exact Nat.le_of_eq h
  | cons i is ih => exact (Nat.le_add_right _ _).trans (ih h.2)

theorem mem_bounds (h : LaidOut is b e) (hi : i ∈ is) :
    b ≤ i.begin ∧ i.begin + i.length ≤ e := by
  induction is generalizing b with
  | nil => cases hi
  | cons j is ih =>
    obtain ⟨hj, h⟩ : j.begin = b ∧ LaidOut is (b + j.length) e := h
    rcases List.mem_cons.1 hi with rfl | hi
    · exact ⟨hj.ge, hj ▸ h.le⟩
    · obtain ⟨h1, h2⟩ := ih h hi
      exact ⟨(Nat.le_add_right _ _).trans h1, h2⟩

/-- One more file at the end. -/
theorem concat (h : LaidOut is b e) (hi : i.begin = e) :
    LaidOut (is ++ [i]) b (e + i.length) := by
  induction is generalizing b with
  | nil =>
    cases h
    exact ⟨hi, rfl⟩
  | cons j is ih => exact ⟨h.1, ih h.2⟩

end LaidOut

/-- The files that `internalParse` collects from `files` are laid out from 0 to the total size,
unless the sum of their lengths wraps. -/
theorem laidOut_parseFiles (m : TorrentMeta) (hm : m.files = [] ∧ m.totalSize = 0)
    (entries : List Any)
    (h : (entries.map fun f =>
      (castUint64 ((castDictionary f).at_ (key "length"))).toNat).sum < 2 ^ 64) :
    LaidOut (m.parseFiles entries).files 0 (m.parseFiles entries).totalSize := by
  -- the induction carries the sum of the lengths read so far
  suffices hs : ∀ (s : TorrentMeta × ℕ × ℕ), LaidOut s.1.files 0 s.2.2 → s.1.totalSize = s.2.2 →
      s.2.2 + (entries.map fun f =>
        (castUint64 ((castDictionary f).at_ (key "length"))).toNat).sum < 2 ^ 64 →
      let t := (entries.foldl (fun (s : TorrentMeta × ℕ × ℕ) f =>
        let v := castDictionary f
        TorrentMeta.parseFile s.1 (castVector (v.at_ (key "path"))) s.2.1 s.2.2
          (castUint64 (v.at_ (key "length"))).toNat) s).1
      LaidOut t.files 0 t.totalSize from
    hs (m, 0, 0) (by rw [hm.1]; rfl) hm.2 (by rwa [Nat.zero_add])
  clear h hm
  induction entries with
  | nil =>
    intro s hl ht _
    simp only [List.foldl_nil, ht]
    exact hl
  | cons f entries ih =>
    intro s hl ht hs
    rw [List.map_cons, List.sum_cons] at hs
    refine ih _ ?_ ?_ ?_
    · simp only [TorrentMeta.parseFile]
      rw [Nat.mod_eq_of_lt (by omega)]
      exact hl.concat rfl
    · simp only [TorrentMeta.parseFile, ht]
    · simp only [TorrentMeta.parseFile]
      rw [Nat.mod_eq_of_lt (by omega)]
      omega

/-- Every file on disk has its declared length. -/
def Exact (files : List TorrentFile) : Prop := ∀ f ∈ files, f.fp.content.length = f.info.length

/-- The concatenation of the files. -/
def flat (files : List TorrentFile) : Bytes := files.flatMap fun f => f.fp.content

section Flat

variable {f : TorrentFile} {files : List TorrentFile} {b e : ℕ}

theorem flat_cons : flat (f :: files) = f.fp.content ++ flat files := List.flatMap_cons

theorem exact_cons : Exact (f :: files) ↔ f.fp.content.length = f.info.length ∧ Exact files :=
  List.forall_mem_cons

theorem length_flat (hl : LaidOut (files.map TorrentFile.info) b e) (he : Exact files) :
    b + (flat files).length = e := by
  induction files generalizing b with
  | nil => exact hl
  | cons f files ih =>
    rw [exact_cons] at he
    rw [flat_cons, List.length_append, ← Nat.add_assoc, he.1]
    exact ih hl.2 he.2

/-- Each file is its part of the flat array. -/
theorem content_eq_region (hl : LaidOut (files.map TorrentFile.info) b e) (he : Exact files)
    (hf : f ∈ files) :
    b ≤ f.info.begin ∧
      f.fp.content = Splice.region (flat files) (f.info.begin - b) f.info.length := by
  induction files generalizing b with
  | nil => cases hf
  | cons g files ih =>
    rw [exact_cons] at he
    obtain ⟨hb, hl⟩ : g.info.begin = b ∧ LaidOut (files.map TorrentFile.info) _ e := hl
    rw [flat_cons]
    rcases List.mem_cons.1 hf with rfl | hf
    · rw [hb, Nat.sub_self, Splice.region_append_left (by omega), ← he.1, Splice.region_full]
      exact ⟨Nat.le_refl _, rfl⟩
    · obtain ⟨h1, h2⟩ := ih hl he.2 hf
      refine ⟨by omega, ?_⟩
      rw [Splice.region_append_right (by omega), he.1,
        show f.info.begin - b - g.info.length = f.info.begin - (b + g.info.length) by omega]
      exact h2

end Flat

namespace FileManager

/-- Every `fwrite` gets all its bytes on disk. -/
def Complete (wrote : TorrentFileInfo → ℕ → ℕ) : Prop := ∀ info n, n ≤ wrote info n

variable {wrote : TorrentFileInfo → ℕ → ℕ}

/-- What `process_write` leaves of the files: their places, and the lengths and the concatenation
of their contents as given. -/
structure Stores (files files' : List TorrentFile) (bytes : Bytes) : Prop where
  info : files'.map TorrentFile.info = files.map TorrentFile.info
  exact : Exact files'
  flat : flat files' = bytes

theorem Stores.refl {files : List TorrentFile} (h : Exact files) :
    Stores files files (CTorrent.flat files) := ⟨rfl, h, rfl⟩

theorem Stores.cons {f : TorrentFile} {files files' : List TorrentFile} {bytes : Bytes} {fp : FILE}
    (hf : fp.content.length = f.info.length) (h : Stores files files' bytes) :
    Stores (f :: files) ({ f with fp := fp } :: files') (fp.content ++ bytes) where
  info := by simp [h.info]
  exact := exact_cons.2 ⟨hf, h.exact⟩
  flat := by rw [flat_cons, h.flat]

/-- Nothing is left to be written. -/
theorem writeLoop_nil {files : List TorrentFile} (he : Exact files) (pos : ℕ) :
    Stores files (writeLoop wrote files pos []) (flat files) := by
  induction files generalizing pos with
  | nil => exact Stores.refl he
  | cons f files ih =>
    have he' := exact_cons.1 he
    rw [writeLoop]
    split_ifs
    · exact Stores.refl he
    · exact Stores.cons he'.1 (ih he'.2 pos)
    · simp only [List.take_nil, List.drop_nil, List.length_nil, Nat.min_zero]
      have hc : ((f.fp.fseek (pos - f.info.begin)).fwrite [] (wrote f.info 0)).2.content =
          f.fp.content := by simp [FILE.fwrite]
      rw [flat_cons, ← hc]
      exact Stores.cons (by rw [hc, he'.1]) (ih he'.2 _)

/-- **`process_write` is a flat array write.** When every `fwrite` is complete, the loop stores the
data at its offset in the concatenation of the files. -/
theorem writeLoop_spec (hw : Complete wrote) {files : List TorrentFile} {b e pos : ℕ}
    (rest : Bytes) (hl : LaidOut (files.map TorrentFile.info) b e) (he : Exact files)
    (h62 : e < 2 ^ 62) (hpos : b ≤ pos) (hend : pos + rest.length ≤ e) :
    Stores files (writeLoop wrote files pos rest)
      (Splice.overwrite (flat files) (pos - b) rest) := by
  induction files generalizing b pos rest with
  | nil =>
    have hbe : b = e := hl
    have hrest : rest = [] := List.eq_nil_of_length_eq_zero (by omega)
    rw [hrest, Splice.overwrite_nil]
    exact Stores.refl he
  | cons f files ih =>
    have he' := exact_cons.1 he
    obtain ⟨hb, hl'⟩ : f.info.begin = b ∧ LaidOut (files.map TorrentFile.info) _ e := hl
    have hle := hl'.le
    have hlen := he'.1
    have hmod : (f.info.begin + f.info.length) % 2 ^ 64 = b + f.info.length := by
      rw [hb, Nat.mod_eq_of_lt (by omega)]
    rw [writeLoop, hmod, if_neg (by omega), hb, flat_cons]
    simp only
    split_ifs with hge
    · -- the store begins behind this file
      rw [Splice.overwrite_append_right (by omega), hlen,
        show pos - b - f.info.length = pos - (b + f.info.length) by omega]
      exact Stores.cons hlen (ih rest hl' he'.2 (by omega) hend)
    · generalize hamount : min (b + f.info.length - pos) rest.length = amount
      have htake : (rest.take amount).length = amount := by rw [List.length_take]; omega
      have hseek : (f.fp.fseek (pos - b)).pos = pos - b := FILE.pos_fseek f.fp (by omega)
      obtain ⟨hcount, hcontent⟩ := FILE.fwrite_of_le (f.fp.fseek (pos - b))
        (rest.take amount) (by rw [hseek, FILE.content_fseek]; omega)
        (show _ ≤ wrote f.info amount by rw [htake]; exact hw f.info amount)
      rw [htake] at hcount
      rw [hseek, FILE.content_fseek] at hcontent
      have hfp : ((f.fp.fseek (pos - b)).fwrite (rest.take amount)
          (wrote f.info amount)).2.content.length = f.info.length := by
        rw [hcontent, Splice.length_overwrite (by omega), hlen]
      rw [hcount, Nat.mod_eq_of_lt (by omega)]
      rcases Nat.lt_or_ge (b + f.info.length - pos) rest.length with hlt | hle'
      · -- the store goes on in the next file
        rw [Splice.overwrite_append_split (by omega) (by omega), hlen,
          show f.info.length - (pos - b) = amount by omega, ← hcontent]
        have hnext := ih (rest.drop amount) hl' he'.2 (show _ ≤ pos + amount by omega)
          (by rw [List.length_drop]; omega)
        rw [show pos + amount - (b + f.info.length) = 0 by omega] at hnext
        exact Stores.cons hfp hnext
      · -- the store ends in this file
        have hall : rest.take amount = rest := List.take_of_length_le (by omega)
        have hnone : rest.drop amount = [] := List.drop_eq_nil_of_le (by omega)
        rw [Splice.overwrite_append_left (by omega), hnone]
        rw [hall] at hcontent hfp ⊢
        rw [← hcontent]
        exact Stores.cons hfp (writeLoop_nil he'.2 _)

end FileManager

end CTorrent
