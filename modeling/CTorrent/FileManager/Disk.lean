import CTorrent.FileManager.Download
import Mathlib.Data.Set.Insert

/-!
# The files of a torrent as a scan finds them

A file on disk may be shorter than the metainfo declares. `image` is the flat array of the torrent
with zeros where a file is too short; a file that is full is its part of the image.

* `Disk`: what is assumed of the files;
* `image`, `Full`, `Disk.content_eq`: what is on disk;
* `Moved`: streams that have moved; `Streaming`: what a scan keeps;
* `Scanned`: a state of a scan that has tested given pieces;
* `fseekAt_spec`, `freadAt_spec`, `completeIfEligible_spec`: what the operations of a scan do.
-/

namespace CTorrent

open Splice

/-- The file has its declared length on disk. -/
def Full (f : TorrentFile) : Prop := f.info.length ≤ f.fp.content.length

/-- The file, with zeros up to its declared length. -/
def padded (f : TorrentFile) : TorrentFile :=
  { f with fp := { f.fp with
    content := f.fp.content ++ List.replicate (f.info.length - f.fp.content.length) 0 } }

/-- The flat array of the torrent, with zeros where a file is too short. -/
def image (files : List TorrentFile) : Bytes := flat (files.map padded)

/-- The offset behind a file. -/
def TorrentFileInfo.end_ (i : TorrentFileInfo) : ℕ := i.begin + i.length

/-- The files of a consistent torrent, each of at most its declared length on disk. -/
structure Disk (m : TorrentMeta) (files : List TorrentFile) : Prop where
  consistent : Consistent m
  info : files.map TorrentFile.info = m.files
  index : ∀ (k : ℕ) (f : TorrentFile), files[k]? = some f → f.info.index = k
  length_le : ∀ f ∈ files, f.fp.content.length ≤ f.info.length

namespace LaidOut

variable {is js : List TorrentFileInfo} {b e : ℕ}

theorem append_iff : LaidOut (is ++ js) b e ↔ ∃ c, LaidOut is b c ∧ LaidOut js c e := by
  induction is generalizing b with
  | nil =>
    constructor
    · exact fun h => ⟨b, rfl, h⟩
    · rintro ⟨c, rfl, h⟩
      exact h
  | cons i is ih =>
    constructor
    · rintro ⟨hb, h⟩
      obtain ⟨c, h1, h2⟩ := ih.1 h
      exact ⟨c, ⟨hb, h1⟩, h2⟩
    · rintro ⟨c, ⟨hb, h1⟩, h2⟩
      exact ⟨hb, ih.2 ⟨c, h1, h2⟩⟩

end LaidOut

/-- Files laid out from 0 to `total`, each of at most its declared length on disk. As the lengths of
files on disk, those are below `2 ^ 63`. -/
structure LaidFiles (files : List TorrentFile) (total : ℕ) : Prop where
  laidOut : LaidOut (files.map TorrentFile.info) 0 total
  index : ∀ (k : ℕ) (f : TorrentFile), files[k]? = some f → f.info.index = k
  length_le : ∀ f ∈ files, f.fp.content.length ≤ f.info.length
  length_lt : ∀ f ∈ files, f.info.length < 2 ^ 63

namespace LaidFiles

variable {total : ℕ} {files : List TorrentFile} {f g : TorrentFile} {j k : ℕ}

/-- The files before a file end where it begins. -/
theorem laidOut_take (h : LaidFiles files total) (hk : files[k]? = some f) :
    LaidOut ((files.take k).map TorrentFile.info) 0 f.info.begin := by
  have hl := h.laidOut
  obtain ⟨hlt, rfl⟩ := List.getElem?_eq_some_iff.1 hk
  rw [← List.take_append_drop k files, List.map_append, LaidOut.append_iff,
    List.drop_eq_getElem_cons hlt] at hl
  obtain ⟨c, h1, h2, -⟩ := hl
  rwa [h2]

theorem end_le (h : LaidFiles files total) (hf : f ∈ files) : f.info.end_ ≤ total :=
  (h.laidOut.mem_bounds (List.mem_map_of_mem hf)).2

/-- A file ends before a later one begins. -/
theorem end_le_begin (h : LaidFiles files total) (hj : files[j]? = some g) (hk : files[k]? = some f)
    (hjk : j < k) : g.info.end_ ≤ f.info.begin := by
  have hmem : g ∈ files.take k :=
    List.mem_of_getElem? (by rw [List.getElem?_take_of_lt hjk, hj])
  exact ((h.laidOut_take hk).mem_bounds (List.mem_map_of_mem hmem)).2

theorem begin_le_begin (h : LaidFiles files total) (hj : files[j]? = some g) (hk : files[k]? = some f)
    (hjk : j ≤ k) : g.info.begin ≤ f.info.begin := by
  rcases Nat.eq_or_lt_of_le hjk with rfl | hlt
  · cases hj.symm.trans hk
    exact le_rfl
  · exact (Nat.le_add_right _ _).trans (h.end_le_begin hj hk hlt)

/-- Filled up, every file has its declared length. -/
theorem exact_padded (h : LaidFiles files total) : Exact (files.map padded) := by
  intro f hf
  obtain ⟨g, hg, rfl⟩ := List.mem_map.1 hf
  have hle := h.length_le g hg
  simp only [padded, List.length_append, List.length_replicate]
  omega

theorem laidOut_padded (h : LaidFiles files total) :
    LaidOut ((files.map padded).map TorrentFile.info) 0 total := by
  rw [List.map_map]
  exact h.laidOut

theorem length_image (h : LaidFiles files total) : (image files).length = total := by
  have hlen := length_flat h.laidOut_padded h.exact_padded
  rwa [Nat.zero_add] at hlen

/-- A full file is its part of the image. -/
theorem content_eq (h : LaidFiles files total) (hf : f ∈ files) (hfull : Full f) :
    f.fp.content = region (image files) f.info.begin f.info.length := by
  have hpad := (content_eq_region h.laidOut_padded h.exact_padded (List.mem_map_of_mem hf)).2
  rw [Nat.sub_zero] at hpad
  have hnone : f.info.length - f.fp.content.length = 0 := Nat.sub_eq_zero_of_le hfull
  simpa [padded, hnone, image] using hpad

/-- What is read from a full file. -/
theorem region_content (h : LaidFiles files total) (hf : f ∈ files) (hfull : Full f) {pos n : ℕ}
    (hn : pos + n ≤ f.info.length) :
    region f.fp.content pos n = region (image files) (f.info.begin + pos) n := by
  rw [h.content_eq hf hfull, region_region hn]

end LaidFiles

theorem Disk.laid {m : TorrentMeta} {files : List TorrentFile} (h : Disk m files) :
    LaidFiles files m.totalSize := by
  have hlaid : LaidOut (files.map TorrentFile.info) 0 m.totalSize := h.info ▸ h.consistent.laidOut
  refine ⟨hlaid, h.index, h.length_le, fun f hf => ?_⟩
  have hend := (hlaid.mem_bounds (List.mem_map_of_mem hf)).2
  have htotal := h.consistent.total_lt
  omega

namespace FileManager

variable (sha1 : Bytes → Sha1sum)

/-- What scanning does not change of a file. -/
def snapshot (f : TorrentFile) : TorrentFileInfo × Bytes := (f.info, f.fp.content)

/-- Nothing but positions of streams has changed. -/
structure Moved (fm fm' : FileManager) : Prop where
  state : fm' = { fm with files := fm'.files }
  files : fm'.files.map snapshot = fm.files.map snapshot

/-- What a scan keeps: all but the bits and the positions of the streams. -/
structure Streaming (m : TorrentMeta) (files : List TorrentFile) (fm : FileManager) : Prop where
  metainfo : fm.metainfo = m
  length_eq : fm.pieces.length = m.sha1sums.length
  files : fm.files.map snapshot = files.map snapshot

/-- A state of a scan that has tested the pieces and the data of `done`. -/
structure Scanned (m : TorrentMeta) (files : List TorrentFile) (done : Set (ℕ × Bytes))
    (fm : FileManager) : Prop where
  metainfo : fm.metainfo = m
  hashes : fm.pieces.map Piece.hash = m.sha1sums
  pending : ∀ i < m.sha1sums.length, fm.pendingBits.test i = false
  files : fm.files.map snapshot = files.map snapshot
  bits : ∀ i < m.sha1sums.length, (fm.completedBits.test i = true ↔
    ∃ data, (i, data) ∈ done ∧ Passes sha1 m (i, data))

/-- The position of the stream of the file at position `k`. -/
def posAt (fm : FileManager) (k : ℕ) : ℕ := ((fm.files[k]?).map fun f => f.fp.pos).getD 0

variable {sha1} {m : TorrentMeta} {files : List TorrentFile} {done : Set (ℕ × Bytes)}
  {fm : FileManager} {f : TorrentFile} {k : ℕ}

theorem Scanned.length_eq (h : Scanned sha1 m files done fm) :
    fm.pieces.length = m.sha1sums.length := by
  rw [← h.hashes, List.length_map]

/-- A file of a state with the same snapshots. -/
theorem getElem?_of_snapshot {fs : List TorrentFile} (h : fs.map snapshot = files.map snapshot)
    (hk : files[k]? = some f) :
    ∃ g, fs[k]? = some g ∧ g.info = f.info ∧ g.fp.content = f.fp.content := by
  have hk' := congrArg (·[k]?) h
  simp only [List.getElem?_map, hk, Option.map_some] at hk'
  obtain ⟨g, hg, heq⟩ := Option.map_eq_some_iff.1 hk'
  obtain ⟨hinfo, hcontent⟩ := Prod.mk.inj heq
  exact ⟨g, hg, hinfo, hcontent⟩

namespace Moved

variable {fm₁ fm₂ : FileManager}

theorem refl (fm : FileManager) : Moved fm fm := ⟨rfl, rfl⟩

theorem trans (h : Moved fm fm₁) (h' : Moved fm₁ fm₂) : Moved fm fm₂ where
  state := by rw [h'.state, h.state]
  files := h'.files.trans h.files

theorem metainfo {fm' : FileManager} (h : Moved fm fm') : fm'.metainfo = fm.metainfo := by
  rw [h.state]

theorem setFp {g : TorrentFile} (hg : fm.files[k]? = some g) {fp : FILE}
    (hfp : fp.content = g.fp.content) : Moved fm (fm.setFp k fp) := by
  refine ⟨rfl, List.ext_getElem? fun j => ?_⟩
  simp only [FileManager.setFp, List.getElem?_map, List.getElem?_modify]
  by_cases hj : k = j
  · subst hj
    simp [hg, snapshot, hfp]
  · simp [hj]

end Moved

theorem Streaming.moved {fm' : FileManager} (h : Streaming m files fm) (hm : Moved fm fm') :
    Streaming m files fm' := by
  have hfiles := hm.files.trans h.files
  rw [hm.state] at hfiles ⊢
  exact ⟨h.metainfo, h.length_eq, hfiles⟩

theorem Scanned.streaming (h : Scanned sha1 m files done fm) : Streaming m files fm :=
  ⟨h.metainfo, h.length_eq, h.files⟩

theorem Scanned.moved {fm' : FileManager} (h : Scanned sha1 m files done fm) (hm : Moved fm fm') :
    Scanned sha1 m files done fm' := by
  have hfiles := hm.files.trans h.files
  rw [hm.state] at hfiles ⊢
  exact ⟨h.metainfo, h.hashes, h.pending, hfiles, h.bits⟩

theorem posAt_setFp (hk : k < fm.files.length) (fp : FILE) : posAt (fm.setFp k fp) k = fp.pos := by
  simp [posAt, FileManager.setFp, hk]

theorem posAt_setFp_of_ne {j : ℕ} (hj : j ≠ k) (fp : FILE) :
    posAt (fm.setFp k fp) j = posAt fm j := by
  simp [posAt, FileManager.setFp, Ne.symm hj]

/-- `fseek` moves one stream. -/
theorem fseekAt_spec (h : fm.files.map snapshot = files.map snapshot) (hk : files[k]? = some f)
    {offset : ℕ} (hoffset : offset < 2 ^ 63) :
    ∃ fm', fm.fseekAt k offset = some fm' ∧ Moved fm fm' ∧
      posAt fm' k = offset ∧ ∀ j, j ≠ k → posAt fm' j = posAt fm j := by
  obtain ⟨g, hg, -, -⟩ := getElem?_of_snapshot h hk
  have hlt := (List.getElem?_eq_some_iff.1 hg).1
  refine ⟨fm.setFp k (g.fp.fseek offset), by rw [fseekAt, hg]; rfl,
    .setFp hg (FILE.content_fseek _ _), ?_, fun j hj => posAt_setFp_of_ne hj _⟩
  rw [posAt_setFp hlt, FILE.pos_fseek _ hoffset]

/-- `fread` reads from the stream and moves it on. -/
theorem freadAt_spec (h : fm.files.map snapshot = files.map snapshot) (hk : files[k]? = some f)
    (n : ℕ) :
    ∃ fm', fm.freadAt k n = some (region f.fp.content (posAt fm k) n, fm') ∧ Moved fm fm' ∧
      posAt fm' k = posAt fm k + (region f.fp.content (posAt fm k) n).length ∧
      ∀ j, j ≠ k → posAt fm' j = posAt fm j := by
  obtain ⟨g, hg, -, hcontent⟩ := getElem?_of_snapshot h hk
  have hlt := (List.getElem?_eq_some_iff.1 hg).1
  have hpos : posAt fm k = g.fp.pos := by rw [posAt, hg]; rfl
  have hread : (g.fp.fread n).1 = region f.fp.content (posAt fm k) n := by
    rw [FILE.fread, hcontent, hpos]
  refine ⟨fm.setFp k (g.fp.fread n).2, by rw [freadAt, hg, Option.map_some, hread],
    .setFp hg (FILE.content_fread _ _), ?_, fun j hj => posAt_setFp_of_ne hj _⟩
  rw [posAt_setFp hlt, ← hread, hpos]
  rfl

/-- A test of a piece, with nothing pending. -/
theorem completeIfEligible_spec (hN : m.sha1sums.length < 2 ^ 31)
    (h : Scanned sha1 m files done fm) {i : ℕ} (hi : i < m.sha1sums.length) (data : Bytes) :
    ∃ fm', fm.completeIfEligible sha1 i data = some fm' ∧
      Scanned sha1 m files (insert (i, data) done) fm' ∧ fm'.files = fm.files := by
  have hpend := h.pending i hi
  have hsome : ∃ ok, fm.isWriteEligible sha1 i data = some ok := by
    rw [isWriteEligible, hpend, if_neg Bool.false_ne_true,
      List.getElem?_eq_getElem (h.length_eq ▸ hi)]
    exact ⟨_, rfl⟩
  obtain ⟨ok, hok⟩ := hsome
  have hpasses : ok = true ↔ Passes sha1 m (i, data) := by
    have hiff : fm.isWriteEligible sha1 i data = some true ↔
        fm.pendingBits.test i = false ∧ Passes sha1 m (i, data) := isWriteEligible_iff h.hashes
    rwa [hok, Option.some.injEq, and_iff_right hpend] at hiff
  -- the new test adds to the bits exactly if it passes
  have hbits : ∀ j, (∃ data', (j, data') ∈ insert (i, data) done ∧ Passes sha1 m (j, data')) ↔
      (j = i ∧ ok = true) ∨ ∃ data', (j, data') ∈ done ∧ Passes sha1 m (j, data') := by
    intro j
    simp only [Set.mem_insert_iff, Prod.mk.injEq]
    constructor
    · rintro ⟨data', ⟨rfl, rfl⟩ | hmem, hp⟩
      · exact Or.inl ⟨rfl, hpasses.2 hp⟩
      · exact Or.inr ⟨data', hmem, hp⟩
    · rintro (⟨rfl, hp⟩ | ⟨data', hmem, hp⟩)
      · exact ⟨data, Or.inl ⟨rfl, rfl⟩, hpasses.1 hp⟩
      · exact ⟨data', Or.inr hmem, hp⟩
  rw [completeIfEligible, check, hok, hpend]
  cases ok with
  | false =>
    refine ⟨_, rfl, ⟨h.metainfo, h.hashes, h.pending, h.files, fun j hj => ?_⟩, rfl⟩
    rw [hbits, ← h.bits j hj]
    simp
  | true =>
    refine ⟨_, rfl, ⟨h.metainfo, h.hashes, h.pending, h.files, fun j hj => ?_⟩, rfl⟩
    rw [hbits, ← h.bits j hj]
    change (fm.completedBits.set i).test j = true ↔ _
    rw [Bitset.test_set, Bool.or_eq_true, decide_eq_true_iff]
    have hmod : i % 2 ^ 32 = j % 2 ^ 32 ↔ j = i := by omega
    rw [hmod, and_iff_left rfl]

end FileManager

end CTorrent
