import CTorrent.FileManager.Download
import CTorrent.Meta.Coherent

/-!
# One request of `process_write`

What one run of `process_write` does to the files and the bits, first when every `fwrite` is
complete and then for arbitrary outcomes of the `fwrite` calls. A call that is short leaves the
position inside its file, and the loop breaks at the next one; whatever was written, the piece is
marked completed.

* `processWrite_flat`: with complete writes, one store into the concatenation of the files, one
  bit cleared and one bit set;
* `fileAt`, `byteAt`, `OnDisk`: the byte at a flat offset, and data that lies at one;
* `Reached`, `InPlace`: how far the calls get, and the bytes that lie in place afterwards;
* `processWrite_reports_iff`: when a completed piece is really on disk.
-/

namespace CTorrent

open Splice

namespace FileManager

variable {wrote : TorrentFileInfo → ℕ → ℕ}

/-! ### Complete writes -/

/-- What is outside a store keeps its bytes, file by file. -/
theorem content_of_overwrite {files files' : List TorrentFile} {e pos : ℕ} {data : Bytes}
    (hl : LaidOut (files.map TorrentFile.info) 0 e) (he : Exact files)
    (hs : Stores files files' (overwrite (flat files) pos data)) (hpos : pos ≤ e)
    {j : ℕ} {f f' : TorrentFile} (hf : files[j]? = some f) (hf' : files'[j]? = some f') :
    f'.info = f.info ∧ f'.fp.content.length = f.info.length ∧
      ∀ q < f.info.length,
        f.info.begin + q < pos ∨ pos + data.length ≤ f.info.begin + q →
        f'.fp.content[q]? = f.fp.content[q]? := by
  have hinfo : f'.info = f.info := by
    have h := congrArg (·[j]?) hs.info
    simpa [List.getElem?_map, hf, hf'] using h
  have hmem := List.mem_of_getElem? hf
  have hmem' := List.mem_of_getElem? hf'
  have hl' : LaidOut (files'.map TorrentFile.info) 0 e := by rw [hs.info]; exact hl
  obtain ⟨-, hc⟩ := content_eq_region hl he hmem
  obtain ⟨-, hc'⟩ := content_eq_region hl' hs.exact hmem'
  have hflat : pos ≤ (flat files).length := by
    have := length_flat hl he
    omega
  refine ⟨hinfo, hinfo ▸ hs.exact f' hmem', ?_⟩
  intro q hq hout
  rw [hc, hc', hs.flat, hinfo, getElem?_region, getElem?_region, if_pos hq, if_pos hq,
    getElem?_overwrite hflat, Nat.sub_zero]
  rcases hout with hout | hout
  · rw [if_pos hout]
  · rw [if_neg (by omega), if_neg (by omega)]

/-- **`process_write` is a flat array write.** For the files that `parseFile` lays out and complete
writes, the data is stored at its offset in the concatenation of the files, nothing else in any
file changes, and of the bits only those of the index do. -/
theorem processWrite_flat (hw : Complete wrote) {fm : FileManager} {m : TorrentMeta}
    (hm : m.files = [] ∧ m.totalSize = 0) (entries : List Any)
    (hfiles : fm.files.map TorrentFile.info = (m.parseFiles entries).files)
    (hsum : (entries.map TorrentMeta.entryLength).sum < 2 ^ 62)
    (he : Exact fm.files) (hN : fm.pieces.length < 2 ^ 31) (w : WriteRequest)
    (hi : w.index < fm.pieces.length)
    (hend : w.index * fm.metainfo.pieceLength + w.data.length ≤ (m.parseFiles entries).totalSize) :
    flat (fm.processWrite wrote w).files =
        overwrite (flat fm.files) (w.index * fm.metainfo.pieceLength) w.data ∧
      (fm.processWrite wrote w).files.map TorrentFile.info = fm.files.map TorrentFile.info ∧
      (∀ (j : ℕ) (f f' : TorrentFile), fm.files[j]? = some f →
        (fm.processWrite wrote w).files[j]? = some f' →
        f'.fp.content.length = f.info.length ∧
        ∀ q < f.info.length,
          f.info.begin + q < w.index * fm.metainfo.pieceLength ∨
            w.index * fm.metainfo.pieceLength + w.data.length ≤ f.info.begin + q →
          f'.fp.content[q]? = f.fp.content[q]?) ∧
      ∀ j < 2 ^ 32,
        (fm.processWrite wrote w).pendingBits.test j =
          (decide (j ≠ w.index) && fm.pendingBits.test j) ∧
        (fm.processWrite wrote w).completedBits.test j =
          (decide (j = w.index) || fm.completedBits.test j) := by
  have hl := laidOut_parseFiles m hm entries
    (show (entries.map TorrentMeta.entryLength).sum < 2 ^ 64 by omega)
  obtain ⟨-, htotal, -⟩ := m.parseFiles_lengths hm entries
  have hle := Nat.mod_le (entries.map TorrentMeta.entryLength).sum (2 ^ 64)
  rw [← hfiles] at hl
  have hstores : Stores fm.files (fm.processWrite wrote w).files
      (overwrite (flat fm.files) (w.index * fm.metainfo.pieceLength) w.data) := by
    have h := writeLoop_spec hw w.data hl he (by omega)
      (Nat.zero_le (w.index * fm.metainfo.pieceLength)) hend
    rw [processWrite, complete, Nat.mod_eq_of_lt (by omega)]
    exact h
  refine ⟨hstores.flat, hstores.info, ?_, ?_⟩
  · intro j f f' hf hf'
    exact (content_of_overwrite hl he hstores (by omega) hf hf').2
  · intro j hj
    have hmod : (w.index % 2 ^ 32 = j % 2 ^ 32) ↔ j = w.index := by omega
    constructor
    · change (fm.pendingBits.clear w.index).test j = _
      rw [Bitset.test_clear, ← decide_not]
      simp only [hmod, ne_eq]
    · change (fm.completedBits.set w.index).test j = _
      rw [Bitset.test_set]
      simp only [hmod]

/-- The entries of three files, of one byte, of none and of two. -/
def threeFiles : List Any := [1, 0, 2].map fun n => .dictionary [(key "length", .uint64 n)]

/-- The metainfo of the three files, with pieces of two bytes. -/
def threeFilesMeta : TorrentMeta :=
  { ({ checkSum := fun _ => 0 } : TorrentMeta).parseFiles threeFiles with
    pieceLength := 2
    sha1sums := [fun _ => 7, fun _ => 7] }

/-- The state of a torrent of the three files, which hold zeros. -/
def threeFilesState : FileManager :=
  register (fun _ => 0) (fun _ => 0) threeFilesMeta
    (threeFilesMeta.files.map fun i => ⟨⟨List.replicate i.length 0, 0⟩, i⟩)

theorem processWrite_flat_threeFiles :
    flat (threeFilesState.processWrite (fun _ n => n) ⟨0, 0, [7, 8]⟩).files =
        overwrite (flat threeFilesState.files) 0 [7, 8] ∧
      (threeFilesState.processWrite (fun _ n => n) ⟨0, 0, [7, 8]⟩).completedBits.test 0 = true := by
  have hfiles : threeFilesState.files.map TorrentFile.info =
      (({ checkSum := fun _ => 0 } : TorrentMeta).parseFiles threeFiles).files := rfl
  have h := processWrite_flat (show Complete fun _ n => n from fun _ n => Nat.le_refl n)
    ⟨rfl, rfl⟩ threeFiles hfiles
    (by decide) (by unfold Exact; decide) (by decide) ⟨0, 0, [7, 8]⟩ (by decide) (by decide)
  exact ⟨h.1, (h.2.2.2 0 (by decide)).2⟩

/-! ### Bytes at flat offsets -/

theorem FILE.fst_fwrite (fp : FILE) (data : Bytes) (n : ℕ) :
    (fp.fwrite data n).1 = min n data.length := by
  unfold FILE.fwrite
  by_cases h : data.take n = []
  · rw [if_pos h, ← List.length_take, h, List.length_nil]
  · rw [if_neg h, List.length_take]

/-- The bytes of a file after an `fwrite`. -/
theorem FILE.getElem?_fwrite (fp : FILE) (data : Bytes) (n q : ℕ) :
    (fp.fwrite data n).2.content[q]? =
      if fp.pos ≤ q ∧ q < fp.pos + min n data.length then data[q - fp.pos]?
      else if 0 < min n data.length ∧ fp.content.length ≤ q ∧ q < fp.pos then some 0
      else fp.content[q]? := by
  have hlen : (data.take n).length = min n data.length := List.length_take
  unfold FILE.fwrite
  by_cases h : data.take n = []
  · have hzero : min n data.length = 0 := by rw [← hlen, h, List.length_nil]
    rw [if_pos h, if_neg (by omega), if_neg (by omega)]
  · have hpos : 0 < min n data.length := by rw [← hlen]; exact List.length_pos_of_ne_nil h
    rw [if_neg h, getElem?_overwrite (by simp only [List.length_append, List.length_replicate]; omega),
      hlen]
    by_cases hq : q < fp.pos
    · rw [if_pos hq, if_neg (by omega), List.getElem?_append, List.getElem?_replicate]
      split_ifs <;> first | rfl | omega
    · rw [if_neg hq]
      by_cases hn : q < fp.pos + min n data.length
      · rw [if_pos hn, if_pos (by omega), List.getElem?_take_of_lt (by omega)]
      · rw [if_neg hn, if_neg (by omega), if_neg (by omega), List.getElem?_append,
          List.getElem?_replicate]
        split_ifs with h1 h2
        · rfl
        · omega
        · rw [List.getElem?_eq_none (by omega)]

/-- The file that the flat offset `p` lies in. -/
def fileAt (files : List TorrentFile) (p : ℕ) : Option TorrentFile :=
  files.find? fun f => f.info.begin ≤ p ∧ p < f.info.begin + f.info.length

/-- The byte at the flat offset `p`, if its file is long enough to have one. -/
def byteAt (files : List TorrentFile) (p : ℕ) : Option UInt8 :=
  (fileAt files p).bind fun f => f.fp.content[p - f.info.begin]?

/-- The data is in the files at the flat offset `pos`. -/
def OnDisk (files : List TorrentFile) (pos : ℕ) (data : Bytes) : Prop :=
  ∀ k < data.length, byteAt files (pos + k) = data[k]?

section FileAt

variable {f g : TorrentFile} {files : List TorrentFile} {b e p : ℕ}

theorem fileAt_eq_some (h : fileAt files p = some f) :
    f ∈ files ∧ f.info.begin ≤ p ∧ p < f.info.begin + f.info.length := by
  have hp := List.find?_some h
  exact ⟨List.mem_of_find?_eq_some h, of_decide_eq_true hp⟩

theorem fileAt_cons_of_lt (hg : g.info.begin ≤ p) (hp : p < g.info.begin + g.info.length) :
    fileAt (g :: files) p = some g := by
  rw [fileAt, List.find?_cons_of_pos]
  exact decide_eq_true ⟨hg, hp⟩

theorem fileAt_cons_of_le (hp : g.info.begin + g.info.length ≤ p) :
    fileAt (g :: files) p = fileAt files p := by
  rw [fileAt, List.find?_cons_of_neg]
  · rfl
  · simp only [decide_eq_true_eq]
    omega

/-- Every offset of the layout lies in a file. -/
theorem exists_fileAt (hl : LaidOut (files.map TorrentFile.info) b e) (hb : b ≤ p) (he : p < e) :
    ∃ f, fileAt files p = some f := by
  induction files generalizing b with
  | nil =>
    have hbe : b = e := hl
    omega
  | cons g files ih =>
    obtain ⟨hg, hl⟩ : g.info.begin = b ∧ LaidOut (files.map TorrentFile.info) _ e := hl
    by_cases hp : p < b + g.info.length
    · exact ⟨g, fileAt_cons_of_lt (by omega) (by omega)⟩
    · rw [fileAt_cons_of_le (by omega)]
      exact ih hl (by omega)

end FileAt

/-! ### Writes that may be short -/

/-- How many bytes of a store of `size` bytes at `pos` lie in a file. -/
def share (i : TorrentFileInfo) (pos size : ℕ) : ℕ :=
  min (i.begin + i.length) (pos + size) - max i.begin pos

/-- No `fwrite` for a file before this one is short, so that the loop reaches it. -/
def Reached (wrote : TorrentFileInfo → ℕ → ℕ) (files : List TorrentFile) (pos size : ℕ)
    (i : TorrentFileInfo) : Prop :=
  ∀ g ∈ files, g.info.begin < i.begin → share g.info pos size ≤ wrote g.info (share g.info pos size)

instance (files : List TorrentFile) (pos size : ℕ) (i : TorrentFileInfo) :
    Decidable (Reached wrote files pos size i) :=
  inferInstanceAs (Decidable (∀ g ∈ files, _ → _))

/-- The stream after the `fwrite` of a file's share of the data. -/
def writeShare (wrote : TorrentFileInfo → ℕ → ℕ) (f : TorrentFile) (pos : ℕ) (data : Bytes) :
    FILE :=
  ((f.fp.fseek (max f.info.begin pos - f.info.begin)).fwrite
    ((data.drop (max f.info.begin pos - pos)).take (share f.info pos data.length))
    (wrote f.info (share f.info pos data.length))).2

theorem writeLoop_of_lt {files : List TorrentFile} {b e pos : ℕ} (rest : Bytes)
    (hl : LaidOut (files.map TorrentFile.info) b e) (hpos : pos < b) :
    writeLoop wrote files pos rest = files := by
  cases files with
  | nil => rfl
  | cons f files =>
    have hf : f.info.begin = b := hl.1
    rw [writeLoop]
    simp only
    rw [if_pos (by omega)]

/-- A file that has no share of the data keeps its content. -/
theorem content_writeShare_of_share {f : TorrentFile} {pos : ℕ} {data : Bytes}
    (h : share f.info pos data.length = 0) :
    (writeShare wrote f pos data).content = f.fp.content := by
  simp [writeShare, h, FILE.fwrite]

/-- The share of a file behind `pos + n` is the same once `n` bytes are written. -/
theorem share_add {i : TorrentFileInfo} {pos size n : ℕ} (hn : n ≤ size) (hi : pos + n ≤ i.begin) :
    share i (pos + n) (size - n) = share i pos size := by
  unfold share
  omega

theorem writeShare_drop {f : TorrentFile} {pos n : ℕ} {data : Bytes} (hn : n ≤ data.length)
    (hf : pos + n ≤ f.info.begin) :
    writeShare wrote f (pos + n) (data.drop n) = writeShare wrote f pos data := by
  rw [writeShare, writeShare, List.length_drop, share_add hn hf, Nat.max_eq_left hf,
    Nat.max_eq_left (by omega), List.drop_drop,
    show n + (f.info.begin - (pos + n)) = f.info.begin - pos by omega]

theorem reached_cons {g : TorrentFile} {files : List TorrentFile} {pos size : ℕ}
    {i : TorrentFileInfo} (hi : g.info.begin + g.info.length ≤ i.begin) :
    Reached wrote (g :: files) pos size i ↔
      share g.info pos size ≤ wrote g.info (share g.info pos size) ∧
        Reached wrote files pos size i := by
  unfold Reached
  rw [List.forall_mem_cons]
  refine and_congr_left fun _ => ⟨fun h => ?_, fun h _ => h⟩
  by_cases hlt : g.info.begin < i.begin
  · exact h hlt
  · have hzero : share g.info pos size = 0 := by
      unfold share
      omega
    omega

theorem reached_add {files : List TorrentFile} {pos size n b e : ℕ} {i : TorrentFileInfo}
    (hn : n ≤ size) (hb : pos + n ≤ b) (hl : LaidOut (files.map TorrentFile.info) b e) :
    Reached wrote files (pos + n) (size - n) i ↔ Reached wrote files pos size i := by
  unfold Reached
  refine forall₂_congr fun g hg => ?_
  have := hl.mem_bounds (List.mem_map_of_mem hg)
  rw [share_add hn (by omega)]

/-- No file begins before the first, so the loop reaches it. -/
theorem reached_head {g : TorrentFile} {files : List TorrentFile} {b e : ℕ}
    (hl : LaidOut ((g :: files).map TorrentFile.info) b e) (pos size : ℕ) :
    Reached wrote (g :: files) pos size g.info := by
  intro f hf hlt
  have hbound := hl.mem_bounds (List.mem_map_of_mem hf)
  have hg : g.info.begin = b := hl.1
  omega

/-- The first file has its share written. -/
theorem fileAt_writeLoop_head {g : TorrentFile} {files : List TorrentFile} {b e pos : ℕ}
    (rest : Bytes) (hl : LaidOut ((g :: files).map TorrentFile.info) b e) (h64 : e < 2 ^ 64)
    (hpos : b ≤ pos) {p : ℕ} (hp : b ≤ p) (hlt : p < b + g.info.length) :
    ∃ f', fileAt (writeLoop wrote (g :: files) pos rest) p = some f' ∧ f'.info = g.info ∧
      f'.fp.content = (writeShare wrote g pos rest).content := by
  obtain ⟨hg, hl'⟩ : g.info.begin = b ∧ LaidOut (files.map TorrentFile.info) _ e := hl
  have hle := hl'.le
  have hmod : (g.info.begin + g.info.length) % 2 ^ 64 = b + g.info.length := by
    rw [hg, Nat.mod_eq_of_lt (by omega)]
  rw [writeLoop, hmod, if_neg (by omega), hg]
  simp only
  by_cases hge : pos ≥ b + g.info.length
  · rw [if_pos hge, fileAt_cons_of_lt (by omega) (by omega)]
    refine ⟨g, rfl, rfl, ?_⟩
    rw [content_writeShare_of_share (by unfold share; omega)]
  · have hshare : share g.info pos rest.length = min (b + g.info.length - pos) rest.length := by
      unfold share
      omega
    rw [if_neg hge, fileAt_cons_of_lt (show _ ≤ p by simp only; omega)
      (show p < _ by simp only; omega)]
    refine ⟨_, rfl, rfl, ?_⟩
    rw [writeShare, hshare, hg, Nat.max_eq_right hpos, Nat.sub_self, List.drop_zero]

/-- The loop file by file: a file that the loop reaches has its share written, as far as its own
`fwrite` gets, and the others stay as they are. -/
theorem fileAt_writeLoop {files : List TorrentFile} {b e pos : ℕ} (rest : Bytes)
    (hl : LaidOut (files.map TorrentFile.info) b e) (h64 : e < 2 ^ 64) (hpos : b ≤ pos)
    (hend : pos + rest.length ≤ e) {p : ℕ} {f : TorrentFile} (hf : fileAt files p = some f) :
    ∃ f', fileAt (writeLoop wrote files pos rest) p = some f' ∧ f'.info = f.info ∧
      f'.fp.content = if Reached wrote files pos rest.length f.info
        then (writeShare wrote f pos rest).content else f.fp.content := by
  induction files generalizing b pos rest with
  | nil => cases hf
  | cons g files ih =>
    obtain ⟨hmem, hfb, hfe⟩ := fileAt_eq_some hf
    have hfbound := hl.mem_bounds (List.mem_map_of_mem hmem)
    obtain ⟨hg, hl'⟩ : g.info.begin = b ∧ LaidOut (files.map TorrentFile.info) _ e := hl
    have hle := hl'.le
    have hmod : (g.info.begin + g.info.length) % 2 ^ 64 = b + g.info.length := by
      rw [hg, Nat.mod_eq_of_lt (by omega)]
    by_cases hp : p < b + g.info.length
    · -- the offset lies in this file
      rw [fileAt_cons_of_lt (by omega) (by omega)] at hf
      cases hf
      obtain ⟨f', h1, h2, h3⟩ := fileAt_writeLoop_head rest ⟨hg, hl'⟩ h64 hpos (by omega) hp
      refine ⟨f', h1, h2, ?_⟩
      rw [h3, if_pos (reached_head ⟨hg, hl'⟩ pos rest.length)]
    · -- the offset lies in a later file
      rw [writeLoop, hmod, if_neg (by omega), hg]
      simp only
      rw [fileAt_cons_of_le (by omega)] at hf
      have hfb' := hl'.mem_bounds (List.mem_map_of_mem (fileAt_eq_some hf).1)
      by_cases hge : pos ≥ b + g.info.length
      · have hzero : share g.info pos rest.length = 0 := by
          unfold share
          omega
        rw [if_pos hge, fileAt_cons_of_le (by omega)]
        obtain ⟨f', h1, h2, h3⟩ := ih rest hl' hge hend hf
        refine ⟨f', h1, h2, ?_⟩
        rw [h3]
        simp only [reached_cons (show g.info.begin + g.info.length ≤ f.info.begin by omega), hzero,
          Nat.zero_le, true_and]
      · have hshare : share g.info pos rest.length = min (b + g.info.length - pos) rest.length := by
          unfold share
          omega
        rw [if_neg hge, fileAt_cons_of_le (show _ ≤ p by simp only; omega)]
        simp only [reached_cons (show g.info.begin + g.info.length ≤ f.info.begin by omega),
          hshare, FILE.fst_fwrite, List.length_take]
        generalize hamount : min (b + g.info.length - pos) rest.length = amount
        by_cases hshort : amount ≤ wrote g.info amount
        · -- a complete write: the loop goes on where this file ends, or the data is used up
          rw [show min (wrote g.info amount) (min amount rest.length) = amount by omega,
            Nat.mod_eq_of_lt (by omega)]
          by_cases hfull : pos + amount = b + g.info.length
          · obtain ⟨f', h1, h2, h3⟩ := ih (rest.drop amount) hl' (show _ ≤ pos + amount by omega)
              (by rw [List.length_drop]; omega) hf
            refine ⟨f', h1, h2, ?_⟩
            rw [h3, writeShare_drop (by omega) (by omega), List.length_drop]
            simp only [hshort, true_and, reached_add (show amount ≤ rest.length by omega)
              (show pos + amount ≤ b + g.info.length by omega) hl']
          · rw [writeLoop_of_lt _ hl' (by omega)]
            refine ⟨f, hf, rfl, ?_⟩
            rw [content_writeShare_of_share (by unfold share; omega), ite_self]
        · -- a short write: the next file begins behind the position, and the loop breaks
          rw [Nat.mod_eq_of_lt (by omega), writeLoop_of_lt _ hl' (by omega)]
          refine ⟨f, hf, rfl, ?_⟩
          rw [if_neg fun h => hshort h.1]

/-! ### What lies in place afterwards -/

/-- Where the stream stands for the `fwrite` of a file's share: an offset that is no `long` leaves
it where it was. -/
def streamPos (f : TorrentFile) (pos : ℕ) : ℕ :=
  (f.fp.fseek (max f.info.begin pos - f.info.begin)).pos

/-- How many bytes of a file's share get on disk. -/
def landed (wrote : TorrentFileInfo → ℕ → ℕ) (files : List TorrentFile) (pos size : ℕ)
    (i : TorrentFileInfo) : ℕ :=
  if Reached wrote files pos size i then min (wrote i (share i pos size)) (share i pos size) else 0

/-- Each byte of the data has its place in a file that held it already, or that is filled up to
there by zeros, or on whose place the `fwrite` lands that byte: for a seek that is not refused, when
it gets that far. -/
def InPlace (wrote : TorrentFileInfo → ℕ → ℕ) (files : List TorrentFile) (pos : ℕ)
    (data : Bytes) : Prop :=
  ∀ k < data.length, ∀ f, fileAt files (pos + k) = some f →
    let q := pos + k - f.info.begin
    let start := streamPos f pos
    let n := landed wrote files pos data.length f.info
    if start ≤ q ∧ q < start + n then
      data[max f.info.begin pos - pos + (q - start)]? = data[k]?
    else if 0 < n ∧ f.fp.content.length ≤ q ∧ q < start then data[k]? = some 0
    else f.fp.content[q]? = data[k]?

/-- Where the seeks are not refused, each byte was written or was there before. -/
theorem inPlace_iff {files : List TorrentFile} {pos : ℕ} {data : Bytes}
    (h63 : ∀ f ∈ files, f.info.length ≤ 2 ^ 63) :
    InPlace wrote files pos data ↔
      ∀ k < data.length, ∀ f, fileAt files (pos + k) = some f →
        pos + k < max f.info.begin pos + landed wrote files pos data.length f.info ∨
          f.fp.content[pos + k - f.info.begin]? = data[k]? := by
  unfold InPlace
  refine forall₂_congr fun k _ => forall₂_congr fun f hf => ?_
  obtain ⟨hmem, hb, he⟩ := fileAt_eq_some hf
  have hlen := h63 f hmem
  have hstart : streamPos f pos = max f.info.begin pos - f.info.begin :=
    FILE.pos_fseek f.fp (by omega)
  simp only [hstart]
  by_cases hlt : pos + k < max f.info.begin pos + landed wrote files pos data.length f.info
  · rw [if_pos (by omega)]
    refine iff_of_true ?_ (Or.inl hlt)
    congr 1
    omega
  · rw [if_neg (by omega), if_neg (by omega)]
    exact ⟨Or.inr, fun h => h.resolve_left hlt⟩

/-- The byte at a flat offset of the data after the loop. -/
theorem byteAt_writeLoop {files : List TorrentFile} {b e pos : ℕ} {data : Bytes}
    (hl : LaidOut (files.map TorrentFile.info) b e) (h64 : e < 2 ^ 64) (hpos : b ≤ pos)
    (hend : pos + data.length ≤ e) {p : ℕ} {f : TorrentFile} (hf : fileAt files p = some f) :
    byteAt (writeLoop wrote files pos data) p =
      if streamPos f pos ≤ p - f.info.begin ∧
          p - f.info.begin < streamPos f pos + landed wrote files pos data.length f.info then
        data[max f.info.begin pos - pos + (p - f.info.begin - streamPos f pos)]?
      else if 0 < landed wrote files pos data.length f.info ∧
          f.fp.content.length ≤ p - f.info.begin ∧ p - f.info.begin < streamPos f pos then some 0
      else f.fp.content[p - f.info.begin]? := by
  obtain ⟨f', hf', hinfo, hcontent⟩ :
      ∃ f', fileAt (writeLoop wrote files pos data) p = some f' ∧ f'.info = f.info ∧
        f'.fp.content = if Reached wrote files pos data.length f.info
          then (writeShare wrote f pos data).content else f.fp.content :=
    fileAt_writeLoop data hl h64 hpos hend hf
  rw [byteAt, hf', Option.bind_some, hinfo, hcontent]
  unfold landed
  by_cases hr : Reached wrote files pos data.length f.info
  · have hlen : ((data.drop (max f.info.begin pos - pos)).take
        (share f.info pos data.length)).length = share f.info pos data.length := by
      rw [List.length_take, List.length_drop, share]
      omega
    rw [if_pos hr, if_pos hr, writeShare, FILE.getElem?_fwrite, hlen, FILE.content_fseek,
      ← streamPos]
    refine ite_congr rfl (fun h => ?_) fun _ => rfl
    rw [List.getElem?_take_of_lt (by omega), List.getElem?_drop]
  · rw [if_neg hr, if_neg hr, if_neg (by omega), if_neg (by omega)]

/-- **When a reported piece is on disk.** `process_write` sets the completed bit and has
`onPieceWriteComplete` called for whatever the `fwrite` calls did. The data is in the files then
exactly if each of its bytes was written before a call came short, or was there before. -/
theorem processWrite_reports_iff {fm : FileManager} {e : ℕ}
    (hl : LaidOut (fm.files.map TorrentFile.info) 0 e) (h64 : e < 2 ^ 64) (w : WriteRequest)
    (hend : w.index * fm.metainfo.pieceLength + w.data.length ≤ e) :
    ((fm.processWrite wrote w).completedBits.test w.index = true ∨
        (w.index, w.data) ∈ (fm.processWrite wrote w).completions →
      OnDisk (fm.processWrite wrote w).files (w.index * fm.metainfo.pieceLength) w.data) ↔
      InPlace wrote fm.files (w.index * fm.metainfo.pieceLength) w.data := by
  have hbit : (fm.processWrite wrote w).completedBits.test w.index = true := by
    change (fm.completedBits.set w.index).test w.index = true
    simp [Bitset.test_set]
  have hfiles : (fm.processWrite wrote w).files =
      writeLoop wrote fm.files (w.index * fm.metainfo.pieceLength) w.data := by
    rw [processWrite, complete, Nat.mod_eq_of_lt (by omega)]
  rw [hfiles, imp_iff_right (Or.inl hbit)]
  generalize w.index * fm.metainfo.pieceLength = pos at hend ⊢
  unfold OnDisk InPlace
  refine forall₂_congr fun k hk => ?_
  obtain ⟨f, hf⟩ := exists_fileAt hl (Nat.zero_le (pos + k)) (by omega)
  rw [byteAt_writeLoop hl h64 (Nat.zero_le pos) hend hf]
  rw [apply_ite (· = w.data[k]?), apply_ite (· = w.data[k]?), eq_comm (a := some 0)]
  constructor
  · intro h g hg
    cases hf.symm.trans hg
    exact h
  · exact fun h => h f hf

theorem laidOut_threeFilesState :
    LaidOut (threeFilesState.files.map TorrentFile.info) 0 3 := ⟨rfl, rfl, rfl, rfl⟩

/-- The disk is full behind the first byte, but the second one was there before. -/
theorem processWrite_reports_iff_sameByte :
    ((threeFilesState.processWrite (fun i n => if i.begin = 0 then n else 0)
        ⟨0, 0, [7, 0]⟩).completedBits.test 0 = true ∨
      (0, [7, 0]) ∈ (threeFilesState.processWrite (fun i n => if i.begin = 0 then n else 0)
        ⟨0, 0, [7, 0]⟩).completions →
      OnDisk (threeFilesState.processWrite (fun i n => if i.begin = 0 then n else 0)
        ⟨0, 0, [7, 0]⟩).files 0 [7, 0]) ↔
      InPlace (fun i n => if i.begin = 0 then n else 0) threeFilesState.files 0 [7, 0] :=
  processWrite_reports_iff laidOut_threeFilesState (by decide) ⟨0, 0, [7, 0]⟩ (by decide)

/-- On a full disk nothing is written, and the piece is completed all the same. -/
theorem not_onDisk_fullDisk :
    LaidOut (threeFilesState.files.map TorrentFile.info) 0 3 ∧
      (threeFilesState.processWrite (fun _ _ => 0) ⟨0, 0, [7, 8]⟩).completedBits.test 0 = true ∧
      (0, [7, 8]) ∈ (threeFilesState.processWrite (fun _ _ => 0) ⟨0, 0, [7, 8]⟩).completions ∧
      ¬ OnDisk (threeFilesState.processWrite (fun _ _ => 0) ⟨0, 0, [7, 8]⟩).files 0 [7, 8] := by
  refine ⟨laidOut_threeFilesState, by decide +kernel, by decide +kernel, fun h => ?_⟩
  exact absurd (h 0 (by decide)) (by decide +kernel)

end FileManager

end CTorrent
