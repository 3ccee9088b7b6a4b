import CTorrent.FileManager.Disk

/-!
# A download into files that grow

`registerFiles` creates files that are empty, and they grow as pieces are written to them: a write
behind the end of a file leaves zeros in between. With zeros in place of what is missing the files
make up an array in which `process_write` stores; and of each completed piece every byte is in its
file.

* `Grown`: a file before and after a write; `Grows`: the files;
* `writeLoop_grows`: `process_write` on files that may be short;
* `GrowthInv`: what a download keeps;
* `download_grows`: the files behind a download, whatever was on disk at first.
-/

namespace CTorrent

open Splice

namespace FileManager

/-- A file before and after `n` bytes were written from offset `pos` of the torrent on. -/
structure Grown (pos n : ℕ) (f f' : TorrentFile) : Prop where
  info : f'.info = f.info
  length_le : f'.fp.content.length ≤ f.info.length
  le_length : f.fp.content.length ≤ f'.fp.content.length
  reaches : ∀ p, pos ≤ p → p < pos + n → f.info.begin ≤ p → p < f.info.end_ →
    p - f.info.begin < f'.fp.content.length

/-- The files before and after, and what they are then. -/
structure Grows (pos n : ℕ) (files files' : List TorrentFile) (bytes : Bytes) : Prop where
  files : List.Forall₂ (Grown pos n) files files'
  image : image files' = bytes

variable {wrote : TorrentFileInfo → ℕ → ℕ} {f : TorrentFile} {files : List TorrentFile}
  {pos n : ℕ}

theorem image_cons : image (f :: files) = (padded f).fp.content ++ image files := flat_cons

/-- A file that the write does not meet. -/
theorem grown_refl (hle : f.fp.content.length ≤ f.info.length)
    (h : ∀ p, pos ≤ p → p < pos + n → ¬(f.info.begin ≤ p ∧ p < f.info.end_)) : Grown pos n f f :=
  ⟨rfl, hle, le_rfl, fun p h1 h2 h3 h4 => absurd ⟨h3, h4⟩ (h p h1 h2)⟩

/-- A store and the zeros behind the array. -/
theorem overwrite_append_zeros {l bs : Bytes} {k : ℕ} (hpos : pos ≤ l.length)
    (hend : pos + bs.length ≤ l.length + k) :
    overwrite (l ++ List.replicate k 0) pos bs = overwrite l pos bs ++
      List.replicate (l.length + k - (overwrite l pos bs).length) 0 := by
  have hlen : (overwrite l pos bs).length = max l.length (pos + bs.length) := by
    simp only [overwrite, List.length_append, List.length_take, List.length_drop]
    omega
  rw [hlen, overwrite, overwrite, List.take_append_of_le_length hpos, List.drop_append,
    List.drop_replicate, ← List.append_assoc]
  congr 2
  omega

/-- A write inside the declared length of a file. -/
theorem padded_fwrite (hle : f.fp.content.length ≤ f.info.length) {off w : ℕ} (bs : Bytes)
    (hoff : off < 2 ^ 63) (hend : off + bs.length ≤ f.info.length) (hw : bs.length ≤ w) :
    let r := (f.fp.fseek off).fwrite bs w
    r.1 = bs.length ∧ (padded { f with fp := r.2 }).fp.content =
        overwrite (padded f).fp.content off bs ∧
      r.2.content.length = if bs = [] then f.fp.content.length
        else max f.fp.content.length (off + bs.length) := by
  intro r
  by_cases hbs : bs = []
  · subst hbs
    simp [r, FILE.fwrite, padded]
  · have hr : r = (bs.length, ⟨overwrite (f.fp.content ++
        List.replicate (off - f.fp.content.length) 0) off bs, off + bs.length⟩) := by
      simp only [r, FILE.fwrite, List.take_of_length_le hw, if_neg hbs, FILE.pos_fseek f.fp hoff,
        FILE.content_fseek]
    have hbase : (f.fp.content ++ List.replicate (off - f.fp.content.length) (0 : UInt8)).length =
        max f.fp.content.length off := by
      rw [List.length_append, List.length_replicate]
      omega
    have hzeros : (padded f).fp.content = f.fp.content ++
        List.replicate (off - f.fp.content.length) 0 ++
          List.replicate (f.info.length - max f.fp.content.length off) 0 := by
      rw [List.append_assoc, List.replicate_append_replicate]
      have hsum : off - f.fp.content.length + (f.info.length - max f.fp.content.length off) =
          f.info.length - f.fp.content.length := by omega
      rw [hsum]
      rfl
    have hlen : r.2.content.length = max f.fp.content.length (off + bs.length) := by
      rw [hr]
      simp only [overwrite, List.length_append, List.length_take, List.length_drop,
        List.length_replicate]
      omega
    refine ⟨by rw [hr], ?_, by rw [if_neg hbs, hlen]⟩
    rw [hzeros, overwrite_append_zeros (by omega) (by omega), hbase]
    simp only [padded, hr]
    congr 2
    rw [hr] at hlen
    simp only at hlen
    omega

variable (wrote) in
/-- Nothing is left to be written. -/
theorem writeLoop_nil_contents (files : List TorrentFile) (pos : ℕ) :
    List.Forall₂ (fun f f' : TorrentFile => f'.info = f.info ∧ f'.fp.content = f.fp.content) files
      (writeLoop wrote files pos []) := by
  induction files generalizing pos with
  | nil => exact .nil
  | cons f files ih =>
    rw [writeLoop]
    split_ifs
    · exact List.forall₂_same.2 fun _ _ => ⟨rfl, rfl⟩
    · exact .cons ⟨rfl, rfl⟩ (ih pos)
    · exact .cons ⟨rfl, by simp [FILE.fwrite]⟩ (by simpa [FILE.fwrite] using ih _)

theorem image_congr {files' : List TorrentFile}
    (h : List.Forall₂ (fun f f' : TorrentFile => f'.info = f.info ∧ f'.fp.content = f.fp.content)
      files files') : image files' = image files := by
  induction h with
  | nil => rfl
  | cons hf _ ih => rw [image_cons, image_cons, ih, padded, padded, hf.1, hf.2]

/-- **`process_write` on files that may be short.** When every `fwrite` is complete, the loop stores
the data at its offset in the image of the files, and every byte of it is in its file then. -/
theorem writeLoop_grows (hw : Complete wrote) {b e : ℕ} (rest : Bytes)
    (hl : LaidOut (files.map TorrentFile.info) b e)
    (hle : ∀ f ∈ files, f.fp.content.length ≤ f.info.length) (h62 : e < 2 ^ 62) (hpos : b ≤ pos)
    (hend : pos + rest.length ≤ e) :
    Grows pos rest.length files (writeLoop wrote files pos rest)
      (overwrite (image files) (pos - b) rest) := by
  induction files generalizing b pos rest with
  | nil =>
    have hbe : b = e := hl
    have hrest : rest = [] := List.eq_nil_of_length_eq_zero (by omega)
    rw [hrest, overwrite_nil]
    exact ⟨.nil, rfl⟩
  | cons f files ih =>
    obtain ⟨hlef, hle'⟩ := List.forall_mem_cons.1 hle
    obtain ⟨hb, hl'⟩ : f.info.begin = b ∧ LaidOut (files.map TorrentFile.info) _ e := hl
    have hbound := hl'.le
    have hlen : (padded f).fp.content.length = f.info.length := by
      simp only [padded, List.length_append, List.length_replicate]
      omega
    have hmod : (f.info.begin + f.info.length) % 2 ^ 64 = b + f.info.length := by
      rw [hb, Nat.mod_eq_of_lt (by omega)]
    have hinside : f.info.end_ = b + f.info.length := by rw [TorrentFileInfo.end_, hb]
    have hbehind : ∀ g ∈ files, b + f.info.length ≤ g.info.begin := fun g hg =>
      (hl'.mem_bounds (List.mem_map_of_mem hg)).1
    rw [writeLoop, hmod, if_neg (by omega), hb, image_cons]
    simp only
    split_ifs with hge
    · -- the store begins behind this file
      obtain ⟨hfiles, himage⟩ := ih rest hl' hle' (by omega) hend
      refine ⟨.cons (grown_refl hlef fun p h1 _ h => by omega) hfiles, ?_⟩
      rw [overwrite_append_right (by omega), hlen, image_cons, himage, Nat.sub_sub]
    · generalize hamount : min (b + f.info.length - pos) rest.length = amount
      have htake : (rest.take amount).length = amount := by rw [List.length_take]; omega
      obtain ⟨hcount, hpadded, hlength⟩ := padded_fwrite hlef (rest.take amount)
        (show pos - b < 2 ^ 63 by omega) (by omega)
        (show _ ≤ wrote f.info amount by rw [htake]; exact hw f.info amount)
      generalize (f.fp.fseek (pos - b)).fwrite (rest.take amount) (wrote f.info amount) = r
        at hcount hpadded hlength
      rw [htake] at hcount hlength
      rw [hcount, Nat.mod_eq_of_lt (by omega)]
      have hgrown : Grown pos rest.length f { f with fp := r.2 } := by
        refine ⟨rfl, ?_, ?_, fun p h1 h2 _ h4 => ?_⟩ <;> simp only [hlength]
        · split_ifs <;> omega
        · split_ifs <;> omega
        · rw [if_neg]
          · omega
          · rintro hnil
            rw [hnil, List.length_nil] at htake
            omega
      rcases Nat.lt_or_ge (b + f.info.length - pos) rest.length with hlt | hle''
      · -- the store goes on in the next file
        obtain ⟨hfiles, himage⟩ := ih (rest.drop amount) hl' hle' (show _ ≤ pos + amount by omega)
          (by rw [List.length_drop]; omega)
        have hall := (List.forall₂_and_left _ _).2 ⟨hbehind, hfiles⟩
        refine ⟨.cons hgrown (hall.imp fun g g' hg => ?_), ?_⟩
        · obtain ⟨hbegin, hg⟩ := hg
          refine ⟨hg.info, hg.length_le, hg.le_length, fun p h1 h2 h3 h4 => ?_⟩
          refine hg.reaches p (by omega) ?_ h3 h4
          rw [List.length_drop]
          omega
        · have hcut : f.info.length - (pos - b) = amount := by omega
          have hnext : pos + amount - (b + f.info.length) = 0 := by omega
          rw [overwrite_append_split (by omega) (by omega), hlen, hcut, image_cons, himage, hpadded,
            hnext]
      · -- the store ends in this file
        have hall : rest.take amount = rest := List.take_of_length_le (by omega)
        have hnone : rest.drop amount = [] := List.drop_eq_nil_of_le (by omega)
        have hrest := writeLoop_nil_contents wrote files (pos + amount)
        rw [hnone]
        have hkept := (List.forall₂_and_left _ _).2
          ⟨fun g hg => And.intro (hbehind g hg) (hle' g hg), hrest⟩
        refine ⟨.cons hgrown (hkept.imp fun g g' hg => ?_), ?_⟩
        · obtain ⟨⟨hbegin, hleg⟩, hinfo, hcontent⟩ := hg
          refine ⟨hinfo, by rwa [hcontent], by rw [hcontent], fun p _ _ h3 _ => ?_⟩
          omega
        · rw [overwrite_append_left (by omega), image_cons, image_congr hrest, hpadded, hall]

theorem map_info_grown {files' : List TorrentFile} (h : List.Forall₂ (Grown pos n) files files') :
    files'.map TorrentFile.info = files.map TorrentFile.info := by
  induction h with
  | nil => rfl
  | cons hf _ ih => rw [List.map_cons, List.map_cons, hf.info, ih]

theorem exists_grown {files' : List TorrentFile} (h : List.Forall₂ (Grown pos n) files files')
    {f' : TorrentFile} (hf' : f' ∈ files') : ∃ f ∈ files, Grown pos n f f' := by
  induction h with
  | nil => cases hf'
  | cons hf _ ih =>
    rcases List.mem_cons.1 hf' with rfl | hf'
    · exact ⟨_, List.mem_cons_self, hf⟩
    · obtain ⟨f, hmem, hg⟩ := ih hf'
      exact ⟨f, List.mem_cons_of_mem _ hmem, hg⟩

/-! ### What is on disk -/

variable (m : TorrentMeta) (orig : Bytes) (sha1 : Bytes → Sha1sum)

/-- The completed pieces are on disk: each has its original content, and every byte of it is in its
file. -/
structure Stored (fm : FileManager) : Prop where
  info : fm.files.map TorrentFile.info = m.files
  length_le : ∀ f ∈ fm.files, f.fp.content.length ≤ f.info.length
  pieces : ∀ i < m.sha1sums.length, fm.completedBits.test i = true →
    region (image fm.files) (i * m.pieceLength) (pieceLen m i) =
      region orig (i * m.pieceLength) (pieceLen m i)
  present : ∀ i < m.sha1sums.length, fm.completedBits.test i = true → ∀ f ∈ fm.files,
    ∀ p, i * m.pieceLength ≤ p → p < i * m.pieceLength + pieceLen m i → f.info.begin ≤ p →
      p < f.info.end_ → p - f.info.begin < f.fp.content.length

variable {m orig sha1} {fm fm' : FileManager}

theorem Stored.of_eq (h : Stored m orig fm) (hf : fm'.files = fm.files)
    (hc : fm'.completedBits = fm.completedBits) : Stored m orig fm' := by
  refine ⟨hf ▸ h.info, hf ▸ h.length_le, ?_, ?_⟩
  · rw [hf, hc]
    exact h.pieces
  · rw [hf, hc]
    exact h.present

/-- Nothing is completed, and nothing more than is declared is on disk. -/
theorem stored_register (hm : Consistent m) (heap heap' : ℤ → UInt8)
    (hf : files.map TorrentFile.info = m.files)
    (hle : ∀ f ∈ files, f.fp.content.length ≤ f.info.length) :
    Stored m orig (register heap heap' m files) := by
  have hnone : ∀ i < m.sha1sums.length,
      (register heap heap' m files).completedBits.test i ≠ true := by
    intro i hi
    rw [register, Bitset.test_construct heap hi (hi.trans hm.count_lt)]
    exact Bool.false_ne_true
  exact ⟨hf, hle, fun i hi ht => absurd ht (hnone i hi), fun i hi ht => absurd ht (hnone i hi)⟩

/-- The image is as long as the torrent. -/
theorem Stored.laid (h : Stored m orig fm) (hm : Consistent m) :
    LaidOut ((fm.files.map padded).map TorrentFile.info) 0 m.totalSize ∧
      Exact (fm.files.map padded) ∧ (image fm.files).length = m.totalSize := by
  have hlaid : LaidOut ((fm.files.map padded).map TorrentFile.info) 0 m.totalSize := by
    rw [List.map_map]
    exact h.info ▸ hm.laidOut
  have hexact : Exact (fm.files.map padded) := by
    intro f hf
    obtain ⟨g, hg, rfl⟩ := List.mem_map.1 hf
    have hle := h.length_le g hg
    simp only [padded, List.length_append, List.length_replicate]
    omega
  have hflat := length_flat hlaid hexact
  rw [Nat.zero_add] at hflat
  exact ⟨hlaid, hexact, hflat⟩

/-- A piece is written. -/
theorem Stored.processWrite (h : Stored m orig fm) (hm : Consistent m)
    (ho : orig.length = m.totalSize) (hmeta : fm.metainfo = m) (hw : Complete wrote)
    {w : WriteRequest} (hi : w.index < m.sha1sums.length)
    (hdata : w.data = region orig (w.index * m.pieceLength) (pieceLen m w.index)) :
    Stored m orig (fm.processWrite wrote w) := by
  have hend := hm.tiled.piece_end_le hi
  have hlen : w.data.length = pieceLen m w.index := by
    rw [hdata, length_region (by omega)]
  have h62 := hm.total_lt
  have hcount := hm.count_lt
  obtain ⟨-, -, hlength⟩ := h.laid hm
  have hgrows := writeLoop_grows hw w.data (h.info ▸ hm.laidOut) h.length_le h62
    (Nat.zero_le (w.index * m.pieceLength)) (by omega)
  rw [Nat.sub_zero] at hgrows
  have hfiles : (fm.processWrite wrote w).files =
      writeLoop wrote fm.files (w.index * m.pieceLength) w.data := by
    rw [FileManager.processWrite, complete, hmeta, Nat.mod_eq_of_lt (by omega)]
  -- the bit of another piece was set before
  have hbit : ∀ i < m.sha1sums.length, (fm.processWrite wrote w).completedBits.test i = true →
      i = w.index ∨ fm.completedBits.test i = true := by
    intro i hi' ht
    rw [FileManager.processWrite, complete, Bitset.test_set, Bool.or_eq_true,
      decide_eq_true_iff] at ht
    refine ht.imp_left fun hmod => ?_
    rw [Nat.mod_eq_of_lt (by omega), Nat.mod_eq_of_lt (by omega)] at hmod
    exact hmod.symm
  rw [← hfiles] at hgrows
  refine ⟨(map_info_grown hgrows.files).trans h.info, fun f' hf' => ?_, fun i hi' ht => ?_, ?_⟩
  · obtain ⟨f, -, hg⟩ := exists_grown hgrows.files hf'
    rw [hg.info]
    exact hg.length_le
  · rw [hgrows.image]
    by_cases hiw : i = w.index
    · subst hiw
      rw [← hlen, region_overwrite_self (by omega), hlen, hdata]
    · -- the store does not meet another piece
      have hdisjoint : i * m.pieceLength + pieceLen m i ≤ w.index * m.pieceLength ∨
          w.index * m.pieceLength + w.data.length ≤ i * m.pieceLength := by
        rw [hlen]
        exact (Nat.lt_or_gt_of_ne hiw).imp piece_end_le_next piece_end_le_next
      rw [region_overwrite_of_disjoint (by omega) hdisjoint,
        h.pieces i hi' ((hbit i hi' ht).resolve_left hiw)]
  · intro i hi' ht f' hf' p h1 h2 h3 h4
    obtain ⟨f, hf, hg⟩ := exists_grown hgrows.files hf'
    rw [hg.info] at h3 h4 ⊢
    rcases hbit i hi' ht with rfl | hold
    · exact hg.reaches p h1 (hlen ▸ h2) h3 h4
    · exact (h.present i hi' hold f hf p h1 h2 h3 h4).trans_le hg.le_length

/-- **All pieces.** When every piece is completed, every file is whole. -/
theorem Stored.content_eq (h : Stored m orig fm) (hm : Consistent m)
    (ho : orig.length = m.totalSize)
    (hall : ∀ i < m.sha1sums.length, fm.completedBits.test i = true) {f : TorrentFile}
    (hf : f ∈ fm.files) : f.fp.content = region orig f.info.begin f.info.length := by
  obtain ⟨hlaid, hexact, hlength⟩ := h.laid hm
  have hmem : f.info ∈ m.files := h.info ▸ List.mem_map_of_mem hf
  have hend := (hm.laidOut.mem_bounds hmem).2
  have hP := hm.pieceLength_pos
  have himage : image fm.files = orig := by
    refine ext_of_blocks hP (hlength.trans ho.symm) fun i hi => ?_
    have hiN : i < m.sha1sums.length := hm.tiled.lt_count_iff.2 (by omega)
    have hcut : ∀ l : Bytes, l.length = m.totalSize →
        region l (i * m.pieceLength) m.pieceLength =
          region l (i * m.pieceLength) (pieceLen m i) := by
      intro l hl
      rw [region, region, pieceLen, ← hl, ← List.length_drop, ← List.take_take, List.take_length]
    rw [hcut _ hlength, hcut _ ho]
    exact h.pieces i hiN (hall i hiN)
  -- the last byte of the file is there
  have hfull : f.info.length ≤ f.fp.content.length := by
    rcases Nat.eq_zero_or_pos f.info.length with h0 | hpos
    · omega
    · have hlast : f.info.begin + f.info.length - 1 < m.totalSize := by omega
      have hdiv := Nat.div_add_mod (f.info.begin + f.info.length - 1) m.pieceLength
      have hmod := Nat.mod_lt (f.info.begin + f.info.length - 1) hP
      rw [Nat.mul_comm] at hdiv
      have hiN : (f.info.begin + f.info.length - 1) / m.pieceLength < m.sha1sums.length :=
        hm.tiled.lt_count_iff.2 (by omega)
      have hthere := h.present _ hiN (hall _ hiN) f hf (f.info.begin + f.info.length - 1)
        (by omega) (by rw [pieceLen]; omega) (by omega)
        (by rw [TorrentFileInfo.end_]; omega)
      omega
  have hregion := (content_eq_region hlaid hexact (List.mem_map_of_mem hf)).2
  have hnone : f.info.length - f.fp.content.length = 0 := Nat.sub_eq_zero_of_le hfull
  rw [Nat.sub_zero, show flat (fm.files.map padded) = orig from himage] at hregion
  simpa [padded, hnone] using hregion

/-- Every byte of a completed piece is at its place. -/
theorem Stored.getElem?_content (h : Stored m orig fm) (hm : Consistent m) {i : ℕ}
    (hi : i < m.sha1sums.length) (ht : fm.completedBits.test i = true) {f : TorrentFile}
    (hf : f ∈ fm.files) {p : ℕ} (hp : i * m.pieceLength ≤ p)
    (hp' : p < i * m.pieceLength + pieceLen m i) (hb : f.info.begin ≤ p) (he : p < f.info.end_) :
    f.fp.content[p - f.info.begin]? = orig[p]? := by
  obtain ⟨hlaid, hexact, -⟩ := h.laid hm
  have hthere := h.present i hi ht f hf p hp hp' hb he
  have hpadded := (content_eq_region hlaid hexact (List.mem_map_of_mem hf)).2
  have hinfo : (padded f).info = f.info := rfl
  have hlt : p - f.info.begin < f.info.length := by
    rw [TorrentFileInfo.end_] at he
    omega
  have hback : f.info.begin + (p - f.info.begin) = p := by omega
  have hfront : i * m.pieceLength + (p - i * m.pieceLength) = p := by omega
  calc f.fp.content[p - f.info.begin]?
      = (padded f).fp.content[p - f.info.begin]? := (List.getElem?_append_left hthere).symm
    _ = (image fm.files)[p]? := by
        rw [hpadded, hinfo, Nat.sub_zero, getElem?_region, if_pos hlt, hback]
        rfl
    _ = (region (image fm.files) (i * m.pieceLength) (pieceLen m i))[p - i * m.pieceLength]? := by
        rw [getElem?_region, if_pos (by omega), hfront]
    _ = orig[p]? := by
        rw [h.pieces i hi ht, getElem?_region, if_pos (by omega), hfront]

/-! ### Runs -/

/-- What a download into files that grow keeps. -/
def GrowthInv (sha1 : Bytes → Sha1sum) (m : TorrentMeta) (orig : Bytes) (fm : FileManager) : Prop :=
  Inv sha1 m fm ∧ Stored m orig fm

theorem growthInv_step (hm : Consistent m) (ho : orig.length = m.totalSize)
    (ha : AcceptsOnly sha1 m orig) (fm : FileManager) (a : Action) (fm' : FileManager)
    (h : GrowthInv sha1 m orig fm) (hw : Writes fm a) (hr : step sha1 fm a = some fm') :
    GrowthInv sha1 m orig fm' := by
  obtain ⟨hbase, hstored⟩ := h
  refine ⟨inv_step fm a fm' hbase hr, ?_⟩
  cases a with
  | scan stack => exact hw.elim
  | check index from_ data =>
    obtain ⟨⟨ok, fm1⟩, hc, rfl⟩ := Option.map_eq_some_iff.1 hr
    obtain ⟨hf, hb⟩ := writeCheck_frame hc
    exact hstored.of_eq hf hb
  | push n =>
    obtain ⟨hf, hb⟩ := writePush_frame hr
    exact hstored.of_eq hf hb
  | work wrote =>
    rw [step, work] at hr
    cases hq : fm.writeRequests with
    | nil =>
      rw [hq] at hr
      cases hr
    | cons w ws =>
      rw [hq] at hr
      cases hr
      have hp : Passes sha1 m (w.index, w.data) := (hbase.accepted w (by simp [hq])).2
      obtain ⟨s, hs, -⟩ := id hp
      have hi := (List.getElem?_eq_some_iff.1 hs).1
      exact (hstored.processWrite hm ho hbase.metainfo hw hi (ha _ _ hp)).of_eq rfl rfl

/-- **A download into files that grow.** In every run of `writePieceBlock` calls and worker steps
from files that hold anything, of at most their declared lengths, every byte of every completed
piece is at its place in its file; and when all pieces are completed, every file is whole. -/
theorem download_grows (hm : Consistent m) (ho : orig.length = m.totalSize)
    (ha : AcceptsOnly sha1 m orig) (heap heap' : ℤ → UInt8)
    (hf : files.map TorrentFile.info = m.files)
    (hle : ∀ f ∈ files, f.fp.content.length ≤ f.info.length) {as : List Action}
    (hw : Runs.Meets (step sha1) Writes (register heap heap' m files) as)
    (hr : Runs.run (step sha1) (register heap heap' m files) as = some fm) :
    fm.files.map TorrentFile.info = m.files ∧
    (∀ i < m.sha1sums.length, fm.completedBits.test i = true → ∀ f ∈ fm.files, ∀ p,
      i * m.pieceLength ≤ p → p < i * m.pieceLength + pieceLen m i →
        f.info.begin ≤ p → p < f.info.end_ → f.fp.content[p - f.info.begin]? = orig[p]?) ∧
    ((∀ i < m.sha1sums.length, fm.completedBits.test i = true) →
      ∀ f ∈ fm.files, f.fp.content = region orig f.info.begin f.info.length) := by
  have hstart : GrowthInv sha1 m orig (register heap heap' m files) :=
    ⟨inv_register heap heap' m files, stored_register hm heap heap' hf hle⟩
  obtain ⟨-, hstored⟩ := Runs.inv_run (growthInv_step hm ho ha) hstart hw hr
  refine ⟨hstored.info, fun i hi ht f hmem p h1 h2 h3 h4 => ?_, fun hall f hmem => ?_⟩
  · exact hstored.getElem?_content hm hi ht hmem h1 h2 h3 h4
  · exact hstored.content_eq hm ho hall hmem

/-- The files of the three pieces as they are created. -/
def threePiecesCreated : List TorrentFile :=
  [⟨⟨[], 0⟩, ⟨[97], 0, 0, 3⟩⟩, ⟨⟨[], 0⟩, ⟨[98], 1, 3, 2⟩⟩]

theorem download_grows_receiveThree : ∃ fm, Runs.run (step threePiecesSha1)
      (register (fun _ => 0) (fun _ => 0) threePieces threePiecesCreated) receiveThree = some fm ∧
    fm.files.map TorrentFile.info = threePieces.files ∧
    ∀ f ∈ fm.files, f.fp.content = region [1, 2, 3, 4, 5] f.info.begin f.info.length := by
  have hrun : (Runs.run (step threePiecesSha1)
      (register (fun _ => 0) (fun _ => 0) threePieces threePiecesCreated) receiveThree).map
      (fun fm => (List.range 3).all fm.completedBits.test) = some true := by
    decide +kernel
  obtain ⟨fm, hfm, hall⟩ := Option.map_eq_some_iff.1 hrun
  obtain ⟨hinfo, -, hcontent⟩ := download_grows consistent_threePieces rfl acceptsOnly_threePieces
    (fun _ => 0) (fun _ => 0) rfl (by simp [threePiecesCreated]) (writes_receiveThree _) hfm
  exact ⟨fm, hfm, hinfo, hcontent fun i hi => List.all_eq_true.1 hall i (List.mem_range.2 hi)⟩

end FileManager

end CTorrent
