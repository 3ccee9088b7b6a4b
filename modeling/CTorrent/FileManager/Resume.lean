import CTorrent.FileManager.Disk

/-!
# Which pieces a scan tests

`scan_file` skips a file that is not full, and one in whose first piece it misses a byte of the
files before. Of the others it finds the piece that begins before the file and ends in it, those
that end before the last byte of the file, and the last piece of the torrent only if no other one
begins in the file before it. Where such a file ends inside the last piece, the digest of the last
piece is compared with what the buffer holds of the piece before.

* `HeadFull`, `Reads`: where a piece is tested with its own bytes;
* `Overruns`, `staleData`: where the last piece is tested with other bytes;
* `testsOf`, `scanFile_spec`: the tests for a file, and that `scan_file` makes them;
* `Gathered`, `walkBack_turn`, `walkBack_last`, `walkBack_spec`: the loop over the earlier files;
* `gatherHead_spec`, `startFile_spec`, `scanLoop_spec`, `scanRest_spec`: the parts of `scan_file`.
-/

namespace CTorrent

open Splice

namespace FileManager

variable (m : TorrentMeta) (files : List TorrentFile)

/-- The bytes of a piece, as far as they are on disk. -/
def pieceData (i : ℕ) : Bytes := region (image files) (i * m.pieceLength) (pieceLen m i)

/-- The files that hold the beginning of the piece in which `f` begins are full. -/
def HeadFull (f : TorrentFile) : Prop :=
  ∀ g ∈ files, f.info.begin / m.pieceLength * m.pieceLength < g.info.end_ →
    g.info.begin < f.info.begin → Full g

/-- Where `scan_file` tests a piece with its own bytes: it begins before the file, has the full
length and ends in the file; or it begins in the file and ends before its end; or it is the first
one to begin in the file, and the torrent ends there. -/
def Reads (f : TorrentFile) (i : ℕ) : Prop :=
  (i * m.pieceLength < f.info.begin ∧ f.info.begin < (i + 1) * m.pieceLength ∧
      (i + 1) * m.pieceLength ≤ f.info.end_) ∨
    f.info.begin ≤ i * m.pieceLength ∧ ((i + 1) * m.pieceLength < f.info.end_ ∨
      i * m.pieceLength < f.info.begin + m.pieceLength ∧ f.info.end_ = m.totalSize)

/-- The last piece is the first one to begin in the file, which begins inside the piece before it,
and goes on in later files. -/
def Overruns (f : TorrentFile) (l : ℕ) : Prop :=
  l + 1 = m.sha1sums.length ∧ f.info.begin < l * m.pieceLength ∧
    l * m.pieceLength < f.info.begin + m.pieceLength ∧ l * m.pieceLength ≤ f.info.end_ ∧
    f.info.end_ < m.totalSize

/-- What the buffer holds then: what the file has of the last piece, and bytes of the piece before
it. -/
def staleData (f : TorrentFile) (l : ℕ) : Bytes :=
  (overwrite (region (image files) ((l - 1) * m.pieceLength) m.pieceLength) 0
    (region (image files) (l * m.pieceLength) (f.info.end_ - l * m.pieceLength))).take (pieceLen m l)

/-- The tests of the pieces from `i` on that end before the last byte of a file. -/
def interior (f : TorrentFile) (i : ℕ) : Set (ℕ × Bytes) :=
  {t | i ≤ t.1 ∧ (t.1 + 1) * m.pieceLength < f.info.end_ ∧ t.2 = pieceData m files t.1}

/-- The streams of the files before `k` whose first piece ends behind `off` stand at the beginning:
the loop over the earlier files may read from there without seeking. -/
def Rewound (k off : ℕ) (fm : FileManager) : Prop :=
  ∀ j g, j < k → files[j]? = some g → off < (g.info.begin / m.pieceLength + 1) * m.pieceLength →
    (g.info.begin / m.pieceLength + 1) * m.pieceLength ≤ m.totalSize → posAt fm j = 0

/-- The tests for a file behind the piece that begins in an earlier one. -/
def restTests (f : TorrentFile) : Set (ℕ × Bytes) :=
  {t | (t.1 < m.sha1sums.length ∧ f.info.begin ≤ t.1 * m.pieceLength ∧
      ((t.1 + 1) * m.pieceLength < f.info.end_ ∨
        t.1 * m.pieceLength < f.info.begin + m.pieceLength ∧ f.info.end_ = m.totalSize) ∧
      t.2 = pieceData m files t.1) ∨
    Overruns m f t.1 ∧ t.2 = staleData m files f t.1}

/-- The tests that `scan_file` makes for a file. -/
def testsOf (f : TorrentFile) : Set (ℕ × Bytes) :=
  {t | Full f ∧ HeadFull m files f ∧
    (t.1 < m.sha1sums.length ∧ Reads m f t.1 ∧ t.2 = pieceData m files t.1 ∨
      Overruns m f t.1 ∧ t.2 = staleData m files f t.1)}

/-- Of the first `index` files, those that go on behind `a` are full. -/
def FullBefore (index a : ℕ) : Prop :=
  ∀ j g, j < index → files[j]? = some g → a < g.info.end_ → Full g

variable {m files} {sha1 : Bytes → Sha1sum} {f : TorrentFile} {k : ℕ}

/-! ### The parts of a scan -/

theorem fullBefore_succ {index a : ℕ} (hk : files[index]? = some f) (ha : a < f.info.end_) :
    FullBefore files (index + 1) a ↔ Full f ∧ FullBefore files index a := by
  constructor
  · intro hall
    exact ⟨hall index f (Nat.lt_succ_self _) hk ha, fun j g hj => hall j g (Nat.lt_succ_of_lt hj)⟩
  · rintro ⟨hfull, hall⟩ j g hj hg hend
    rcases Nat.lt_succ_iff_lt_or_eq.1 hj with hj | rfl
    · exact hall j g hj hg hend
    · cases hg.symm.trans hk
      exact hfull

/-- The buffer holds the piece at `a`, but its first `bufPos` bytes. -/
structure Gathered (files : List TorrentFile) (a P bufPos : ℕ) (buf : Bytes) : Prop where
  le : bufPos ≤ P
  length : buf.length = P
  tail : region buf bufPos (P - bufPos) = region (image files) (a + bufPos) (P - bufPos)

namespace Gathered

variable {a P bufPos n : ℕ} {buf : Bytes}

/-- The `n` bytes before what the buffer holds are stored. -/
theorem store (h : Gathered files a P (bufPos + n) buf)
    (hn : a + bufPos + n ≤ (image files).length) :
    Gathered files a P bufPos (overwrite buf bufPos (region (image files) (a + bufPos) n)) := by
  have hle := h.le
  have hcut : P - bufPos = n + (P - (bufPos + n)) := by omega
  refine ⟨by omega, ?_, ?_⟩
  · rw [length_overwrite (by rw [length_region hn, h.length]; exact hle), h.length]
  · rw [hcut]
    exact region_overwrite_copy (by rw [h.length]; omega) hn (by rw [h.tail, Nat.add_assoc])

theorem eq (h : Gathered files a P 0 buf) : buf = region (image files) a P := by
  have htail := h.tail
  rwa [Nat.sub_zero, ← h.length, region_full, h.length, Nat.add_zero] at htail

end Gathered

section WalkBack

variable {total a P index bufPos : ℕ} {cf : TorrentFile} {fm : FileManager} {buf : Bytes}

/-- An earlier file that is shorter than what is missing is read whole, and the rest is left to the
files before it; or it is not full. -/
theorem walkBack_turn (hd : LaidFiles files total) (hcf : files[index]? = some cf)
    (hbuf : Gathered files a P bufPos buf) (hlong : cf.info.length < bufPos)
    (hoff : cf.info.begin + cf.info.length = a + bufPos)
    (h : fm.files.map snapshot = files.map snapshot) (hpos : posAt fm index = 0) :
    ∃ fm', Moved fm fm' ∧ (∀ j, j ≠ index → posAt fm' j = posAt fm j) ∧
      (Full cf ∧ (∃ buf', Gathered files a P (bufPos - cf.info.length) buf' ∧
          walkBack (index + 1) fm bufPos buf =
            walkBack index fm' (bufPos - cf.info.length) buf') ∨
        ¬Full cf ∧ walkBack (index + 1) fm bufPos buf = some (fm', none)) := by
  have hmem : cf ∈ files := List.mem_of_getElem? hcf
  have hle := hd.length_le cf hmem
  have hend := hd.end_le hmem
  have hbufPos := hbuf.le
  have hlength := hbuf.length
  rw [TorrentFileInfo.end_] at hend
  obtain ⟨g, hg, hinfo, -⟩ := getElem?_of_snapshot h hcf
  obtain ⟨fm₁, hread, h₁, -, hothers⟩ := freadAt_spec h hcf bufPos
  have hchunk : region cf.fp.content (posAt fm index) bufPos = cf.fp.content := by
    rw [hpos, region, List.drop_zero, List.take_of_length_le (by omega)]
  rw [walkBack, if_neg (by omega)]
  simp only [hg, Option.bind_eq_bind, Option.bind_some, hinfo]
  rw [if_pos hlong]
  simp only [hread, Option.bind_some, hchunk]
  rw [if_neg (by omega)]
  refine ⟨fm₁, h₁, hothers, ?_⟩
  by_cases hfull : Full cf
  · have hlen : cf.fp.content.length = cf.info.length := Nat.le_antisymm hle hfull
    rw [if_neg (not_not.2 hlen), hd.content_eq hmem hfull,
      show cf.info.begin = a + (bufPos - cf.info.length) by omega]
    refine Or.inl ⟨hfull, _, Gathered.store ?_ ?_, rfl⟩
    · rwa [Nat.sub_add_cancel hlong.le]
    · rw [hd.length_image]
      omega
  · have hlen : cf.fp.content.length ≠ cf.info.length := fun he => hfull he.ge
    rw [if_pos hlen]
    exact Or.inr ⟨hfull, rfl⟩

/-- An earlier file that has all that is missing is the last one, if it is full. -/
theorem walkBack_last (hd : LaidFiles files total) (hcf : files[index]? = some cf)
    (hbuf : Gathered files a P bufPos buf) (h0 : 0 < bufPos) (hshort : bufPos ≤ cf.info.length)
    (hoff : cf.info.begin + cf.info.length = a + bufPos)
    (h : fm.files.map snapshot = files.map snapshot) :
    ∃ fm', Moved fm fm' ∧
      (Full cf ∧ walkBack (index + 1) fm bufPos buf =
          some (fm', some (region (image files) a P)) ∨
        ¬Full cf ∧ walkBack (index + 1) fm bufPos buf = some (fm', none)) := by
  have hmem : cf ∈ files := List.mem_of_getElem? hcf
  have hle := hd.length_le cf hmem
  have hlt := hd.length_lt cf hmem
  have hend := hd.end_le hmem
  rw [TorrentFileInfo.end_] at hend
  obtain ⟨g, hg, hinfo, -⟩ := getElem?_of_snapshot h hcf
  obtain ⟨fm₁, hseek, h₁, hat, -⟩ :=
    fseekAt_spec h hcf (show cf.info.length - bufPos < 2 ^ 63 by omega)
  obtain ⟨fm₂, hread, h₂, -, -⟩ := freadAt_spec (h₁.files.trans h) hcf bufPos
  rw [walkBack, if_neg h0.ne']
  simp only [hg, Option.bind_eq_bind, Option.bind_some, hinfo]
  rw [if_neg (not_lt.2 hshort)]
  simp only [hseek, hread, hat, Option.bind_some]
  refine ⟨fm₂, h₁.trans h₂, ?_⟩
  by_cases hfull : Full cf
  · have hinside : a + bufPos ≤ (image files).length := by
      rw [hd.length_image]
      omega
    have hchunk := hd.region_content hmem hfull
      (show cf.info.length - bufPos + bufPos ≤ cf.info.length by omega)
    rw [show cf.info.begin + (cf.info.length - bufPos) = a by omega] at hchunk
    rw [hchunk, if_neg (not_not.2 (length_region hinside))]
    rw [← Nat.zero_add bufPos] at hbuf
    have hwhole := (hbuf.store hinside).eq
    rw [Nat.add_zero] at hwhole
    rw [hwhole]
    exact Or.inl ⟨hfull, rfl⟩
  · have hlen : (region cf.fp.content (cf.info.length - bufPos) bufPos).length ≠ bufPos := by
      rw [Full] at hfull
      simp [region]
      omega
    rw [if_pos hlen]
    exact Or.inr ⟨hfull, rfl⟩

/-- The loop over the earlier files gathers the beginning of the piece at `a`, or stops at a file
that is not full. -/
theorem walkBack_spec (hd : LaidFiles files total) (hindex : index ≤ files.length)
    (hl : LaidOut ((files.take index).map TorrentFile.info) 0 (a + bufPos)) (h0 : 0 < bufPos)
    (hbuf : Gathered files a P bufPos buf) (h : fm.files.map snapshot = files.map snapshot)
    (hpos : ∀ j g, j < index → files[j]? = some g → a < g.info.begin → posAt fm j = 0) :
    ∃ fm', Moved fm fm' ∧
      (FullBefore files index a ∧
          walkBack index fm bufPos buf = some (fm', some (region (image files) a P)) ∨
        ¬FullBefore files index a ∧ walkBack index fm bufPos buf = some (fm', none)) := by
  induction index generalizing fm bufPos buf with
  | zero =>
    rw [List.take_zero] at hl
    have hoff : 0 = a + bufPos := hl
    omega
  | succ index ih =>
    have hcf : files[index]? = some files[index] := List.getElem?_eq_getElem hindex
    generalize files[index] = cf at hcf
    obtain ⟨hl', hoff⟩ : LaidOut ((files.take index).map TorrentFile.info) 0 cf.info.begin ∧
        cf.info.begin + cf.info.length = a + bufPos := by
      rw [List.take_add_one, hcf, Option.toList_some, List.map_append, LaidOut.append_iff] at hl
      obtain ⟨c, h1, rfl, h2⟩ := hl
      exact ⟨h1, h2⟩
    rw [fullBefore_succ hcf (by rw [TorrentFileInfo.end_]; omega)]
    rcases Nat.lt_or_ge cf.info.length bufPos with hlong | hshort
    · obtain ⟨fm₁, h₁, hothers, hturn⟩ := walkBack_turn hd hcf hbuf hlong hoff h
        (hpos index cf (Nat.lt_succ_self _) hcf (by omega))
      obtain ⟨hfull, buf', hbuf', hwalk⟩ | ⟨hfull, hwalk⟩ := hturn
      · rw [hwalk, and_iff_right hfull]
        obtain ⟨fm₂, h₂, hrest⟩ := ih (by omega)
          (by rwa [show a + (bufPos - cf.info.length) = cf.info.begin by omega]) (by omega) hbuf'
          (h₁.files.trans h) fun j g hj hg ha => by
            rw [hothers j hj.ne]
            exact hpos j g (by omega) hg ha
        exact ⟨fm₂, h₁.trans h₂, hrest⟩
      · exact ⟨fm₁, h₁, Or.inr ⟨fun hall => hfull hall.1, hwalk⟩⟩
    · -- the files before end before the piece begins
      have hvacuous : FullBefore files index a := by
        intro j g hj hg ha
        have hbefore := hd.end_le_begin hg hcf hj
        omega
      rw [and_iff_left hvacuous]
      exact walkBack_last hd hcf hbuf h0 hshort hoff h

end WalkBack

/-- A full-length piece inside a file that is full. -/
theorem pieceData_eq (hd : Disk m files) (hf : f ∈ files) (hfull : Full f) {i : ℕ}
    (hbegin : f.info.begin ≤ i * m.pieceLength) (hend : (i + 1) * m.pieceLength ≤ f.info.end_) :
    region f.fp.content (i * m.pieceLength - f.info.begin) m.pieceLength = pieceData m files i ∧
      (pieceData m files i).length = m.pieceLength := by
  have hT := hd.laid.end_le hf
  rw [Nat.add_one_mul] at hend
  rw [TorrentFileInfo.end_] at hend hT
  have hlen : pieceLen m i = m.pieceLength := Nat.min_eq_left (by omega)
  rw [pieceData, hlen, hd.laid.region_content hf hfull (by omega), Nat.add_sub_cancel' hbegin]
  exact ⟨rfl, length_region (by rw [hd.laid.length_image]; omega)⟩

theorem interior_of_le {i : ℕ} (h : f.info.end_ ≤ (i + 1) * m.pieceLength) :
    interior m files f i = ∅ := by
  refine Set.eq_empty_of_forall_notMem fun t ht => ?_
  have hmono := Nat.mul_le_mul_right m.pieceLength (Nat.add_le_add_right ht.1 1)
  have hlt := ht.2.1
  omega

/-- The piece at `i`, and those from `i + 1` on. -/
theorem interior_of_lt {i : ℕ} (h : (i + 1) * m.pieceLength < f.info.end_) :
    interior m files f i = insert (i, pieceData m files i) (interior m files f (i + 1)) := by
  ext ⟨j, data⟩
  simp only [Set.mem_insert_iff, Prod.mk.injEq, interior, Set.mem_ofPred_eq]
  constructor
  · rintro ⟨hij, hin, rfl⟩
    rcases Nat.eq_or_lt_of_le hij with rfl | hlt
    · exact Or.inl ⟨rfl, rfl⟩
    · exact Or.inr ⟨hlt, hin, rfl⟩
  · rintro (⟨rfl, rfl⟩ | ⟨hij, hin⟩)
    · exact ⟨le_rfl, h, rfl⟩
    · exact ⟨by omega, hin⟩

/-- The loop over the pieces tests those that end before the last byte of the file. -/
theorem scanLoop_spec (hd : Disk m files) (hk : files[k]? = some f) (hfull : Full f) {count : ℕ} :
    ∀ {done : Set (ℕ × Bytes)} {fm : FileManager} {buf : Bytes} {i : ℕ},
      count = m.sha1sums.length - 1 - i → f.info.begin ≤ i * m.pieceLength →
      i * m.pieceLength ≤ f.info.end_ → buf.length = m.pieceLength →
      Scanned sha1 m files done fm → posAt fm k = i * m.pieceLength - f.info.begin →
      ∃ fm' buf' real, scanLoop sha1 k f.info.end_ count fm buf (i * m.pieceLength) i =
          some (fm', buf', real) ∧
        Scanned sha1 m files (done ∪ interior m files f i) fm' ∧
        (∀ j, real = some j → j + 1 < m.sha1sums.length) ∧
        (count = 0 → fm' = fm ∧ buf' = buf ∧ real = none) := by
  have hmem : f ∈ files := List.mem_of_getElem? hk
  have hend := hd.laid.end_le hmem
  have hT := hd.consistent.total_lt
  induction count with
  | zero =>
    intro done fm buf i hcount _ _ _ h _
    -- behind the last piece but one there is none that ends before the file
    have hnext : ¬(i + 1) * m.pieceLength < f.info.end_ := fun hlt => by
      have hi := hd.consistent.tiled.lt_count_iff.2 (hlt.trans_le hend)
      omega
    refine ⟨fm, buf, none, rfl, ?_, by simp, fun _ => ⟨rfl, rfl, rfl⟩⟩
    rwa [interior_of_le (not_lt.1 hnext), Set.union_empty]
  | succ count ih =>
    intro done fm buf i hcount hbegin hle hbuf h hpos
    have hnext : (i + 1) * m.pieceLength < m.totalSize :=
      hd.consistent.tiled.lt_count_iff.1 (by omega)
    have hsucc := Nat.add_one_mul i m.pieceLength
    rw [scanLoop, h.metainfo, ← hsucc, Nat.mod_eq_of_lt (by omega)]
    by_cases hstop : (i + 1) * m.pieceLength ≥ f.info.end_
    · rw [if_pos hstop]
      refine ⟨fm, buf, some i, rfl, ?_, fun j hj => ?_, by simp⟩
      · rwa [interior_of_le hstop, Set.union_empty]
      · cases hj
        omega
    · obtain ⟨hdata, hlen⟩ := pieceData_eq hd hmem hfull hbegin (by omega)
      obtain ⟨fm₁, hread, h₁, hpos₁, -⟩ := freadAt_spec h.files hk m.pieceLength
      rw [hpos, hdata] at hread hpos₁
      obtain ⟨fm₂, htest, h₂, hfiles⟩ := completeIfEligible_spec hd.consistent.count_lt (h.moved h₁)
        (show i < m.sha1sums.length by omega) (pieceData m files i)
      have hwhole : overwrite buf 0 (pieceData m files i) = pieceData m files i :=
        overwrite_all (by rw [hlen, hbuf])
      rw [if_neg hstop]
      simp only [hread, hwhole, htest, Option.bind_eq_bind, Option.bind_some]
      rw [h₂.metainfo, ← hsucc, Nat.mod_eq_of_lt (by omega)]
      have hpos₂ : posAt fm₂ k = (i + 1) * m.pieceLength - f.info.begin := by
        rw [posAt, hfiles, ← posAt, hpos₁, hlen]
        omega
      obtain ⟨fm', buf', real, hloop, h', hreal, -⟩ :=
        ih (show count = m.sha1sums.length - 1 - (i + 1) by omega) (by omega) (by omega) hlen h₂ hpos₂
      refine ⟨fm', buf', real, hloop, ?_, hreal, by simp⟩
      rwa [interior_of_lt (not_le.1 hstop), Set.union_insert, ← Set.insert_union]

/-- Behind the first piece that begins in the file, the tests are those of the loop, and that of
the last piece if it is this one. -/
theorem restTests_eq (hd : Disk m files) (hf : f ∈ files) {i : ℕ}
    (hbegin : f.info.begin ≤ i * m.pieceLength)
    (hfirst : i * m.pieceLength < f.info.begin + m.pieceLength)
    (hle : i * m.pieceLength ≤ f.info.end_)
    (hstale : i + 1 = m.sha1sums.length → f.info.end_ < m.totalSize →
      f.info.begin < i * m.pieceLength) :
    restTests m files f = interior m files f i ∪
      if i + 1 = m.sha1sums.length then
        {(i, if f.info.end_ = m.totalSize then pieceData m files i else staleData m files f i)}
      else ∅ := by
  have hend := hd.laid.end_le hf
  have hge : ∀ j, f.info.begin ≤ j * m.pieceLength → i ≤ j := by
    intro j hj
    by_contra hlt
    have hmul := Nat.mul_le_mul_right m.pieceLength (show j + 1 ≤ i by omega)
    rw [Nat.add_one_mul] at hmul
    omega
  have heq : ∀ j, f.info.begin ≤ j * m.pieceLength →
      j * m.pieceLength < f.info.begin + m.pieceLength → j = i := by
    intro j hj hlt
    by_contra hne
    have hij := hge j hj
    have hmul := Nat.mul_le_mul_right m.pieceLength (show i + 1 ≤ j by omega)
    rw [Nat.add_one_mul] at hmul
    omega
  ext ⟨j, data⟩
  simp only [restTests, interior, Set.mem_union, Set.mem_ofPred_eq, Set.mem_ite_empty_right,
    Set.mem_singleton_iff, Prod.mk.injEq]
  constructor
  · rintro (⟨hj, hbj, hin | ⟨hlt, hT⟩, hdata⟩ | ⟨⟨hlast, hbj, hlt, -, hT⟩, hdata⟩)
    · exact Or.inl ⟨hge j hbj, hin, hdata⟩
    · obtain rfl := heq j hbj hlt
      rcases Nat.eq_or_lt_of_le (Nat.succ_le_of_lt hj) with hlast | hnext
      · exact Or.inr ⟨hlast, rfl, by rw [if_pos hT, hdata]⟩
      · exact Or.inl ⟨le_rfl, hT ▸ hd.consistent.tiled.lt_count_iff.1 hnext, hdata⟩
    · obtain rfl := heq j hbj.le hlt
      exact Or.inr ⟨hlast, rfl, by rw [if_neg hT.ne, hdata]⟩
  · rintro (⟨hij, hin, hdata⟩ | ⟨hlast, rfl, hdata⟩)
    · have hnext := hd.consistent.tiled.lt_count_iff.2 (hin.trans_le hend)
      have hmul := Nat.mul_le_mul_right m.pieceLength hij
      exact Or.inl ⟨by omega, hbegin.trans hmul, Or.inl hin, hdata⟩
    · split_ifs at hdata with hT
      · exact Or.inl ⟨by omega, hbegin, Or.inr ⟨hfirst, hT⟩, hdata⟩
      · have hlt := lt_of_le_of_ne hend hT
        exact Or.inr ⟨⟨hlast, hstale hlast hlt, hfirst, hle, hlt⟩, hdata⟩

/-- What the buffer holds for the last piece, where it is the first one to begin in the file. -/
theorem lastData_eq (hd : Disk m files) (hf : f ∈ files) (hfull : Full f) {i : ℕ} {buf : Bytes}
    (hlast : i + 1 = m.sha1sums.length) (hbegin : f.info.begin ≤ i * m.pieceLength)
    (hle : i * m.pieceLength ≤ f.info.end_)
    (hstale : f.info.end_ < m.totalSize →
      buf = region (image files) ((i - 1) * m.pieceLength) m.pieceLength) :
    (overwrite buf 0 (region f.fp.content (i * m.pieceLength - f.info.begin) (pieceLen m i))).take
        (pieceLen m i) =
      if f.info.end_ = m.totalSize then pieceData m files i else staleData m files f i := by
  have hend := hd.laid.end_le hf
  have hlen : f.fp.content.length = f.info.length := Nat.le_antisymm (hd.length_le f hf) hfull
  have hT : m.totalSize ≤ (i + 1) * m.pieceLength := hd.consistent.tiled.total_le hlast.ge
  have hpiece : pieceLen m i = m.totalSize - i * m.pieceLength := by
    rw [Nat.add_one_mul] at hT
    exact Nat.min_eq_right (by omega)
  rw [TorrentFileInfo.end_] at hend hle
  -- the read stops at the end of the file
  have hclip : region f.fp.content (i * m.pieceLength - f.info.begin) (pieceLen m i) =
      region (image files) (i * m.pieceLength) (f.info.end_ - i * m.pieceLength) := by
    have hrest : region f.fp.content (i * m.pieceLength - f.info.begin) (pieceLen m i) =
        region f.fp.content (i * m.pieceLength - f.info.begin)
          (f.info.end_ - i * m.pieceLength) := by
      rw [TorrentFileInfo.end_, region, region, List.take_of_length_le (by simp; omega),
        List.take_of_length_le (by simp; omega)]
    rw [hrest, TorrentFileInfo.end_, hd.laid.region_content hf hfull (by omega),
      Nat.add_sub_cancel' hbegin]
  rw [hclip]
  split_ifs with he
  · rw [he, ← hpiece, ← pieceData]
    have hdata : (pieceData m files i).length = pieceLen m i :=
      length_region (by rw [hd.laid.length_image]; omega)
    rw [overwrite, List.take_zero, List.nil_append, List.take_append_of_le_length hdata.ge,
      ← hdata, List.take_length]
  · rw [hstale (lt_of_le_of_ne (hd.laid.end_le hf) he), staleData]

theorem Scanned.lastPieceLength_eq (hd : Disk m files) {done : Set (ℕ × Bytes)} {fm : FileManager}
    (h : Scanned sha1 m files done fm) {i : ℕ} (hlast : i + 1 = m.sha1sums.length) :
    fm.lastPieceLength = some (pieceLen m i : ℤ) := by
  have hcount := hd.consistent.count_lt
  have hlen := hd.consistent.pieceLength_eq h.metainfo h.length_eq
    (show i < m.sha1sums.length by omega)
  rwa [pieceLength, if_pos (by rw [h.length_eq, sub64_of_le (by omega) (by omega)]; omega)] at hlen

/-- Behind the piece that begins in an earlier file. -/
theorem scanRest_spec (hd : Disk m files) (hk : files[k]? = some f) (hfull : Full f) {i : ℕ}
    {done : Set (ℕ × Bytes)} {fm : FileManager} {buf : Bytes}
    (hbegin : f.info.begin ≤ i * m.pieceLength)
    (hfirst : i * m.pieceLength < f.info.begin + m.pieceLength)
    (hle : i * m.pieceLength ≤ f.info.end_) (hbuf : buf.length = m.pieceLength)
    (hstale : i + 1 = m.sha1sums.length → f.info.end_ < m.totalSize →
      f.info.begin < i * m.pieceLength ∧
        buf = region (image files) ((i - 1) * m.pieceLength) m.pieceLength)
    (h : Scanned sha1 m files done fm) :
    ∃ fm', scanRest sha1 k f.info.end_ fm buf f.info.begin (i * m.pieceLength) i = some fm' ∧
      Scanned sha1 m files (done ∪ restTests m files f) fm' := by
  have hmem : f ∈ files := List.mem_of_getElem? hk
  have hend := hd.laid.end_le hmem
  have hT := hd.consistent.total_lt
  have hpos := hd.consistent.tiled.count_pos
  have hcount := hd.consistent.count_lt
  rw [restTests_eq hd hmem hbegin hfirst hle fun hlast hlt => (hstale hlast hlt).1]
  obtain ⟨fm₁, hseek, h₁, hat, -⟩ :=
    fseekAt_spec h.files hk (show i * m.pieceLength - f.info.begin < 2 ^ 63 by omega)
  obtain ⟨fm₂, buf₂, real, hloop, h₂, hreal, hzero⟩ :=
    scanLoop_spec hd hk hfull rfl hbegin hle hbuf (h.moved h₁) hat
  rw [scanRest, sub64_of_le (by omega) hbegin, h.length_eq, sub64_of_le (by omega) (by omega)]
  simp only [hseek, hloop, Option.bind_eq_bind, Option.bind_some]
  by_cases hlast : i + 1 = m.sha1sums.length
  · obtain ⟨rfl, rfl, rfl⟩ := hzero (by omega)
    have hlen := hd.consistent.pieceLen_lt i
    have hsize : toSize (pieceLen m i : ℤ) = pieceLen m i := by
      rw [toSize]
      omega
    obtain ⟨fm₃, hread, h₃, -, -⟩ := freadAt_spec h₂.files hk (pieceLen m i)
    rw [hat] at hread
    obtain ⟨fm₄, htest, h₄, -⟩ := completeIfEligible_spec hcount (h₂.moved h₃)
      (show i < m.sha1sums.length by omega)
      (if f.info.end_ = m.totalSize then pieceData m files i else staleData m files f i)
    rw [Option.getD_none, if_pos (by omega), h₂.lastPieceLength_eq hd hlast]
    simp only [Option.bind_some, hsize, hread,
      lastData_eq hd hmem hfull hlast hbegin hle fun hlt => (hstale hlast hlt).2, htest]
    rw [if_pos hlast, ← Set.union_assoc, Set.union_singleton]
    exact ⟨fm₄, rfl, h₄⟩
  · have hother : real.getD i ≠ m.sha1sums.length - 1 := by
      cases real with
      | none => exact fun he => hlast (by rw [Option.getD_none] at he; omega)
      | some j =>
        have hj := hreal j rfl
        rw [Option.getD_some]
        omega
    rw [if_neg hother]
    rw [if_neg hlast, Set.union_empty]
    exact ⟨fm₂, rfl, h₂⟩

/-! ### A file -/

section First

variable {i : ℕ} (hi : i * m.pieceLength ≤ f.info.begin)
  (hlt : f.info.begin < (i + 1) * m.pieceLength)

include hi hlt

/-- A file can only have tests if the piece in which it begins ends in it. -/
theorem starts_of_test (ht : Tiled m) {t : ℕ × Bytes} (htest : t ∈ testsOf m files f) :
    i < m.sha1sums.length ∧ i * m.pieceLength + pieceLen m i ≤ f.info.end_ := by
  have hP := ht.pieceLength_pos
  have hlen : i * m.pieceLength + pieceLen m i ≤ (i + 1) * m.pieceLength :=
    piece_end_le_next (Nat.lt_succ_self i)
  have hlater : ∀ j, i < j → (i + 1) * m.pieceLength ≤ j * m.pieceLength := fun j hj =>
    Nat.mul_le_mul_right _ hj
  obtain ⟨-, -, ⟨hj, ⟨hbj, hbj', hend⟩ | ⟨hbj, hin | ⟨-, hT⟩⟩, -⟩ | ⟨⟨hl, hbl, -, hend, -⟩, -⟩⟩ := htest
  · have hji : t.1 = i :=
      (Nat.div_eq_of_lt_le hbj.le hbj').symm.trans (Nat.div_eq_of_lt_le hi hlt)
    rw [hji] at hj hend
    exact ⟨hj, by omega⟩
  · have hij : i ≤ t.1 := Nat.le_of_mul_le_mul_right (hi.trans hbj) hP
    have hmul := Nat.mul_le_mul_right m.pieceLength (Nat.add_le_add_right hij 1)
    exact ⟨by omega, by omega⟩
  · have hij : i ≤ t.1 := Nat.le_of_mul_le_mul_right (hi.trans hbj) hP
    exact ⟨by omega, hT ▸ ht.piece_end_le (by omega)⟩
  · have hil : i < t.1 := Nat.lt_of_mul_lt_mul_right (hi.trans_lt hbl)
    have hnext := hlater _ hil
    exact ⟨by omega, by omega⟩

/-- The tests for a file that begins inside a piece: there are none if that piece does not end in
the file, or if some file with its beginning is not full. -/
theorem mem_testsOf_inside (ht : Tiled m) (hd : LaidFiles files m.totalSize) (hf : f ∈ files)
    (hfull : Full f) (hin : i * m.pieceLength < f.info.begin) (t : ℕ × Bytes) :
    t ∈ testsOf m files f ↔ (HeadFull m files f ∧ (i + 1) * m.pieceLength ≤ f.info.end_) ∧
      t ∈ insert (i, pieceData m files i) (restTests m files f) := by
  have hT := hd.end_le hf
  have hlater : ∀ j, f.info.begin ≤ j * m.pieceLength →
      (i + 1) * m.pieceLength ≤ j * m.pieceLength := fun j hj =>
    Nat.mul_le_mul_right _ (Nat.lt_of_mul_lt_mul_right (hin.trans_le hj))
  obtain ⟨j, data⟩ := t
  simp only [testsOf, restTests, Reads, Set.mem_ofPred_eq, Set.mem_insert_iff, Prod.mk.injEq]
  constructor
  · rintro ⟨-, hhead, ⟨hj, ⟨hbj, hbj', hend⟩ | ⟨hbj, htest⟩, hdata⟩ | ⟨hover, hdata⟩⟩
    · obtain rfl : j = i :=
        (Nat.div_eq_of_lt_le hbj.le hbj').symm.trans (Nat.div_eq_of_lt_le hi hlt)
      exact ⟨⟨hhead, hend⟩, Or.inl ⟨rfl, hdata⟩⟩
    · have hnext := hlater j hbj
      have hjT := ht.lt_count_iff.1 hj
      have hsucc := Nat.add_one_mul j m.pieceLength
      exact ⟨⟨hhead, by omega⟩, Or.inr (Or.inl ⟨hj, hbj, htest, hdata⟩)⟩
    · exact ⟨⟨hhead, (hlater j hover.2.1.le).trans hover.2.2.2.1⟩, Or.inr (Or.inr ⟨hover, hdata⟩)⟩
  · rintro ⟨⟨hhead, hend⟩, ⟨rfl, hdata⟩ | ⟨hj, hbj, htest, hdata⟩ | ⟨hover, hdata⟩⟩
    · have hsucc := Nat.add_one_mul j m.pieceLength
      have hj := ht.lt_count_iff.2 (show j * m.pieceLength < m.totalSize by omega)
      exact ⟨hfull, hhead, Or.inl ⟨hj, Or.inl ⟨hin, hlt, hend⟩, hdata⟩⟩
    · exact ⟨hfull, hhead, Or.inl ⟨hj, Or.inr ⟨hbj, htest⟩, hdata⟩⟩
    · exact ⟨hfull, hhead, Or.inr ⟨hover, hdata⟩⟩

/-- The tests for a file that begins where a piece does. -/
theorem testsOf_aligned (hd : LaidFiles files m.totalSize) (hf : f ∈ files) (hfull : Full f)
    (halign : f.info.begin = i * m.pieceLength) : testsOf m files f = restTests m files f := by
  have hdiv : f.info.begin / m.pieceLength = i := Nat.div_eq_of_lt_le hi hlt
  have hhead : HeadFull m files f := by
    intro g hg hend hbegin
    obtain ⟨j, hj⟩ := List.mem_iff_getElem?.1 hg
    obtain ⟨k, hk⟩ := List.mem_iff_getElem?.1 hf
    rw [hdiv, ← halign] at hend
    rcases Nat.lt_or_ge j k with hjk | hkj
    · have hbefore := hd.end_le_begin hj hk hjk
      omega
    · have hbefore := hd.begin_le_begin hk hj hkj
      omega
  ext ⟨j, data⟩
  simp only [testsOf, restTests, Reads, Set.mem_ofPred_eq]
  constructor
  · rintro ⟨-, -, ⟨hj, ⟨hbj, hbj', -⟩ | ⟨hbj, htest⟩, hdata⟩ | htest⟩
    · have hji : j = i :=
        (Nat.div_eq_of_lt_le hbj.le hbj').symm.trans (Nat.div_eq_of_lt_le hi hlt)
      rw [hji, halign] at hbj
      exact absurd hbj (lt_irrefl _)
    · exact Or.inl ⟨hj, hbj, htest, hdata⟩
    · exact Or.inr htest
  · rintro (⟨hj, hbj, htest, hdata⟩ | htest)
    · exact ⟨hfull, hhead, Or.inl ⟨hj, Or.inr ⟨hbj, htest⟩, hdata⟩⟩
    · exact ⟨hfull, hhead, Or.inr htest⟩

/-- Behind the end of the piece in which a file begins nothing is asked of the streams. -/
theorem rewound_of_le (hd : LaidFiles files m.totalSize) (hk : files[k]? = some f)
    (fm : FileManager)
    (h : (i + 1) * m.pieceLength ≤ f.info.end_ ∨ m.totalSize < (i + 1) * m.pieceLength) :
    Rewound m files (k + 1) f.info.end_ fm := by
  intro j g hj hg hoff hT
  have hbegin := hd.begin_le_begin hg hk (Nat.lt_succ_iff.1 hj)
  have hle : g.info.begin / m.pieceLength ≤ i := by
    rw [← Nat.div_eq_of_lt_le hi hlt]
    exact Nat.div_le_div_right hbegin
  rcases Nat.eq_or_lt_of_le hle with heq | hless
  · rw [heq] at hoff hT
    omega
  · have hmul := Nat.mul_le_mul_right m.pieceLength (Nat.succ_le_of_lt hless)
    have hend : f.info.begin ≤ f.info.end_ := Nat.le_add_right _ _
    rw [Nat.succ_eq_add_one] at hmul
    omega

/-- The files before `f` that hold the beginning of its piece; an empty one is full. -/
theorem headFull_iff (hd : LaidFiles files m.totalSize) (hk : files[k]? = some f) :
    HeadFull m files f ↔ FullBefore files k (i * m.pieceLength) := by
  rw [HeadFull, Nat.div_eq_of_lt_le hi hlt]
  constructor
  · intro hall j g hj hg hgend
    have hbefore := hd.end_le_begin hg hk hj
    by_cases hgbegin : g.info.begin < f.info.begin
    · exact hall g (List.mem_of_getElem? hg) hgend hgbegin
    · rw [TorrentFileInfo.end_] at hbefore
      have hzero : g.info.length = 0 := by omega
      rw [Full, hzero]
      exact Nat.zero_le _
  · intro hall g hg hgend hgbegin
    obtain ⟨j, hj⟩ := List.mem_iff_getElem?.1 hg
    refine hall j g ?_ hj hgend
    by_contra hkj
    have hle := hd.begin_le_begin hk hj (by omega)
    omega

/-- The reads for the piece that begins before the file. -/
theorem gatherHead_spec (hd : LaidFiles files m.totalSize) (hk : files[k]? = some f)
    (hfull : Full f) (hin : i * m.pieceLength < f.info.begin) {fm : FileManager} {buf : Bytes}
    (hbuf : buf.length = m.pieceLength) (hm : fm.metainfo = m)
    (h : fm.files.map snapshot = files.map snapshot) (hpos : posAt fm k = 0)
    (hrew : Rewound m files k f.info.begin fm) :
    ∃ fm', Moved fm fm' ∧
      ((HeadFull m files f ∧ (i + 1) * m.pieceLength ≤ f.info.end_) ∧
          gatherHead k fm f.info buf (i * m.pieceLength) =
            some (fm', some (region (image files) (i * m.pieceLength) m.pieceLength)) ∨
        ¬ (HeadFull m files f ∧ (i + 1) * m.pieceLength ≤ f.info.end_) ∧
          gatherHead k fm f.info buf (i * m.pieceLength) = some (fm', none)) := by
  have hmem : f ∈ files := List.mem_of_getElem? hk
  have hend := hd.end_le hmem
  have hsucc := Nat.add_one_mul i m.pieceLength
  obtain ⟨bufPos, hbufPos⟩ := Nat.exists_eq_add_of_le hi
  have hsub : f.info.begin - i * m.pieceLength = bufPos := by omega
  obtain ⟨fm₁, hread, h₁, -, hothers⟩ := freadAt_spec h hk (m.pieceLength - bufPos)
  rw [hpos] at hread
  rw [gatherHead, hm, hsub]
  simp only [hread, Option.bind_eq_bind, Option.bind_some, h₁.metainfo.trans hm]
  by_cases hfits : (i + 1) * m.pieceLength ≤ f.info.end_
  · have hfits' := hfits
    rw [TorrentFileInfo.end_] at hend hfits'
    have hchunk := hd.region_content hmem hfull
      (show 0 + (m.pieceLength - bufPos) ≤ f.info.length by omega)
    rw [Nat.add_zero, hbufPos] at hchunk
    have hsize : (region (image files) (i * m.pieceLength + bufPos)
        (m.pieceLength - bufPos)).length = m.pieceLength - bufPos :=
      length_region (by rw [hd.length_image]; omega)
    rw [hchunk, if_neg (not_not.2 hsize), and_iff_left hfits, hd.index k f hk]
    -- the buffer, with the part of the piece that the file has
    have hbuf₁ : Gathered files (i * m.pieceLength) m.pieceLength bufPos (overwrite buf bufPos
        (region (image files) (i * m.pieceLength + bufPos) (m.pieceLength - bufPos))) := by
      refine Gathered.store ⟨by omega, hbuf, ?_⟩ (by rw [hd.length_image]; omega)
      rw [Nat.add_sub_cancel' (by omega), Nat.sub_self, region_zero_length, region_zero_length]
    have hstreams : ∀ j g, j < k → files[j]? = some g → i * m.pieceLength < g.info.begin →
        posAt fm₁ j = 0 := by
      intro j g hj hg hbegin
      rw [hothers j hj.ne]
      have hle := hd.begin_le_begin hg hk hj.le
      have hdivg : g.info.begin / m.pieceLength = i :=
        Nat.div_eq_of_lt_le hbegin.le (hle.trans_lt hlt)
      refine hrew j g hj hg ?_ ?_ <;> rw [hdivg]
      · exact hlt
      · exact hfits.trans (hd.end_le hmem)
    obtain ⟨fm₂, h₂, hwalk⟩ := walkBack_spec hd (List.getElem?_eq_some_iff.1 hk).1.le
      (hbufPos ▸ hd.laidOut_take hk) (by omega) hbuf₁ (h₁.files.trans h) hstreams
    rw [← headFull_iff hi hlt hd hk] at hwalk
    exact ⟨fm₂, h₁.trans h₂, hwalk⟩
  · rw [TorrentFileInfo.end_] at hfits
    have hlen : f.fp.content.length = f.info.length := Nat.le_antisymm (hd.length_le f hmem) hfull
    have hshort : (region f.fp.content 0 (m.pieceLength - bufPos)).length ≠
        m.pieceLength - bufPos := by
      simp [region]
      omega
    rw [if_pos hshort]
    exact ⟨fm₁, h₁, Or.inr ⟨fun hyes => hfits hyes.2, rfl⟩⟩

end First

theorem pieceOf_bounds (begin : ℕ) {P : ℕ} (hP : 0 < P) :
    pieceOf begin P * P ≤ begin ∧ begin < (pieceOf begin P + 1) * P := by
  have hdiv : pieceOf begin P = begin / P := by
    rw [pieceOf]
    split_ifs with hpos
    · rfl
    · rw [Nat.eq_zero_of_not_pos hpos, Nat.zero_div]
  rw [hdiv, Nat.add_one_mul]
  exact ⟨Nat.div_mul_le_self _ _, Nat.lt_div_mul_add hP⟩

/-- The stream of a file goes back to the beginning, and no other one moves. -/
theorem Rewound.succ {fm fm' : FileManager} (h : Rewound m files k f.info.begin fm)
    (hat : posAt fm' k = 0) (hothers : ∀ j, j ≠ k → posAt fm' j = posAt fm j) {off : ℕ}
    (hoff : f.info.begin ≤ off) : Rewound m files (k + 1) off fm' := by
  intro j g hj hg hlt hle
  rcases Nat.lt_succ_iff_lt_or_eq.1 hj with hj | rfl
  · rw [hothers j hj.ne]
    exact h j g hj hg (hoff.trans_lt hlt) hle
  · exact hat

/-- The length that `scan_file` takes for the piece in which a file begins. It is that of the piece,
unless the file is an empty one at the end of a torrent of whole pieces. -/
theorem Streaming.pieceSize (ht : Tiled m) {fm : FileManager} (h : Streaming m files fm) (i : ℕ) :
    ∃ length, fm.pieceSize i = some length ∧ (i < m.sha1sums.length → length = pieceLen m i) := by
  by_cases hi : i < m.sha1sums.length
  · exact ⟨_, ht.pieceSize_eq h.metainfo h.length_eq hi, fun _ => rfl⟩
  · have hP := ht.pieceLength_pos
    obtain ⟨length, hlength⟩ := Option.isSome_iff_exists.1
      (isSome_pieceSize (show fm.metainfo.pieceLength ≠ 0 by rw [h.metainfo]; omega) i)
    exact ⟨length, hlength, fun hlt => absurd hlt hi⟩

/-- Where `scan_file` may stand before its first test, in a file that begins in the piece `i`. -/
inductive Starts (m : TorrentMeta) (files : List TorrentFile) (f : TorrentFile) (i : ℕ) :
    Start → Prop where
  | returned (tests : testsOf m files f = ∅) : Starts m files f i .returned
  | aligned (buf : Bytes) (full : Full f) (length : buf.length = m.pieceLength)
      (begin : f.info.begin = i * m.pieceLength)
      (le_end : (i + 1) * m.pieceLength ≤ f.info.end_ ∨ m.totalSize ≤ f.info.end_) :
      Starts m files f i (.aligned f.info buf (i * m.pieceLength) i)
  | gathered (full : Full f) (head : HeadFull m files f) (lt_begin : i * m.pieceLength < f.info.begin)
      (le_end : (i + 1) * m.pieceLength ≤ f.info.end_) :
      Starts m files f i (.gathered f.info
        (region (image files) (i * m.pieceLength) m.pieceLength) ((i + 1) * m.pieceLength) i)

/-- Up to its first test `scan_file` moves streams only. It returns there with the stream at the
beginning, unless the streams do not matter any more. -/
theorem startFile_spec (ht : Tiled m) (hd : LaidFiles files m.totalSize) (hk : files[k]? = some f)
    (stack : ℕ → UInt8) {fm : FileManager} (h : Streaming m files fm)
    (hrew : Rewound m files k f.info.begin fm) :
    ∃ fm' start, startFile stack fm k = some (fm', start) ∧ Moved fm fm' ∧
      Starts m files f (pieceOf f.info.begin m.pieceLength) start ∧
      (start = .returned ∧ Rewound m files (k + 1) f.info.end_ fm' ∨
        ∀ fm'', Rewound m files (k + 1) f.info.end_ fm'') := by
  have hmem : f ∈ files := List.mem_of_getElem? hk
  have hend := hd.end_le hmem
  have hT := ht.total_lt
  have hP := ht.pieceLength_pos
  have hbegin : f.info.begin ≤ f.info.end_ := Nat.le_add_right _ _
  obtain ⟨hi, hlt⟩ := pieceOf_bounds f.info.begin hP
  obtain ⟨g, hg, hinfo, hcontent⟩ := getElem?_of_snapshot h.files hk
  obtain ⟨fm₁, hseek, hmoved, hat, hothers⟩ := fseekAt_spec h.files hk (show 0 < 2 ^ 63 by omega)
  have h₁ := h.moved hmoved
  obtain ⟨length, hsize, hlen⟩ := h₁.pieceSize ht (pieceOf f.info.begin m.pieceLength)
  rw [startFile]
  simp only [hg, hseek, hinfo, hcontent, Option.bind_eq_bind, Option.bind_some, h₁.metainfo, hsize]
  generalize pieceOf f.info.begin m.pieceLength = i at hi hlt hsize hlen
  have hsucc := Nat.add_one_mul i m.pieceLength
  have hskip : Rewound m files (k + 1) f.info.end_ fm₁ := hrew.succ hat hothers hbegin
  by_cases hfull : Full f
  · rw [if_neg (by rw [Full] at hfull; omega), if_neg (by omega), ← TorrentFileInfo.end_,
      Nat.mod_eq_of_lt (show f.info.end_ < 2 ^ 64 by omega),
      Nat.mod_eq_of_lt (show i * m.pieceLength < 2 ^ 64 by omega)]
    by_cases hiN : i < m.sha1sums.length
    · have hpieceEnd := ht.piece_end_le hiN
      have hmin : pieceLen m i = min m.pieceLength (m.totalSize - i * m.pieceLength) := rfl
      rw [hlen hiN, Nat.mod_eq_of_lt (show i * m.pieceLength + pieceLen m i < 2 ^ 64 by omega)]
      by_cases hearly : i * m.pieceLength + pieceLen m i > f.info.end_
      · rw [if_pos hearly]
        refine ⟨fm₁, _, rfl, hmoved, .returned ?_, Or.inl ⟨rfl, hskip⟩⟩
        exact Set.eq_empty_of_forall_notMem fun t htest =>
          hearly.not_ge (starts_of_test hi hlt ht htest).2
      · rw [if_neg hearly]
        have hstreams : ∀ fm'', Rewound m files (k + 1) f.info.end_ fm'' := fun fm'' =>
          rewound_of_le hi hlt hd hk fm'' (by omega)
        have hbuf : ((List.range m.pieceLength).map stack).length = m.pieceLength := by simp
        by_cases hin : i * m.pieceLength < f.info.begin
        · rw [if_pos hin]
          obtain ⟨fm₂, hmoved₂, ⟨⟨hhead, hfits⟩, hgather⟩ | ⟨hno, hgather⟩⟩ :=
            gatherHead_spec hi hlt hd hk hfull hin hbuf h₁.metainfo h₁.files hat
              fun j g hj => hrew.succ hat hothers le_rfl j g (Nat.lt_succ_of_lt hj)
          · rw [hgather, Option.bind_some,
              show i * m.pieceLength + pieceLen m i = (i + 1) * m.pieceLength by omega]
            exact ⟨fm₂, _, rfl, hmoved.trans hmoved₂, .gathered hfull hhead hin hfits,
              Or.inr hstreams⟩
          · rw [hgather, Option.bind_some]
            refine ⟨fm₂, _, rfl, hmoved.trans hmoved₂, .returned ?_, Or.inr hstreams⟩
            exact Set.eq_empty_of_forall_notMem fun t htest =>
              hno ((mem_testsOf_inside hi hlt ht hd hmem hfull hin t).1 htest).1
        · rw [if_neg hin]
          exact ⟨fm₁, _, rfl, hmoved, .aligned _ hfull hbuf (by omega) (by omega), Or.inr hstreams⟩
    · -- the file is empty, at the end of a torrent of whole pieces
      have hge := ht.total_le (Nat.not_lt.1 hiN)
      split_ifs
      · refine ⟨fm₁, _, rfl, hmoved, .returned ?_, Or.inl ⟨rfl, hskip⟩⟩
        exact Set.eq_empty_of_forall_notMem fun t htest => hiN (starts_of_test hi hlt ht htest).1
      · omega
      · exact ⟨fm₁, _, rfl, hmoved, .aligned _ hfull (by simp) (by omega) (by omega),
          Or.inr fun fm'' => rewound_of_le hi hlt hd hk fm'' (by omega)⟩
  · rw [if_pos (by rw [Full] at hfull; omega)]
    refine ⟨fm₁, _, rfl, hmoved, .returned ?_, Or.inl ⟨rfl, hskip⟩⟩
    exact Set.eq_empty_of_forall_notMem fun t htest => hfull htest.1

/-- **A file.** `scan_file` makes the tests of the file. -/
theorem scanFile_spec (hd : Disk m files) (hk : files[k]? = some f) {done : Set (ℕ × Bytes)}
    {fm : FileManager} (stack : ℕ → UInt8) (h : Scanned sha1 m files done fm)
    (hrew : Rewound m files k f.info.begin fm) :
    ∃ fm', scanFile sha1 stack fm k = some fm' ∧
      Scanned sha1 m files (done ∪ testsOf m files f) fm' ∧
      Rewound m files (k + 1) f.info.end_ fm' := by
  have hmem : f ∈ files := List.mem_of_getElem? hk
  have hend := hd.laid.end_le hmem
  have hT := hd.consistent.total_lt
  have hP := hd.consistent.pieceLength_pos
  have hbegin : f.info.begin ≤ f.info.end_ := Nat.le_add_right _ _
  have hfileEnd : (f.info.begin + f.info.length) % 2 ^ 64 = f.info.end_ := by
    rw [TorrentFileInfo.end_] at hend ⊢
    exact Nat.mod_eq_of_lt (by omega)
  obtain ⟨hi, hlt⟩ := pieceOf_bounds f.info.begin hP
  obtain ⟨fm₁, start, hstart, hmoved, hstarts, hrew₁⟩ :=
    startFile_spec hd.consistent.tiled hd.laid hk stack h.streaming hrew
  have h₁ := h.moved hmoved
  rw [scanFile_eq, hstart, Option.bind_some]
  generalize pieceOf f.info.begin m.pieceLength = i at hi hlt hstarts
  have hsucc := Nat.add_one_mul i m.pieceLength
  cases hstarts with
  | returned hnone =>
    rw [hnone, Set.union_empty]
    exact ⟨fm₁, rfl, h₁, hrew₁.elim And.right fun hall => hall fm₁⟩
  | aligned buf hfull hbuf halign hle =>
    obtain ⟨hreturned, -⟩ | hstreams := hrew₁
    · cases hreturned
    have hwhole : i + 1 = m.sha1sums.length → m.totalSize ≤ f.info.end_ := by
      intro hlast
      have hge := hd.consistent.tiled.total_le hlast.ge
      omega
    obtain ⟨fm₂, hrest, h₂⟩ := scanRest_spec hd hk hfull halign.le (by omega) (by omega) hbuf
      (fun hlast hless => absurd hless (hwhole hlast).not_gt) h₁
    rw [Start.finish, hfileEnd, testsOf_aligned hi hlt hd.laid hmem hfull halign]
    exact ⟨fm₂, hrest, h₂, hstreams fm₂⟩
  | gathered hfull hhead hin hle =>
    obtain ⟨hreturned, -⟩ | hstreams := hrew₁
    · cases hreturned
    have hiN := hd.consistent.tiled.lt_count_iff.2 (show i * m.pieceLength < m.totalSize by omega)
    have hpiece : region (image files) (i * m.pieceLength) m.pieceLength = pieceData m files i := by
      rw [pieceData, pieceLen, Nat.min_eq_left (by omega)]
    have hregion : (region (image files) (i * m.pieceLength) m.pieceLength).length =
        m.pieceLength := length_region (by rw [hd.laid.length_image]; omega)
    obtain ⟨fm₂, htest, h₂, -⟩ := completeIfEligible_spec hd.consistent.count_lt h₁ hiN
      (region (image files) (i * m.pieceLength) m.pieceLength)
    obtain ⟨fm₃, hrest, h₃⟩ := scanRest_spec hd hk hfull hlt.le (by omega) hle hregion
      (fun _ _ => ⟨hlt, by rw [Nat.add_sub_cancel]⟩) h₂
    have htests : testsOf m files f = insert (i, pieceData m files i) (restTests m files f) :=
      Set.ext fun t => (mem_testsOf_inside hi hlt hd.consistent.tiled hd.laid hmem hfull hin t).trans
        (and_iff_right ⟨hhead, hle⟩)
    rw [Start.finish, hfileEnd, htest, Option.bind_eq_bind, Option.bind_some, htests,
      Set.union_insert, ← Set.insert_union, ← hpiece]
    exact ⟨fm₃, hrest, h₃, hstreams fm₃⟩

end FileManager

end CTorrent
