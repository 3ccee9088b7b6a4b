import CTorrent.FileManager.Download

/-!
# Reading a block back

`process_read` takes the larger of what is left of the file and what is left of the block as the
amount to read, where the smaller one is meant. In a file that goes on behind the block it stores
past the end of the block, and in a file that ends inside the block it reads on and fails. So it
delivers a block only where both end together, at the end of the torrent.

* `readFile_first`, `readFile_next`: the inner loop on the first file and on a later one;
* `readLoop_iff`: the loop over the files;
* `processRead_iff`: exactly when a request is served right, and that none of those which
  `requestPieceBlock` accepts for consistent metainfo is.
-/

namespace CTorrent

open Splice

namespace FileManager

/-- `n` bytes read are counted right exactly if they are fewer than `2 ^ 31`. -/
theorem toNat_toInt32_lt {n : ℕ} (h : 2 ^ 31 ≤ n) (hpos : ¬ Bitset.toInt32 n ≤ 0) :
    (Bitset.toInt32 n).toNat < n := by
  rw [Bitset.toInt32] at hpos ⊢
  split_ifs at hpos ⊢ <;> omega

theorem toInt32_of_lt {n : ℕ} (h : n < 2 ^ 31) : Bitset.toInt32 n = n := by
  rw [Bitset.toInt32, Nat.mod_eq_of_lt (by omega), if_pos h]

section ReadFile

variable {readSize maxRead fuel writePos : ℕ} {fp : FILE} {block : Bytes}

theorem readFile_done (h : maxRead ≤ writePos) :
    readFile readSize maxRead fuel fp block writePos = .ok (block, writePos) := by
  cases fuel with
  | zero => rfl
  | succ fuel => rw [readFile, if_neg (by omega)]

theorem readFile_succ (h : writePos < maxRead) :
    readFile readSize maxRead (fuel + 1) fp block writePos =
      let chunk := region fp.content fp.pos (sub64 readSize writePos)
      if block.length < writePos + chunk.length then .error .overrun
      else if Bitset.toInt32 chunk.length ≤ 0 then .error .failed
      else readFile readSize maxRead fuel { fp with pos := fp.pos + chunk.length }
        (overwrite block writePos chunk) (writePos + (Bitset.toInt32 chunk.length).toNat) := by
  rw [readFile, if_pos h]
  rfl

/-- At the end of the file the loop gives up. -/
theorem readFile_eof (h : writePos < maxRead) (hfuel : 0 < fuel)
    (heof : fp.content.length ≤ fp.pos) (hblock : writePos ≤ block.length) :
    readFile readSize maxRead fuel fp block writePos = .error .failed := by
  obtain ⟨fuel, rfl⟩ : ∃ f, fuel = f + 1 := ⟨fuel - 1, by omega⟩
  have hchunk : ∀ n, region fp.content fp.pos n = [] := fun n => by
    rw [region, List.drop_eq_nil_of_le heof, List.take_nil]
  rw [readFile_succ h, hchunk]
  simp only [List.length_nil, Nat.add_zero]
  rw [if_neg (by omega), if_pos (by decide)]

/-- The first file: the loop ends well if the file ends with the block, and the block is short
enough to be counted in an `int`. -/
theorem readFile_first {size : ℕ} (hb : block.length = size) (hp : fp.pos ≤ fp.content.length)
    (hread : readSize = max (fp.content.length - fp.pos) size) (hpos : 0 < readSize)
    (h64 : readSize < 2 ^ 64) :
    if fp.content.length - fp.pos = size ∧ size < 2 ^ 31 then
      readFile readSize readSize readSize fp block 0 = .ok (region fp.content fp.pos size, size)
    else readFile readSize readSize readSize fp block 0 = .error .overrun ∨
      readFile readSize readSize readSize fp block 0 = .error .failed := by
  obtain ⟨fuel, hfuel⟩ : ∃ f, readSize = f + 1 := ⟨readSize - 1, by omega⟩
  have hsub : sub64 readSize 0 = readSize := sub64_of_le h64 (Nat.zero_le _)
  generalize hchunk : region fp.content fp.pos readSize = chunk
  have hlen : chunk.length = fp.content.length - fp.pos := by
    rw [← hchunk, region, List.length_take, List.length_drop]
    omega
  have hstep : readFile readSize readSize readSize fp block 0 = _ :=
    (congrArg (fun n => readFile readSize readSize n fp block 0) hfuel).trans
      (readFile_succ (by omega))
  simp only [hsub, hchunk, Nat.zero_add, hlen, hb] at hstep
  rw [hstep]
  -- the count of the bytes, as an `int`, is at most their number
  have hcount : ¬ Bitset.toInt32 (fp.content.length - fp.pos) ≤ 0 →
      (Bitset.toInt32 (fp.content.length - fp.pos)).toNat ≤ fp.content.length - fp.pos ∧
      (2 ^ 31 ≤ fp.content.length - fp.pos →
        (Bitset.toInt32 (fp.content.length - fp.pos)).toNat < fp.content.length - fp.pos) := by
    intro hc
    rcases Nat.lt_or_ge (fp.content.length - fp.pos) (2 ^ 31) with h31 | h31
    · rw [toInt32_of_lt h31, Int.toNat_natCast]
      exact ⟨Nat.le_refl _, fun h => absurd h31 (Nat.not_lt.2 h)⟩
    · exact ⟨(toNat_toInt32_lt h31 hc).le, fun _ => toNat_toInt32_lt h31 hc⟩
  by_cases hgood : fp.content.length - fp.pos = size ∧ size < 2 ^ 31
  · -- the whole block in one pass
    obtain ⟨hsize, h31⟩ := hgood
    have hwhole : overwrite block 0 chunk = region fp.content fp.pos size := by
      rw [overwrite_all (by omega), ← hchunk, hread, hsize, Nat.max_self]
    rw [if_pos ⟨hsize, h31⟩, hwhole, hsize, toInt32_of_lt h31, Int.toNat_natCast,
      if_neg (Nat.lt_irrefl _), if_neg (by omega)]
    exact readFile_done (by omega)
  · rw [if_neg hgood]
    by_cases hover : size < fp.content.length - fp.pos
    · rw [if_pos hover]
      exact Or.inl rfl
    · rw [if_neg hover]
      by_cases hzero : Bitset.toInt32 (fp.content.length - fp.pos) ≤ 0
      · rw [if_pos hzero]
        exact Or.inr rfl
      · -- part of the block, then the end of the file
        rw [if_neg hzero]
        obtain ⟨hle, hlt⟩ := hcount hzero
        have hnot : (Bitset.toInt32 (fp.content.length - fp.pos)).toNat < readSize := by
          by_cases h31 : 2 ^ 31 ≤ fp.content.length - fp.pos
          · exact (hlt h31).trans_le (by omega)
          · omega
        refine Or.inr (readFile_eof hnot (by omega) ?_ ?_)
        · simp only
          omega
        · rw [length_overwrite (by omega), hb]
          omega

/-- A later file that is not empty: the block is full already, and the loop does not end well. -/
theorem readFile_next {size len : ℕ} (hb : block.length = size) (hp : fp.pos = 0)
    (hlen : fp.content.length = len) (hpos : 0 < len) (h64 : size + len < 2 ^ 64) :
    readFile len (size + len) len fp block size = .error .overrun ∨
      readFile len (size + len) len fp block size = .error .failed := by
  obtain ⟨fuel, hfuel⟩ : ∃ f, len = f + 1 := ⟨len - 1, by omega⟩
  have hstep : readFile len (size + len) len fp block size = _ :=
    (congrArg (fun n => readFile len (size + len) n fp block size) hfuel).trans
      (readFile_succ (by omega))
  rw [hstep]
  simp only [hp, region, List.drop_zero, List.length_take, hlen, hb]
  -- with as many bytes as the block has, the amount is zero, and else it overruns the block
  by_cases heq : len = size
  · have hzero : sub64 len size = 0 := by rw [sub64]; omega
    rw [hzero, Nat.zero_min, if_neg (by omega), if_pos (by decide)]
    exact Or.inr rfl
  · have hsome : 0 < sub64 len size := by rw [sub64]; omega
    rw [if_pos (by omega)]
    exact Or.inl rfl

end ReadFile

/-! ### The loop over the files -/

section ReadLoop

variable {files : List TorrentFile} {b T size blockBegin : ℕ} {block : Bytes}

/-- Behind the block: only empty files may follow. -/
theorem readLoop_behind (hl : LaidOut (files.map TorrentFile.info) b T) (he : Exact files)
    (hT : T < 2 ^ 64) (hb : blockBegin + size = b) (hblock : block.length = size)
    (out : Bytes) :
    readLoop blockBegin size files block size = .ok out ↔ b = T ∧ block = out := by
  induction files generalizing b with
  | nil =>
    have hbT : b = T := hl
    rw [readLoop, Except.ok.injEq]
    exact ⟨fun h => ⟨hbT, h⟩, And.right⟩
  | cons f files ih =>
    have he' := exact_cons.1 he
    obtain ⟨hbegin, hl'⟩ : f.info.begin = b ∧ LaidOut (files.map TorrentFile.info) _ T := hl
    have hle := hl'.le
    have hpos : (blockBegin + size) % 2 ^ 64 = b := by rw [hb, Nat.mod_eq_of_lt (by omega)]
    have hend : (b + f.info.length) % 2 ^ 64 = b + f.info.length := Nat.mod_eq_of_lt (by omega)
    have hsub : sub64 size size = 0 := by rw [sub64]; omega
    rw [readLoop]
    simp only [hpos, hend, hsub, hbegin, Nat.add_sub_cancel_left, Nat.max_zero, Nat.sub_self]
    have hmax : (size + f.info.length) % 2 ^ 64 = size + f.info.length :=
      Nat.mod_eq_of_lt (by omega)
    rw [if_neg (by omega), if_neg (by omega), hmax, Nat.add_sub_cancel_left]
    rcases Nat.eq_zero_or_pos f.info.length with h0 | hlen
    · rw [h0, Nat.add_zero] at hl' ⊢
      rw [readFile_done (Nat.le_refl _)]
      exact ih hl' he'.2 hb
    · have hne : b ≠ T := by omega
      rcases readFile_next hblock (FILE.pos_fseek f.fp (by decide))
        (by rw [FILE.content_fseek, he'.1]) hlen (by omega) with h | h <;> simp [h, hne]

/-- Where the block begins and ends for `process_read` to deliver it. -/
def EndsTogether (files : List TorrentFile) (T pos size : ℕ) : Prop :=
  pos + size = T ∧ size < 2 ^ 31 ∧
    ∀ f ∈ files, f.info.begin + f.info.length < pos ∨ f.info.begin + f.info.length = T

theorem endsTogether_cons {f : TorrentFile} {pos : ℕ} :
    EndsTogether (f :: files) T pos size ↔
      (f.info.begin + f.info.length < pos ∨ f.info.begin + f.info.length = T) ∧
        EndsTogether files T pos size := by
  simp only [EndsTogether, List.forall_mem_cons]
  constructor
  · rintro ⟨h1, h2, h3, h4⟩
    exact ⟨h3, h1, h2, h4⟩
  · rintro ⟨h3, h1, h2, h4⟩
    exact ⟨h1, h2, h3, h4⟩

/-- The loop at the first file it reads from: the block has to end with this file, and nothing but
empty files may follow. -/
theorem readLoop_first {f : TorrentFile} (hl : LaidOut ((f :: files).map TorrentFile.info) b T)
    (he : Exact (f :: files)) (hT : T < 2 ^ 64) (hlen : f.info.length < 2 ^ 63)
    (hpos : b ≤ blockBegin) (hsize : size < 2 ^ 64) (hblock : block.length = size)
    (hin : blockBegin ≤ b + f.info.length)
    (hread : 0 < max (b + f.info.length - blockBegin) size) :
    readLoop blockBegin size (f :: files) block 0 =
        .ok (region (flat (f :: files)) (blockBegin - b) size) ↔
      EndsTogether (f :: files) T blockBegin size := by
  have he' := exact_cons.1 he
  obtain ⟨hbegin, hl'⟩ : f.info.begin = b ∧ LaidOut (files.map TorrentFile.info) _ T := hl
  have hle := hl'.le
  have hend : (b + f.info.length) % 2 ^ 64 = b + f.info.length := Nat.mod_eq_of_lt (by omega)
  have hzero : (blockBegin + 0) % 2 ^ 64 = blockBegin := Nat.mod_eq_of_lt (by omega)
  have hsub : sub64 size 0 = size := sub64_of_le hsize (Nat.zero_le _)
  rw [readLoop, endsTogether_cons]
  simp only [hzero, hend, hsub, hbegin]
  rw [if_neg (by omega), if_neg (by omega), Nat.zero_add]
  generalize hamount : max (b + f.info.length - blockBegin) size = readSize at hread
  rw [Nat.mod_eq_of_lt (by omega), Nat.sub_zero]
  have hfp : (f.fp.fseek (blockBegin - b)).pos = blockBegin - b :=
    FILE.pos_fseek f.fp (by omega)
  have hfirst := @readFile_first readSize (f.fp.fseek (blockBegin - b)) block size hblock
    (by rw [hfp, FILE.content_fseek]; omega)
    (by rw [hfp, FILE.content_fseek, he'.1]; omega) hread (by omega)
  rw [hfp, FILE.content_fseek, he'.1] at hfirst
  by_cases hgood : f.info.length - (blockBegin - b) = size ∧ size < 2 ^ 31
  · rw [if_pos hgood] at hfirst
    rw [hfirst]
    simp only
    have hchunk : (region f.fp.content (blockBegin - b) size).length = size :=
      length_region (by omega)
    have hregion : region (flat (f :: files)) (blockBegin - b) size =
        region f.fp.content (blockBegin - b) size := by
      rw [flat_cons, region_append_left (by omega)]
    rw [readLoop_behind hl' he'.2 hT (by omega) hchunk, hregion, EndsTogether]
    constructor
    · rintro ⟨hbT, -⟩
      refine ⟨Or.inr hbT, by omega, hgood.2, fun g hg => Or.inr ?_⟩
      obtain ⟨hge, hgT⟩ := hl'.mem_bounds (List.mem_map_of_mem hg)
      omega
    · rintro ⟨hf, h, -⟩
      exact ⟨by omega, rfl⟩
  · rw [if_neg hgood] at hfirst
    have hrefuse : ¬ ((b + f.info.length < blockBegin ∨ b + f.info.length = T) ∧
        EndsTogether files T blockBegin size) := by
      rintro ⟨hf, hT', h31, -⟩
      omega
    rcases hfirst with h | h
    · simp only [h, reduceCtorEq, false_iff]
      exact hrefuse
    · simp only [h, reduceCtorEq, false_iff]
      exact hrefuse

/-- **The loop of `process_read`.** From files that follow each other up to `T` it delivers the
right bytes exactly if the block ends together with the torrent and with the first file it is
read from, or is empty and lies behind all files. -/
theorem readLoop_iff (hl : LaidOut (files.map TorrentFile.info) b T) (he : Exact files)
    (hT : T < 2 ^ 64) (hlen : ∀ f ∈ files, f.info.length < 2 ^ 63) (hpos : b ≤ blockBegin)
    (hpos64 : blockBegin < 2 ^ 64) (hsize : size < 2 ^ 64) (hblock : block.length = size) :
    readLoop blockBegin size files block 0 =
        .ok (region (flat files) (blockBegin - b) size) ↔
      (T < blockBegin ∧ size = 0) ∨ EndsTogether files T blockBegin size := by
  induction files generalizing b with
  | nil =>
    have hbT : b = T := hl
    simp only [readLoop, Except.ok.injEq, flat, List.flatMap_nil, region,
      List.drop_nil, List.take_nil, EndsTogether, List.not_mem_nil, IsEmpty.forall_iff,
      implies_true, and_true]
    rw [← List.length_eq_zero_iff, hblock]
    omega
  | cons f files ih =>
    have he' := exact_cons.1 he
    obtain ⟨hbegin, hl'⟩ : f.info.begin = b ∧ LaidOut (files.map TorrentFile.info) _ T := hl
    obtain ⟨hlen0, hlen'⟩ := List.forall_mem_cons.1 hlen
    have hle := hl'.le
    by_cases hread : blockBegin ≤ b + f.info.length ∧
        0 < max (b + f.info.length - blockBegin) size
    · have hlast : ¬ (T < blockBegin ∧ size = 0) := by omega
      rw [readLoop_first ⟨hbegin, hl'⟩ he hT hlen0 hpos hsize hblock hread.1 hread.2]
      exact (or_iff_right hlast).symm
    · have hend : (b + f.info.length) % 2 ^ 64 = b + f.info.length := Nat.mod_eq_of_lt (by omega)
      have hzero : (blockBegin + 0) % 2 ^ 64 = blockBegin := Nat.mod_eq_of_lt hpos64
      have hsub : sub64 size 0 = size := sub64_of_le hsize (Nat.zero_le _)
      have hrest := ih hl' he'.2 hlen' (by omega)
      rw [readLoop, endsTogether_cons]
      simp only [hzero, hend, hsub, hbegin]
      rw [if_neg (by omega)]
      split_ifs with hskip
      · -- the block begins behind this file
        rw [flat_cons, region_append_right (by omega), he'.1,
          show blockBegin - b - f.info.length = blockBegin - (b + f.info.length) by omega, hrest]
        have hlt : b + f.info.length < blockBegin := by omega
        simp [hlt]
      · -- an empty block at the end of this file
        rw [Nat.zero_add, Nat.mod_eq_of_lt (by omega), Nat.sub_zero, readFile_done (by omega)]
        simp only
        rw [show size = 0 by omega, region_zero_length] at hrest ⊢
        rw [hrest]
        refine or_congr_right ⟨fun h => ⟨Or.inr ?_, h⟩, And.right⟩
        have := h.1
        omega

theorem readFile_length {readSize maxRead fuel : ℕ} : ∀ {fp : FILE} {block : Bytes} {writePos : ℕ}
    {out : Bytes × ℕ}, readFile readSize maxRead fuel fp block writePos = .ok out →
      out.1.length = block.length := by
  induction fuel with
  | zero =>
    intro fp block writePos out h
    cases h
    rfl
  | succ fuel ih =>
    intro fp block writePos out h
    by_cases hw : writePos < maxRead
    · rw [readFile_succ hw] at h
      simp only at h
      split_ifs at h with hover hzero
      rw [ih h, length_overwrite (by omega)]
    · rw [readFile_done (by omega)] at h
      cases h
      rfl

/-- A block that is delivered has the size that was asked for. -/
theorem readLoop_length {writePos : ℕ} {out : Bytes}
    (h : readLoop blockBegin size files block writePos = .ok out) :
    out.length = block.length := by
  induction files generalizing block writePos with
  | nil =>
    rw [readLoop, Except.ok.injEq] at h
    rw [h]
  | cons f files ih =>
    rw [readLoop] at h
    simp only at h
    split_ifs at h
    · exact ih h
    · generalize hr : readFile _ _ _ _ block writePos = r at h
      cases r with
      | error e => cases h
      | ok r => rw [ih h, readFile_length hr]

end ReadLoop

/-! ### Requests -/

/-- The request is served right: whatever the allocated block holds at first, what is handed to
`onPieceReadComplete` are the bytes at `index * pieceLength + begin` of the concatenated files. -/
def ReadsRight (fm : FileManager) (r : ReadRequest) : Prop :=
  ∀ junk, fm.processRead junk r =
    .ok (region (flat fm.files) (r.index * fm.metainfo.pieceLength + r.begin) r.size)

/-- An empty block at the end of the torrent or behind it, or a block that ends together with the
torrent and with the first file it is read from. -/
def Readable (fm : FileManager) (T : ℕ) (r : ReadRequest) : Prop :=
  let pos := r.index * fm.metainfo.pieceLength + r.begin
  (r.size = 0 ∧ T ≤ pos % 2 ^ 64) ∨ (0 < r.size ∧ EndsTogether fm.files T pos r.size)

section Request

variable {fm fm' : FileManager} {T : ℕ} {r : ReadRequest}

theorem readsRight_iff (hl : LaidOut (fm.files.map TorrentFile.info) 0 T) (he : Exact fm.files)
    (hT : T < 2 ^ 64) (hlen : ∀ f ∈ fm.files, f.info.length < 2 ^ 63) (hsize : r.size < 2 ^ 64) :
    ReadsRight fm r ↔ Readable fm T r := by
  have hflat := length_flat hl he
  have hiff := fun junk : ℕ → UInt8 => @readLoop_iff fm.files 0 T r.size
    ((r.begin + r.index * fm.metainfo.pieceLength) % 2 ^ 64) ((List.range r.size).map junk)
    hl he hT hlen (Nat.zero_le _) (Nat.mod_lt _ (by decide)) hsize
    (by rw [List.length_map, List.length_range])
  rw [ReadsRight, Readable]
  simp only [processRead, Nat.sub_zero, Nat.add_comm r.begin] at hiff ⊢
  generalize r.index * fm.metainfo.pieceLength + r.begin = pos at hiff ⊢
  rcases Nat.eq_zero_or_pos r.size with h0 | hpos
  · -- an empty block: only its position counts
    have hempty : EndsTogether fm.files T (pos % 2 ^ 64) 0 ↔ pos % 2 ^ 64 = T := by
      rw [EndsTogether, Nat.add_zero]
      refine ⟨And.left, fun h => ⟨h, by decide, fun f hf => ?_⟩⟩
      obtain ⟨-, hle⟩ := hl.mem_bounds (List.mem_map_of_mem hf)
      omega
    simp only [h0, region_zero_length, hempty, and_true, true_and, Nat.lt_irrefl, false_and,
      or_false] at hiff ⊢
    simp only [hiff]
    exact ⟨fun h => by have := h 0; omega, fun h _ => by omega⟩
  · have hne : r.size ≠ 0 := by omega
    simp only [hne, hpos, false_and, true_and, and_false, false_or] at hiff ⊢
    rcases Nat.lt_or_ge pos (2 ^ 64) with h64 | h64
    · rw [Nat.mod_eq_of_lt h64] at hiff ⊢
      exact ⟨fun h => (hiff fun _ => 0).1 (h _), fun h junk => (hiff junk).2 h⟩
    · -- the offset wraps: there are no such bytes, and no block of their length
      constructor
      · intro h
        have hout := readLoop_length (h 0)
        rw [region, List.drop_eq_nil_of_le (by omega), List.take_nil, List.length_map,
          List.length_range, List.length_nil] at hout
        omega
      · rintro ⟨h, -⟩
        omega

theorem eligible_of_request {index from_ begin size : ℕ}
    (h : fm.requestPieceBlock index from_ begin size = some (true, fm')) :
    index < fm.pieces.length ∧
      ∃ length, fm.pieceLength index = some length ∧ toInt64 (begin + size) < length := by
  rw [requestPieceBlock] at h
  split_ifs at h with hi
  · cases h
  · obtain ⟨ok, hok, he⟩ := Option.map_eq_some_iff.1 h
    rw [isReadEligible] at hok
    cases ok with
    | false =>
      simp only [Bool.not_false, if_true] at he
      cases he
    | true =>
      split_ifs at hok
      · obtain ⟨length, hl, hlt⟩ := Option.map_eq_some_iff.1 hok
        exact ⟨by simpa [intact] using hi, length, hl, by simpa using hlt⟩
      · cases hok

/-- **When reads agree with the files.** For files that follow each other and have their declared
lengths, a request that `requestPieceBlock` accepts is served right if and only if its block is
`Readable`; and for consistent metainfo no request with 32-bit numbers that it accepts is. -/
theorem processRead_iff (hf : fm.files.map TorrentFile.info = fm.metainfo.files)
    (hl : LaidOut fm.metainfo.files 0 fm.metainfo.totalSize) (he : Exact fm.files)
    (hT : fm.metainfo.totalSize < 2 ^ 64) (hlen : ∀ f ∈ fm.files, f.info.length < 2 ^ 63)
    {index from_ begin size : ℕ} (hsize : size < 2 ^ 64)
    (hr : fm.requestPieceBlock index from_ begin size = some (true, fm')) :
    (ReadsRight fm ⟨index, fm.rid, from_, begin, size⟩ ↔
      Readable fm fm.metainfo.totalSize ⟨index, fm.rid, from_, begin, size⟩) ∧
    (Consistent fm.metainfo → fm.pieces.length = fm.metainfo.sha1sums.length →
      begin < 2 ^ 32 → size < 2 ^ 32 →
      ¬ ReadsRight fm ⟨index, fm.rid, from_, begin, size⟩) := by
  have hiff := readsRight_iff (r := ⟨index, fm.rid, from_, begin, size⟩) (hf ▸ hl) he hT hlen hsize
  refine ⟨hiff, fun hc hN hb hs => ?_⟩
  obtain ⟨hi, length, hpl, hlt⟩ := eligible_of_request hr
  rw [hN] at hi
  rw [hc.pieceLength_eq rfl hN hi, Option.some.injEq] at hpl
  rw [← hpl, toInt64_of_lt (by omega)] at hlt
  -- the block ends before the end of its piece, hence of the torrent
  have hend := hc.tiled.piece_end_le hi
  rw [hiff, Readable]
  simp only [not_or, not_and]
  refine ⟨fun _ => ?_, fun _ h => ?_⟩
  · rw [Nat.mod_eq_of_lt (by omega)]
    omega
  · have := h.1
    omega

end Request

/-- A torrent of one file and one piece of two bytes. -/
def twoBytes : TorrentMeta where
  checkSum := fun _ => 0
  pieceLength := 2
  totalSize := 2
  files := [⟨[97], 0, 0, 2⟩]
  sha1sums := [fun _ => 7]

/-- The piece is completed, and its bytes are on disk. -/
def twoBytesState : FileManager :=
  (register (fun _ => 0) (fun _ => 0) twoBytes [⟨⟨[5, 6], 0⟩, ⟨[97], 0, 0, 2⟩⟩]).complete 0 [5, 6]

theorem processRead_iff_twoBytes :
    (ReadsRight twoBytesState ⟨0, 0, 1, 0, 1⟩ ↔ Readable twoBytesState 2 ⟨0, 0, 1, 0, 1⟩) ∧
    (Consistent twoBytes → twoBytesState.pieces.length = twoBytes.sha1sums.length →
      0 < 2 ^ 32 → 1 < 2 ^ 32 → ¬ ReadsRight twoBytesState ⟨0, 0, 1, 0, 1⟩) :=
  @processRead_iff twoBytesState _ rfl ⟨rfl, rfl⟩
    (by simp [Exact, twoBytesState, register, complete]) (by decide)
    (by simp [twoBytesState, register, complete]) 0 1 0 1 (by decide) rfl

/-- A request for the first of two bytes is accepted, and the block overrun. -/
theorem processRead_overrun :
    (twoBytesState.requestPieceBlock 0 1 0 1).map Prod.fst = some true ∧
    twoBytesState.processRead (fun _ => 0) ⟨0, 0, 1, 0, 1⟩ = .error .overrun ∧
    ¬ ReadsRight twoBytesState ⟨0, 0, 1, 0, 1⟩ := by
  have hover : twoBytesState.processRead (fun _ => 0) ⟨0, 0, 1, 0, 1⟩ = .error .overrun := by
    rfl
  refine ⟨by decide +kernel, hover, fun h => ?_⟩
  have := h fun _ => 0
  rw [hover] at this
  cases this

end FileManager

end CTorrent
