import CTorrent.FileManager.Layout

/-!
# What the accepted metainfo agrees on

`parse` compares none of the fields with another: the piece length, the `pieces` string and the
lengths of the files are taken as they are, and what is missing or of another type counts as zero
or empty. The fields agree exactly if the `info` dictionary is well sized.

* `Coherent`: what the file manager's arithmetic needs of a `TorrentMeta`;
* `fileLengths`, `WellSized`: the same on the side of the input;
* `readFiles_lengths`: which files are stored, and the wrapping total size;
* `parse_coherent_iff`: the accepted inputs.
-/

namespace CTorrent

namespace TorrentMeta

/-- A number of pieces, the last of which may be short. -/
def ceilDiv (total pieceLength : ℕ) : ℕ := (total + pieceLength - 1) / pieceLength

/-- What the arithmetic on pieces needs of a metainfo with the given `pieces` string. -/
structure Coherent (m : TorrentMeta) (pieces : Bytes) : Prop where
  pieceLength_pos : 0 < m.pieceLength
  pieces_pos : 0 < pieces.length
  pieces_dvd : 20 ∣ pieces.length
  total_pos : 0 < m.totalSize
  total_eq : m.totalSize = (m.files.map TorrentFileInfo.length).sum
  count_eq : m.sha1sums.length = ceilDiv m.totalSize m.pieceLength

/-- The length of an entry of `files`. -/
def entryLength (f : Any) : ℕ := (castUint64 ((castDictionary f).at_ (key "length"))).toNat

/-- The lengths of the files of an `info` dictionary, in the order in which they are stored. -/
def fileLengths (info : Dictionary) : List ℕ :=
  if info.count (key "files") then
    match info.at_ (key "files") with
    | .dictionary d => (d.map Prod.snd).map entryLength
    | .vector v => v.map entryLength
    | _ => []
  else [(castUint64 (info.at_ (key "length"))).toNat]

/-- The `pieces` string of an `info` dictionary. -/
def piecesOf (info : Dictionary) : Bytes := castString (info.at_ (key "pieces"))

/-- The piece length of an `info` dictionary. -/
def pieceLengthOf (info : Dictionary) : ℕ := (castUint64 (info.at_ (key "piece length"))).toNat

/-- An `info` dictionary whose sizes fit: the piece length is a positive number, `pieces` a string
of at least one digest of twenty bytes, the lengths of the files add up to a positive 64-bit
number, and there are as many digests as pieces. -/
structure WellSized (info : Dictionary) : Prop where
  pieceLength_pos : 0 < pieceLengthOf info
  pieces_pos : 0 < (piecesOf info).length
  pieces_dvd : 20 ∣ (piecesOf info).length
  total_pos : 0 < (fileLengths info).sum
  total_lt : (fileLengths info).sum < 2 ^ 64
  count_eq : (piecesOf info).length / 20 = ceilDiv (fileLengths info).sum (pieceLengthOf info)

/-! ### The files -/

/-- What `parseFiles` does to the files and the total size; the other fields stay. -/
theorem parseFiles_lengths (m : TorrentMeta) (hm : m.files = [] ∧ m.totalSize = 0)
    (entries : List Any) :
    (m.parseFiles entries).files.map TorrentFileInfo.length = entries.map entryLength ∧
      (m.parseFiles entries).totalSize = (entries.map entryLength).sum % 2 ^ 64 ∧
      (m.parseFiles entries).pieceLength = m.pieceLength ∧
      (m.parseFiles entries).sha1sums = m.sha1sums := by
  -- the induction carries the object and its counters
  suffices hs : ∀ (s : TorrentMeta × ℕ × ℕ), s.1.totalSize < 2 ^ 64 →
      let t := (entries.foldl (fun (s : TorrentMeta × ℕ × ℕ) f =>
        let v := castDictionary f
        parseFile s.1 (castVector (v.at_ (key "path"))) s.2.1 s.2.2
          (castUint64 (v.at_ (key "length"))).toNat) s).1
      t.files.map TorrentFileInfo.length =
          s.1.files.map TorrentFileInfo.length ++ entries.map entryLength ∧
        t.totalSize = (s.1.totalSize + (entries.map entryLength).sum) % 2 ^ 64 ∧
        t.pieceLength = s.1.pieceLength ∧ t.sha1sums = s.1.sha1sums by
    have h := hs (m, 0, 0) (by rw [hm.2]; decide)
    rw [hm.1, hm.2, Nat.zero_add] at h
    exact h
  induction entries with
  | nil =>
    intro s hs
    refine ⟨(List.append_nil _).symm, ?_, rfl, rfl⟩
    rw [List.map_nil, List.sum_nil, Nat.add_zero, Nat.mod_eq_of_lt hs]
    rfl
  | cons f entries ih =>
    intro s hs
    have h := ih (parseFile s.1 (castVector ((castDictionary f).at_ (key "path"))) s.2.1 s.2.2
      (entryLength f)) (Nat.mod_lt _ (by decide))
    obtain ⟨h1, h2, h3, h4⟩ := h
    refine ⟨h1.trans ?_, h2.trans ?_, h3, h4⟩
    · simp [parseFile]
    · simp only [parseFile, List.map_cons, List.sum_cons]
      rw [Nat.mod_add_mod, Nat.add_assoc]

/-- The files and the total size behind a successful `readFiles`. -/
theorem readFiles_lengths {m m' : TorrentMeta} (hm : m.files = [] ∧ m.totalSize = 0)
    {info : Dictionary} (h : m.readFiles info = (true, m')) :
    m'.files.map TorrentFileInfo.length = fileLengths info ∧
      m'.totalSize = (fileLengths info).sum % 2 ^ 64 ∧
      m'.pieceLength = m.pieceLength ∧ m'.sha1sums = m.sha1sums := by
  rw [readFiles] at h
  rw [fileLengths]
  split_ifs at h with hfiles
  · rw [if_pos hfiles]
    cases hany : info.at_ (key "files") with
    | dictionary d =>
      rw [hany] at h
      obtain rfl := (Prod.mk.inj h).2
      have hd := parseFiles_lengths { m with dirName := castString (info.at_ (key "name")) } hm
        (d.map Prod.snd)
      exact hd
    | vector v =>
      rw [hany] at h
      obtain rfl := (Prod.mk.inj h).2
      have hv := parseFiles_lengths { m with dirName := castString (info.at_ (key "name")) } hm v
      exact hv
    | _ =>
      rw [hany] at h
      cases h
  · rw [if_neg hfiles]
    dsimp only at h
    split_ifs at h with hlength
    · cases h
    · obtain rfl := (Prod.mk.inj h).2
      have hlt := (castUint64 (info.at_ (key "length"))).toNat_lt
      simp [hm.1, Nat.mod_eq_of_lt hlt]

theorem length_readSums (past : ℕ → UInt8) (pieces : Bytes) :
    (readSums past pieces).length = (pieces.length + 19) / 20 := by
  rw [readSums, List.length_map, List.length_range]

/-- The stored fields agree exactly if the sizes of the input fit. -/
theorem coherent_iff {m : TorrentMeta} {info : Dictionary} {past : ℕ → UInt8}
    (hpl : m.pieceLength = pieceLengthOf info)
    (hsums : m.sha1sums = readSums past (piecesOf info))
    (hfiles : m.files.map TorrentFileInfo.length = fileLengths info)
    (htotal : m.totalSize = (fileLengths info).sum % 2 ^ 64) :
    m.Coherent (piecesOf info) ↔ WellSized info := by
  have hcount : 20 ∣ (piecesOf info).length →
      m.sha1sums.length = (piecesOf info).length / 20 := by
    intro hd
    rw [hsums, length_readSums]
    omega
  constructor
  · intro h
    have hsum : (fileLengths info).sum = (fileLengths info).sum % 2 ^ 64 := by
      rw [← htotal, h.total_eq, hfiles]
    refine ⟨hpl ▸ h.pieceLength_pos, h.pieces_pos, h.pieces_dvd, ?_, ?_, ?_⟩
    · rw [hsum, ← htotal]
      exact h.total_pos
    · rw [hsum]
      exact Nat.mod_lt _ (by decide)
    · rw [← hcount h.pieces_dvd, h.count_eq, htotal, ← hsum, hpl]
  · intro h
    have hmod : m.totalSize = (fileLengths info).sum := by
      rw [htotal, Nat.mod_eq_of_lt h.total_lt]
    refine ⟨hpl ▸ h.pieceLength_pos, h.pieces_pos, h.pieces_dvd, ?_, ?_, ?_⟩
    · rw [hmod]
      exact h.total_pos
    · rw [hmod, hfiles]
    · rw [hcount h.pieces_dvd, h.count_eq, hmod, hpl]

/-! ### Accepted inputs -/

variable (sha1 : Bytes → Sha1sum) (fresh past : ℕ → UInt8)

/-- What a fresh object holds behind a successful `internalParse`. -/
theorem internalParse_success {m : TorrentMeta} (hm : m.files = [] ∧ m.totalSize = 0)
    (hsums : m.sha1sums = []) {dict : Dictionary} {bencode : Bencode} {r : ParseResult}
    (h : m.internalParse sha1 fresh past dict bencode = some r) (hr : r.success = true) :
    r.torrent.Coherent (piecesOf (castDictionary (dict.at_ (key "info")))) ↔
      WellSized (castDictionary (dict.at_ (key "info"))) := by
  rw [internalParse] at h
  dsimp only at h
  split_ifs at h with hann hinfo hkeys
  · cases h
    cases hr
  · cases h
    cases hr
  · obtain ⟨encoded, -, rfl⟩ := Option.map_eq_some_iff.1 h
    cases hr
  · obtain ⟨encoded, -, rfl⟩ := Option.map_eq_some_iff.1 h
    dsimp only at hr ⊢
    generalize hread : readFiles _ _ = p at hr ⊢
    obtain ⟨success, m'⟩ := p
    obtain rfl : success = true := hr
    obtain ⟨hlengths, htotal, hpl, hread'⟩ := readFiles_lengths (by exact hm) hread
    have hsums' : m'.sha1sums =
        readSums past (piecesOf (castDictionary (dict.at_ (key "info")))) := by
      rw [hread', readOuter, hsums, List.nil_append, piecesOf]
    exact coherent_iff hpl hsums' hlengths htotal

/-- **Which accepted metainfo is consistent.** Let `parse` on a fresh object return true. Then the
input decodes to a dictionary, and the stored fields agree exactly if its `info` entry is well
sized. -/
theorem parse_coherent_iff (junk : ℕ → UInt64) (checkSum : Sha1sum) (data : Bytes)
    {r : ParseResult} {pos : ℕ}
    (h : ({ checkSum := checkSum } : TorrentMeta).parse sha1 fresh past junk data = .ok r pos)
    (hr : r.success = true) :
    ∃ dict bencode, Bencode.decode junk (Bencode.new fresh) data = .ok (dict, bencode) pos ∧
      (r.torrent.Coherent (piecesOf (castDictionary (dict.at_ (key "info")))) ↔
        WellSized (castDictionary (dict.at_ (key "info")))) := by
  rw [parse] at h
  cases hd : Bencode.decode junk (Bencode.new fresh) data with
  | fault f =>
    rw [hd] at h
    cases h
  | outOfFuel =>
    rw [hd] at h
    cases h
  | ok value pos' =>
    obtain ⟨dict, bencode⟩ := value
    rw [hd, Outcome.bind_ok] at h
    split_ifs at h with hempty
    · cases h
      cases hr
    · cases hi : ({ checkSum := checkSum } : TorrentMeta).internalParse sha1 fresh past dict
          bencode with
      | none =>
        simp only [hi] at h
        cases h
      | some result =>
        simp only [hi] at h
        cases h
        exact ⟨dict, bencode, rfl,
          internalParse_success sha1 fresh past ⟨rfl, rfl⟩ rfl hi hr⟩

/-- `parse` on a fresh object, with zero for whatever is not initialised. -/
def parseZero (data : Bytes) : Outcome ParseResult :=
  ({ checkSum := fun _ => 0 } : TorrentMeta).parse (fun _ _ => 0) (fun _ => 0) (fun _ => 0)
    (fun _ => 0) data

/-- The input is accepted with a metainfo of which `p` holds. -/
def accepts (p : TorrentMeta → Bool) (data : Bytes) : Bool :=
  match parseZero data with
  | .ok r _ => r.success && p r.torrent
  | _ => false

theorem exists_of_accepts {p : TorrentMeta → Bool} {data : Bytes} (h : accepts p data = true) :
    ∃ r pos, parseZero data = .ok r pos ∧ r.success = true ∧ p r.torrent = true := by
  rw [accepts] at h
  cases hd : parseZero data with
  | ok r pos =>
    rw [hd, Bool.and_eq_true] at h
    exact ⟨r, pos, rfl, h.1, h.2⟩
  | _ =>
    rw [hd] at h
    cases h

/-- Metainfo for one file of four bytes and one piece, with a digit for the piece length. -/
def fourBytes (digit : String) : Bytes :=
  key ("d8:announce0:4:infod6:lengthi4e12:piece lengthi" ++ digit ++
    "e6:pieces20:aaaaaaaaaaaaaaaaaaaaee")

theorem parse_coherent_iff_fourBytes :
    ∃ r pos dict bencode, parseZero (fourBytes "4") = .ok r pos ∧ r.success = true ∧
      Bencode.decode (fun _ => 0) (Bencode.new (fun _ => 0)) (fourBytes "4") =
        .ok (dict, bencode) pos ∧
      (r.torrent.Coherent (piecesOf (castDictionary (dict.at_ (key "info")))) ↔
        WellSized (castDictionary (dict.at_ (key "info")))) := by
  have haccepts : accepts (fun _ => true) (fourBytes "4") = true := by decide +kernel
  obtain ⟨r, pos, hparse, hr, -⟩ := exists_of_accepts haccepts
  obtain ⟨dict, bencode, hd, hiff⟩ := parse_coherent_iff _ _ _ _ _ _ hparse hr
  exact ⟨r, pos, dict, bencode, hparse, hr, hd, hiff⟩

/-- A piece length of zero is accepted. -/
theorem not_coherent_zeroPieceLength :
    ∃ r pos, parseZero (fourBytes "0") = .ok r pos ∧ r.success = true ∧
      ∀ pieces, ¬r.torrent.Coherent pieces := by
  have haccepts : accepts (fun m => m.pieceLength == 0) (fourBytes "0") = true := by
    decide +kernel
  obtain ⟨r, pos, hparse, hr, hzero⟩ := exists_of_accepts haccepts
  refine ⟨r, pos, hparse, hr, fun pieces h => ?_⟩
  exact h.pieceLength_pos.ne' (beq_iff_eq.1 hzero)

end TorrentMeta

end CTorrent
