import CTorrent.Bencode.RoundTrip
import CTorrent.FileManager.Download
import CTorrent.Meta.Coherent
import CTorrent.Util.Serializer

/-!
# Published torrents

The author of a torrent has its files, cuts them into pieces, and has the metainfo written by
`Bencode::encode`. What `TorrentMeta::parse` makes of it is what the author described.

* `Publication`: the files and what is said about them; `WellFormed`: the sizes fit;
* `metainfo`, `info`: the dictionaries; `torrent`: the description as a `TorrentMeta`;
* `readSums_sumBytes`, `parseFiles_entry`: the hashes and the files are read back;
* `parse_publication`: so is the whole; `consistent_torrent`: it is fit for the file manager.
-/

namespace CTorrent

open Splice TorrentMeta

/-- A file of a torrent: the components of its path, and what it holds. -/
structure PublishedFile where
  path : List Bytes
  content : Bytes

/-- What is published: one file, or a directory of files. -/
inductive Payload where
  | file (content : Bytes)
  | directory (files : List PublishedFile)

/-- A torrent as its author has it. -/
structure Publication where
  announce : Bytes
  announceList : Option (List (List Bytes)) := none
  comment : Option Bytes := none
  createdBy : Option Bytes := none
  name : Bytes
  pieceLength : ℕ
  payload : Payload

/-- The path and the content of a file. -/
def PublishedFile.named (f : PublishedFile) : Bytes × Bytes :=
  (joinPath (f.path.map .string), f.content)

/-- The entry of a file in `files`. -/
def PublishedFile.entry (f : PublishedFile) : Any :=
  .dictionary [(key "length", .uint64 (UInt64.ofNat f.content.length)),
    (key "path", .vector (f.path.map .string))]

/-- The twenty bytes of a digest. -/
def sumBytes (s : Sha1sum) : Bytes := (List.finRange 5).flatMap fun k => writeBE32 (s k)

namespace Publication

variable (sha1 : Bytes → Sha1sum) (p : Publication)

/-- The paths and contents of the files. -/
def contents : List (Bytes × Bytes) :=
  match p.payload with
  | .file content => [(p.name, content)]
  | .directory files => files.map PublishedFile.named

/-- What is cut into pieces. -/
def content : Bytes := p.contents.flatMap Prod.snd

/-- The number of pieces. -/
def count : ℕ := ceilDiv p.content.length p.pieceLength

/-- The bytes of a piece. -/
def piece (i : ℕ) : Bytes :=
  region p.content (i * p.pieceLength) (min p.pieceLength (p.content.length - i * p.pieceLength))

/-- The digests of the pieces. -/
def sums : List Sha1sum := (List.range p.count).map fun i => sha1 (p.piece i)

/-- The `info` dictionary. -/
def info : Dictionary :=
  (match p.payload with
    | .file content => (key "length", .uint64 (UInt64.ofNat content.length))
    | .directory files => (key "files", .vector (files.map PublishedFile.entry))) ::
  [(key "name", .string p.name), (key "piece length", .uint64 (UInt64.ofNat p.pieceLength)),
    (key "pieces", .string ((p.sums sha1).flatMap sumBytes))]

/-- The metainfo. -/
def metainfo : Dictionary :=
  [(key "announce", .string p.announce)] ++
  (p.announceList.toList.map fun tiers =>
    (key "announce-list", .vector (tiers.map fun tier => .vector (tier.map .string)))) ++
  (p.comment.toList.map fun s => (key "comment", .string s)) ++
  (p.createdBy.toList.map fun s => (key "created by", .string s)) ++
  [(key "info", .dictionary (p.info sha1))]

/-- The files behind `k` others, which end at `b`. -/
def fileInfos : ℕ → ℕ → List (Bytes × Bytes) → List TorrentFileInfo
  | _, _, [] => []
  | k, b, (path, content) :: files =>
      ⟨path, k, b, content.length⟩ :: fileInfos (k + 1) (b + content.length) files

/-- The description of the torrent. -/
def torrent : TorrentMeta where
  checkSum := sha1 (encoding (.dictionary (p.info sha1)))
  dirName := match p.payload with
    | .file _ => []
    | .directory _ => p.name
  name := p.name
  comment := p.comment.getD []
  createdBy := p.createdBy.getD []
  mainTracker := p.announce
  pieceLength := p.pieceLength
  totalSize := p.content.length
  files := fileInfos 0 0 p.contents
  trackers := (p.announceList.getD []).map fun tier => .vector (tier.map .string)
  sha1sums := p.sums sha1

/-- The sizes fit. -/
structure WellFormed : Prop where
  pieceLength_pos : 0 < p.pieceLength
  pieceLength_lt : p.pieceLength < 2 ^ 32
  total_pos : 0 < p.content.length
  total_lt : p.content.length < 2 ^ 62
  count_lt : p.count < 2 ^ 31
  files_lt : p.contents.length < 2 ^ 64

end Publication

/-! ### The digests -/

section Sums

variable (past : ℕ → UInt8)

theorem length_sumBytes (s : Sha1sum) : (sumBytes s).length = 20 := rfl

theorem pieceByte_of_lt {pieces : Bytes} {i : ℕ} (h : i < pieces.length) :
    pieceByte past pieces i = (byteAt pieces i).toUInt32 := by
  rw [pieceByte, if_neg (Nat.ne_of_lt h), byteAt, List.getElem?_eq_getElem h]
  rfl

/-- Four bytes, put together from the front and in pairs. -/
theorem or_bytes (b0 b1 b2 b3 : UInt32) :
    (b0 <<< 24) ||| (b1 <<< 16) ||| (b2 <<< 8) ||| (b3 <<< 0) =
      (b3 ||| (b2 <<< 8)) ||| ((b1 ||| (b0 <<< 8)) <<< 16) := by
  have h24 : b0 <<< 24 = b0 <<< 8 <<< 16 := by
    rw [← UInt32.shiftLeft_add_of_toNat_lt (by decide), show (8 : UInt32) + 16 = 24 by decide]
  have h0 : b3 <<< 0 = b3 := UInt32.shiftLeft_zero
  rw [UInt32.shiftLeft_or, h24, h0, UInt32.or_assoc (b0 <<< 8 <<< 16 ||| b1 <<< 16),
    UInt32.or_comm, UInt32.or_comm (b2 <<< 8), UInt32.or_comm (b1 <<< 16)]

/-- A word of a digest. -/
theorem readSum_word {pieces : Bytes} {i : ℕ} (h : i + 20 ≤ pieces.length) (k : Fin 5) :
    readSum past pieces i k = readBE32 pieces (i + k.val * 4) := by
  have hk := k.isLt
  rw [readSum]
  rw [pieceByte_of_lt past (by omega), pieceByte_of_lt past (by omega),
    pieceByte_of_lt past (by omega), pieceByte_of_lt past (by omega), or_bytes]
  rfl

/-- A digest is read back. -/
theorem readSum_sumBytes (s : Sha1sum) (a b : Bytes) :
    readSum past (a ++ sumBytes s ++ b) a.length = s := by
  funext k
  rw [readSum_word past (by simp [length_sumBytes])]
  have hsum : sumBytes s = writeBE32 (s 0) ++ writeBE32 (s 1) ++ writeBE32 (s 2) ++
      writeBE32 (s 3) ++ writeBE32 (s 4) := rfl
  have hword : ∀ (n : ℕ) (c d : Bytes) (w : UInt32), sumBytes s = c ++ writeBE32 w ++ d →
      c.length = n → readBE32 (a ++ sumBytes s ++ b) (a.length + n) = w := by
    intro n c d w heq hn
    have hread := readBE32_writeBE32 w (a ++ c) (d ++ b)
    rw [heq, ← hn, ← List.length_append]
    simpa using hread
  let w (k : Fin 5) : Bytes := writeBE32 (s k)
  obtain ⟨k, hk⟩ := k
  interval_cases k
  · exact hword 0 [] (w 1 ++ w 2 ++ w 3 ++ w 4) (s 0)
      (by rw [hsum]; simp only [w, List.append_assoc, List.nil_append]) rfl
  · exact hword 4 (w 0) (w 2 ++ w 3 ++ w 4) (s 1)
      (by rw [hsum]; simp only [w, List.append_assoc]) rfl
  · exact hword 8 (w 0 ++ w 1) (w 3 ++ w 4) (s 2)
      (by rw [hsum]; simp only [w, List.append_assoc]) rfl
  · exact hword 12 (w 0 ++ w 1 ++ w 2) (w 4) (s 3) hsum rfl
  · exact hword 16 (w 0 ++ w 1 ++ w 2 ++ w 3) [] (s 4)
      (by rw [hsum]; simp only [w, List.append_nil]) rfl

/-- The digests are read back. -/
theorem readSums_sumBytes (l : List Sha1sum) : readSums past (l.flatMap sumBytes) = l := by
  have hlength : ∀ l : List Sha1sum, (l.flatMap sumBytes).length = 20 * l.length := by
    intro l
    induction l with
    | nil => rfl
    | cons s l ih =>
      rw [List.flatMap_cons, List.length_append, length_sumBytes, ih, List.length_cons]
      omega
  -- the digests that are left, behind those that have been read
  suffices h : ∀ (l : List Sha1sum) (a : Bytes) (n : ℕ), a.length = 20 * n →
      (List.range' n l.length).map (fun n => readSum past (a ++ l.flatMap sumBytes) (n * 20)) =
        l by
    rw [readSums, hlength, show (20 * l.length + 19) / 20 = l.length by omega,
      List.range_eq_range' (n := l.length)]
    exact h l [] 0 rfl
  intro l
  induction l with
  | nil => exact fun _ _ _ => rfl
  | cons s l ih =>
    intro a n ha
    have hread := readSum_sumBytes past s a (l.flatMap sumBytes)
    have hrest := ih (a ++ sumBytes s) (n + 1) (by
      rw [List.length_append, length_sumBytes, ha]
      omega)
    rw [ha, Nat.mul_comm] at hread
    rw [List.length_cons, List.range'_succ, List.map_cons, List.flatMap_cons,
      ← List.append_assoc, hread, hrest]

end Sums

/-! ### The files -/

section Files

theorem entry_path (f : PublishedFile) :
    castVector ((castDictionary f.entry).at_ (key "path")) = f.path.map .string := by
  have hne : ¬ key "length" = key "path" := by decide
  simp [PublishedFile.entry, castDictionary, Dictionary.at_, Dictionary.find?, hne, castVector]

theorem entry_length (f : PublishedFile) (h : f.content.length < 2 ^ 64) :
    (castUint64 ((castDictionary f.entry).at_ (key "length"))).toNat = f.content.length := by
  have hmod : f.content.length % 18446744073709551616 = f.content.length := Nat.mod_eq_of_lt h
  simp [PublishedFile.entry, castDictionary, Dictionary.at_, Dictionary.find?, castUint64, hmod]

/-- The files are read back, each behind the one before it. -/
theorem parseFiles_entry (m : TorrentMeta) (hm : m.files = [] ∧ m.totalSize = 0)
    (files : List PublishedFile) (hn : files.length < 2 ^ 64)
    (hlt : ((files.map PublishedFile.named).flatMap Prod.snd).length < 2 ^ 64) :
    m.parseFiles (files.map PublishedFile.entry) =
      { m with
        files := Publication.fileInfos 0 0 (files.map PublishedFile.named)
        totalSize := ((files.map PublishedFile.named).flatMap Prod.snd).length } := by
  -- the induction carries the object and its counters
  suffices h : ∀ (files : List PublishedFile) (m : TorrentMeta) (k b : ℕ),
      m.totalSize = b → k + files.length < 2 ^ 64 →
      b + ((files.map PublishedFile.named).flatMap Prod.snd).length < 2 ^ 64 →
      ((files.map PublishedFile.entry).foldl (fun (s : TorrentMeta × ℕ × ℕ) f =>
        let v := castDictionary f
        parseFile s.1 (castVector (v.at_ (key "path"))) s.2.1 s.2.2
          (castUint64 (v.at_ (key "length"))).toNat) (m, k, b)).1 =
        { m with
          files := m.files ++ Publication.fileInfos k b (files.map PublishedFile.named)
          totalSize := b + ((files.map PublishedFile.named).flatMap Prod.snd).length } by
    have h0 := h files m 0 0 hm.2 (by omega) (by omega)
    rw [hm.1] at h0
    simpa [parseFiles] using h0
  intro files
  induction files with
  | nil =>
    rintro m k b rfl - -
    simp [Publication.fileInfos]
  | cons f files ih =>
    rintro m k b rfl hk hb
    simp only [List.map_cons, List.flatMap_cons, List.length_append, List.length_cons] at hk hb
    have hf : f.named.2 = f.content := rfl
    rw [hf] at hb
    have hrest := ih (parseFile m (f.path.map .string) k m.totalSize f.content.length).1 (k + 1)
      (m.totalSize + f.content.length)
      (by rw [parseFile, Nat.mod_eq_of_lt (by omega)]) (by omega) (by omega)
    rw [List.map_cons, List.foldl_cons]
    simp only [entry_path, entry_length f (show f.content.length < 2 ^ 64 by omega)]
    have hcounters : parseFile m (f.path.map .string) k m.totalSize f.content.length =
        ((parseFile m (f.path.map .string) k m.totalSize f.content.length).1, k + 1,
          m.totalSize + f.content.length) := by
      refine Prod.ext rfl (Prod.ext ?_ ?_)
      · exact Nat.mod_eq_of_lt (by omega)
      · exact Nat.mod_eq_of_lt (by omega)
    rw [hcounters, hrest]
    simp [parseFile, Publication.fileInfos, PublishedFile.named, Nat.add_assoc]

end Files

/-! ### The dictionaries -/

namespace Dictionary

theorem find?_append (d d' : Dictionary) (k : Bytes) :
    find? (d ++ d') k = (d.find? k).or (d'.find? k) := by
  induction d with
  | nil => rfl
  | cons p d ih =>
    obtain ⟨k', v⟩ := p
    rw [List.cons_append, find?, find?]
    split_ifs
    · rfl
    · exact ih

/-- An entry that need not be there. -/
theorem find?_toList {α : Type} (o : Option α) (k' k : Bytes) (g : α → Any) :
    find? (o.toList.map fun a => (k', g a)) k = if k' = k then o.map g else none := by
  cases o with
  | none => simp [find?]
  | some a => simp [find?]

end Dictionary

theorem encodableValues_map {α : Type} {g : α → Any} (h : ∀ a, Encodable (g a)) (l : List α) :
    EncodableValues (l.map g) := by
  induction l with
  | nil => trivial
  | cons a l ih => exact ⟨h a, ih⟩

theorem encodablePairs_iff {d : Dictionary} :
    EncodablePairs d ↔ ∀ q ∈ d, q.1 ≠ [] ∧ Encodable q.2 := by
  induction d with
  | nil => simp [EncodablePairs]
  | cons q d ih =>
    obtain ⟨k, v⟩ := q
    rw [EncodablePairs, ih, List.forall_mem_cons, and_assoc]

theorem encodable_string (s : Bytes) : Encodable (.string s) := by
  rw [Encodable]
  trivial

theorem encodable_strings (l : List Bytes) : Encodable (.vector (l.map .string)) := by
  rw [Encodable]
  exact encodableValues_map encodable_string l

theorem encodable_entry (f : PublishedFile) : Encodable f.entry := by
  rw [PublishedFile.entry, Encodable]
  refine ⟨by simp, ?_, ?_⟩
  · have hkeys : [key "length", key "path"].Pairwise (· < ·) := by decide
    exact hkeys
  · rw [encodablePairs_iff]
    simp [key, Encodable.eq_1, encodable_strings]

namespace Publication

variable (sha1 : Bytes → Sha1sum) (p : Publication)

theorem encodable_info : Encodable (.dictionary (p.info sha1)) := by
  rw [Encodable]
  cases hpayload : p.payload with
  | file content =>
    have hkeys : [key "length", key "name", key "piece length", key "pieces"].Pairwise (· < ·) := by
      decide
    refine ⟨by simp [info], ?_, ?_⟩
    · rw [info, hpayload]
      exact hkeys
    · rw [info, hpayload, encodablePairs_iff]
      simp [key, Encodable]
  | directory files =>
    have hkeys : [key "files", key "name", key "piece length", key "pieces"].Pairwise (· < ·) := by
      decide
    refine ⟨by simp [info], ?_, ?_⟩
    · rw [info, hpayload]
      exact hkeys
    · rw [info, hpayload, encodablePairs_iff]
      simp [key, Encodable, encodableValues_map, encodable_entry]

theorem encodable_metainfo : Encodable (.dictionary (p.metainfo sha1)) := by
  have hinfo := p.encodable_info sha1
  have htiers : ∀ tiers : List (List Bytes),
      Encodable (.vector (tiers.map fun tier => .vector (tier.map .string))) := fun tiers => by
    rw [Encodable]
    exact encodableValues_map encodable_strings tiers
  rw [Encodable]
  refine ⟨by simp [metainfo], ?_, ?_⟩
  · rw [Dictionary.Sorted, metainfo]
    rcases p.announceList with _ | tiers <;> rcases p.comment with _ | comment <;>
      rcases p.createdBy with _ | createdBy <;>
      simp only [Option.toList_none, Option.toList_some, List.map_cons, List.map_nil,
        List.cons_append, List.nil_append, List.append_nil] <;>
      decide
  · rw [encodablePairs_iff]
    simp only [metainfo, List.mem_append, List.mem_cons, List.mem_map, Option.mem_toList,
      List.not_mem_nil, or_false]
    rintro q ((((rfl | ⟨tiers, -, rfl⟩) | ⟨s, -, rfl⟩) | ⟨s, -, rfl⟩) | rfl)
    · exact ⟨by simp [key], encodable_string _⟩
    · exact ⟨by simp [key], htiers tiers⟩
    · exact ⟨by simp [key], encodable_string s⟩
    · exact ⟨by simp [key], encodable_string s⟩
    · exact ⟨by simp [key], hinfo⟩

/-! ### Parsing -/

/-- The entries of the metainfo. -/
theorem find?_metainfo :
    (p.metainfo sha1).find? (key "announce") = some (.string p.announce) ∧
    (p.metainfo sha1).find? (key "announce-list") = p.announceList.map (fun tiers =>
      .vector (tiers.map fun tier => .vector (tier.map .string))) ∧
    (p.metainfo sha1).find? (key "comment") = p.comment.map .string ∧
    (p.metainfo sha1).find? (key "created by") = p.createdBy.map .string ∧
    (p.metainfo sha1).find? (key "info") = some (.dictionary (p.info sha1)) := by
  simp +decide [metainfo, Dictionary.find?_append, Dictionary.find?_toList, Dictionary.find?]

/-- The entries of the `info` dictionary. -/
theorem find?_info :
    (p.info sha1).find? (key "name") = some (.string p.name) ∧
    (p.info sha1).find? (key "piece length") = some (.uint64 (UInt64.ofNat p.pieceLength)) ∧
    (p.info sha1).find? (key "pieces") = some (.string ((p.sums sha1).flatMap sumBytes)) := by
  unfold info
  cases p.payload <;> simp +decide [Dictionary.find?]

variable {sha1 p}

/-- The files are read back. -/
theorem readFiles_info (hp : p.WellFormed) {m : TorrentMeta} (hm : m.files = [] ∧ m.totalSize = 0)
    (hname : m.name = p.name) (hdir : m.dirName = []) :
    m.readFiles (p.info sha1) =
      (true, { m with
        dirName := (p.torrent sha1).dirName
        totalSize := p.content.length
        files := fileInfos 0 0 p.contents }) := by
  obtain ⟨hentry, -, -⟩ := p.find?_info sha1
  have htotal := hp.total_lt
  cases hpayload : p.payload with
  | file content =>
    have hcontent : p.content = content := by simp [Publication.content, contents, hpayload]
    have hpos := hp.total_pos
    rw [hcontent] at htotal hpos
    have hfiles : (p.info sha1).count (key "files") = false := by
      simp +decide [Dictionary.count, info, hpayload, Dictionary.find?]
    have hlength : (castUint64 ((p.info sha1).at_ (key "length"))).toNat = content.length := by
      have hmod : content.length % 18446744073709551616 = content.length :=
        Nat.mod_eq_of_lt (by omega)
      simp [Dictionary.at_, info, hpayload, Dictionary.find?, castUint64, hmod]
    rw [readFiles, hfiles]
    simp only [hlength, Bool.false_eq_true, if_false, if_neg hpos.ne', hm.1, hname, hcontent,
      List.nil_append, torrent, hpayload, contents, fileInfos, hdir]
  | directory files =>
    have hcontents : p.contents = files.map PublishedFile.named := by simp [contents, hpayload]
    have hfiles : (p.info sha1).find? (key "files") =
        some (.vector (files.map PublishedFile.entry)) := by
      simp [info, hpayload, Dictionary.find?]
    have hn : files.length < 2 ^ 64 := by simpa [hcontents] using hp.files_lt
    rw [Publication.content, hcontents] at htotal
    have hparse := parseFiles_entry { m with dirName := p.name } hm files hn (by omega)
    rw [readFiles, Dictionary.count, Dictionary.at_, Dictionary.at_, hfiles, hentry]
    simp only [Option.isSome_some, if_true, Option.getD_some, castString, hparse, torrent, hpayload,
      Publication.content, hcontents]

/-- The dictionary is taken apart. -/
theorem internalParse_metainfo (hp : p.WellFormed) (fresh past : ℕ → UInt8) (checkSum : Sha1sum)
    {bencode : Bencode} (hpos : bencode.pos ≤ bencode.buffer.cap) (hcap : 0 < bencode.buffer.cap) :
    ({ checkSum := checkSum } : TorrentMeta).internalParse sha1 fresh past (p.metainfo sha1)
      bencode = some ⟨true, p.torrent sha1, some (encoding (.dictionary (p.info sha1)))⟩ := by
  obtain ⟨hannounce, htiers, hcomment, hcreated, hinfo⟩ := p.find?_metainfo sha1
  obtain ⟨hname, hlength, hpieces⟩ := p.find?_info sha1
  obtain ⟨e, he, -, -, -, hbuffer⟩ := Bencode.encode_spec fresh hpos hcap (p.info sha1)
  have hpl : (UInt64.ofNat p.pieceLength).toNat = p.pieceLength :=
    Nat.mod_eq_of_lt (hp.pieceLength_lt.trans (by decide))
  have hne : (p.info sha1).isEmpty = false := rfl
  have houter : ({ checkSum := checkSum } : TorrentMeta).readOuter (p.metainfo sha1) =
      { checkSum := checkSum, mainTracker := p.announce, comment := p.comment.getD [],
        createdBy := p.createdBy.getD [],
        trackers := (p.announceList.getD []).map fun tier => .vector (tier.map .string) } := by
    rw [readOuter]
    simp only [Dictionary.count, Dictionary.at_, hannounce, htiers, hcomment, hcreated]
    cases p.announceList <;> cases p.comment <;> cases p.createdBy <;> rfl
  rw [internalParse, houter]
  simp only [Dictionary.count, Dictionary.at_, hannounce, hinfo, hname, hlength, hpieces,
    Option.isSome_some, Option.getD_some, castDictionary, castString, castUint64, hne, he, hbuffer,
    hpl, Bool.not_true, Bool.false_eq_true, Bool.or_self, if_false, Option.map_some,
    readSums_sumBytes, List.nil_append]
  rw [readFiles_info hp ⟨rfl, rfl⟩ rfl rfl]
  rfl

/-- The metainfo is parsed. -/
theorem parse_encoding (hp : p.WellFormed) (sha1 : Bytes → Sha1sum) (fresh past : ℕ → UInt8)
    (junk : ℕ → UInt64) (checkSum : Sha1sum) :
    ∃ e, (Bencode.new fresh).encode fresh (p.metainfo sha1) = some e ∧ ∀ t : Bytes,
      (e.bufferFrom 0 ++ t).length < 2 ^ 64 →
      ∃ pos, ({ checkSum := checkSum } : TorrentMeta).parse sha1 fresh past junk
          (e.bufferFrom 0 ++ t) =
        .ok ⟨true, p.torrent sha1, some (encoding (.dictionary (p.info sha1)))⟩ pos := by
  obtain ⟨e, he, hbuffer⟩ := Bencode.encode_new fresh (p.metainfo sha1)
  refine ⟨e, he, fun t hlen => ?_⟩
  obtain ⟨hs, ht, hc, hn⟩ := ofAny_spec _ (p.encodable_metainfo sha1)
  rw [ofAny] at hs ht hc hn
  rw [Value.toAny, Any.dictionary.injEq] at ht
  rw [hbuffer, ← hs] at hlen ⊢
  have hdecode := Bencode.decode_sentence junk fresh hc hn t hlen
  have hne : (p.metainfo sha1).isEmpty = false := rfl
  have hcap : 1 < (Value.sentence (.dict (ofPairs (p.metainfo sha1)))).length := by
    simp [Value.sentence]
  rw [ht] at hdecode
  refine ⟨(Value.sentence (.dict (ofPairs (p.metainfo sha1)))).length - 1, ?_⟩
  rw [parse, hdecode, Outcome.bind_ok]
  simp only [hne, Bool.false_eq_true, if_false]
  rw [internalParse_metainfo hp]
  · simp only [DataBuffer.cap_setData, List.length_drop, List.length_append]
    omega
  · simp only [DataBuffer.cap_setData, List.length_drop, List.length_append]
    omega

theorem laidOut_fileInfos (files : List (Bytes × Bytes)) (k b : ℕ) :
    LaidOut (fileInfos k b files) b (b + (files.flatMap Prod.snd).length) := by
  induction files generalizing k b with
  | nil => exact (Nat.add_zero b).symm
  | cons f files ih =>
    obtain ⟨path, content⟩ := f
    refine ⟨rfl, ?_⟩
    rw [List.flatMap_cons, List.length_append, ← Nat.add_assoc]
    exact ih (k + 1) (b + content.length)

/-- The description is fit for the file manager. -/
theorem consistent_torrent (hp : p.WellFormed) (sha1 : Bytes → Sha1sum) :
    Consistent (p.torrent sha1) where
  pieceLength_pos := hp.pieceLength_pos
  total_pos := hp.total_pos
  total_lt := hp.total_lt
  count_eq := by
    show (p.sums sha1).length = _
    rw [sums, List.length_map, List.length_range]
    rfl
  count_lt := by
    show (p.sums sha1).length < _
    rw [sums, List.length_map, List.length_range]
    exact hp.count_lt
  laidOut := by
    have h := laidOut_fileInfos p.contents 0 0
    rw [Nat.zero_add] at h
    exact h

/-- **What is published is what is parsed.** The metainfo of a torrent, as `Bencode::encode` writes
it, and whatever follows: `parse` accepts it, and stores the description, which is fit for the file
manager; the bytes that are hashed are those of the `info` dictionary. -/
theorem parse_publication (hp : p.WellFormed) (sha1 : Bytes → Sha1sum) (fresh past : ℕ → UInt8)
    (junk : ℕ → UInt64) (checkSum : Sha1sum) :
    Consistent (p.torrent sha1) ∧
    ∃ e, (Bencode.new fresh).encode fresh (p.metainfo sha1) = some e ∧ ∀ t : Bytes,
      (e.bufferFrom 0 ++ t).length < 2 ^ 64 →
      ∃ pos, ({ checkSum := checkSum } : TorrentMeta).parse sha1 fresh past junk
          (e.bufferFrom 0 ++ t) =
        .ok ⟨true, p.torrent sha1, some (encoding (.dictionary (p.info sha1)))⟩ pos :=
  ⟨consistent_torrent hp sha1, parse_encoding hp sha1 fresh past junk checkSum⟩

/-- A directory of two files, `d/x` and `y`, in two pieces. -/
def twoFiles : Publication where
  announce := key "http://t/"
  comment := some (key "c")
  name := key "n"
  pieceLength := 2
  payload := .directory [⟨[key "d", key "x"], [1, 2]⟩, ⟨[key "y"], [3]⟩]

theorem wellFormed_twoFiles : twoFiles.WellFormed where
  pieceLength_pos := by decide
  pieceLength_lt := by decide
  total_pos := by decide
  total_lt := by decide
  count_lt := by decide
  files_lt := by decide

theorem parse_publication_twoFiles :
    twoFiles.WellFormed ∧ Consistent (twoFiles.torrent fun _ _ => 0) ∧
    ∃ e, (Bencode.new fun _ => 0).encode (fun _ => 0)
        (twoFiles.metainfo fun _ _ => 0) = some e ∧ ∀ t : Bytes,
      (e.bufferFrom 0 ++ t).length < 2 ^ 64 →
      ∃ pos, ({ checkSum := fun _ => 0 } : TorrentMeta).parse (fun _ _ => 0) (fun _ => 0)
          (fun _ => 0) (fun _ => 0) (e.bufferFrom 0 ++ t) =
        .ok ⟨true, twoFiles.torrent fun _ _ => 0,
          some (encoding (.dictionary (twoFiles.info fun _ _ => 0)))⟩ pos :=
  ⟨wellFormed_twoFiles, parse_publication wellFormed_twoFiles _ _ _ _ _⟩

end Publication

end CTorrent
