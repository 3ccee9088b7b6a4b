import CTorrent.Bencode.Decoder

/-!
# `ctorrent/torrentmeta.cpp`: the metainfo

`TorrentMeta` is filled by `parse`, which decodes the input and reads the dictionary. The info hash
is taken over a re-encoding of the `info` value, written behind the decoded bytes in the same
`Bencode` object. `sha1` is the hash function and `past` stands for the bytes behind the final
NUL of the `pieces` string, which the last pass of the loop over it may reach.

* `parseFile`, `internalParse`, `parse`;
* `ParseResult.processed`: the bytes that were fed to `sha1.process_bytes`.
-/

namespace CTorrent

/-- The bytes of a string literal. -/
def key (s : String) : Bytes := s.toList.map Char.toUInt8

/-- `struct sha1sum`. -/
abbrev Sha1sum := Fin 5 → UInt32

/-- `struct TorrentFileInfo`. -/
structure TorrentFileInfo where
  path : Bytes
  index : ℕ
  begin : ℕ
  length : ℕ

/-- A `TorrentMeta` object. `checkSum` is not initialised by the constructor. -/
structure TorrentMeta where
  checkSum : Sha1sum
  dirName : Bytes := []
  name : Bytes := []
  comment : Bytes := []
  createdBy : Bytes := []
  mainTracker : Bytes := []
  pieceLength : ℕ := 0
  totalSize : ℕ := 0
  files : List TorrentFileInfo := []
  trackers : VectorType := []
  sha1sums : List Sha1sum := []

/-- The return value of `parse`, the object afterwards, and what was hashed, if anything. -/
structure ParseResult where
  success : Bool
  torrent : TorrentMeta
  processed : Option Bytes

namespace TorrentMeta

/-- `PATH_SEP`. -/
def pathSep : UInt8 := ch '/'

/-- The loop of `parseFile` over the path components. -/
def joinPath (pathList : VectorType) : Bytes :=
  pathList.foldl (fun path any => (if path.isEmpty then path else path ++ [pathSep]) ++
    castString any) []

/-- `parseFile`: the object and the counters `index` and `begin` afterwards. It never fails. -/
def parseFile (m : TorrentMeta) (pathList : VectorType) (index begin length : ℕ) :
    TorrentMeta × ℕ × ℕ :=
  ({ m with
      files := m.files ++ [⟨joinPath pathList, index, begin, length⟩]
      totalSize := (m.totalSize + length) % 2 ^ 64 },
    (index + 1) % 2 ^ 64, (begin + length) % 2 ^ 64)

/-- The loop of `internalParse` over the entries of `files`. -/
def parseFiles (m : TorrentMeta) (entries : List Any) : TorrentMeta :=
  (entries.foldl (fun (s : TorrentMeta × ℕ × ℕ) f =>
    let v := castDictionary f
    parseFile s.1 (castVector (v.at_ (key "path"))) s.2.1 s.2.2
      (castUint64 (v.at_ (key "length"))).toNat) (m, 0, 0)).1

/-- The byte at an offset into `pieces.c_str()`. -/
def pieceByte (past : ℕ → UInt8) (pieces : Bytes) (i : ℕ) : UInt32 :=
  (if i = pieces.length then 0 else pieces[i]?.getD (past i)).toUInt32

/-- The `sha1sum` at an offset: five big-endian words. -/
def readSum (past : ℕ → UInt8) (pieces : Bytes) (i : ℕ) : Sha1sum := fun k =>
  let tmp := i + k.val * 4
  (pieceByte past pieces tmp <<< 24) ||| (pieceByte past pieces (tmp + 1) <<< 16) |||
    (pieceByte past pieces (tmp + 2) <<< 8) ||| (pieceByte past pieces (tmp + 3) <<< 0)

/-- The loop over `pieces`: one entry for each started block of twenty bytes. -/
def readSums (past : ℕ → UInt8) (pieces : Bytes) : List Sha1sum :=
  (List.range ((pieces.length + 19) / 20)).map fun n => readSum past pieces (n * 20)

/-- The last part of `internalParse`: the file list, or the single file. -/
def readFiles (m : TorrentMeta) (info : Dictionary) : Bool × TorrentMeta :=
  if info.count (key "files") then
    let m := { m with dirName := castString (info.at_ (key "name")) }
    match info.at_ (key "files") with
    | .dictionary d => (true, m.parseFiles (d.map Prod.snd))
    | .vector v => (true, m.parseFiles v)
    | _ => (false, m)
  else
    let length := (castUint64 (info.at_ (key "length"))).toNat
    if length = 0 then (false, m)
    else (true, { m with totalSize := length, files := m.files ++ [⟨m.name, 0, 0, length⟩] })

variable (sha1 : Bytes → Sha1sum) (fresh past : ℕ → UInt8)

/-- The fields `internalParse` reads from the outer dictionary, behind the check for `announce`. -/
def readOuter (m : TorrentMeta) (dict : Dictionary) : TorrentMeta :=
  { m with
    mainTracker := castString (dict.at_ (key "announce"))
    comment := if dict.count (key "comment") then castString (dict.at_ (key "comment"))
      else m.comment
    createdBy := if dict.count (key "created by") then castString (dict.at_ (key "created by"))
      else m.createdBy
    trackers := if dict.count (key "announce-list") then castVector (dict.at_ (key "announce-list"))
      else m.trackers }

/-- `internalParse`; `none` where the encoder does not return. -/
def internalParse (m : TorrentMeta) (dict : Dictionary) (bencode : Bencode) : Option ParseResult :=
  if !dict.count (key "announce") then some ⟨false, m, none⟩
  else
    let m := m.readOuter dict
    let info := castDictionary (dict.at_ (key "info"))
    if info.isEmpty then some ⟨false, m, none⟩
    else
      -- `pos` is the cursor behind the decoded input; the encoder writes from there on
      (bencode.encode fresh info).map fun encoded =>
        if !info.count (key "pieces") || !info.count (key "piece length") then ⟨false, m, none⟩
        else
          let buffer := encoded.bufferFrom bencode.pos
          let pieces := castString (info.at_ (key "pieces"))
          let m := { m with
            checkSum := sha1 buffer
            name := castString (info.at_ (key "name"))
            pieceLength := (castUint64 (info.at_ (key "piece length"))).toNat
            sha1sums := m.sha1sums ++ readSums past pieces }
          let (success, m) := m.readFiles info
          ⟨success, m, some buffer⟩

/-- `parse(data, size)`. -/
def parse (junk : ℕ → UInt64) (m : TorrentMeta) (data : Bytes) : Outcome ParseResult :=
  (Bencode.decode junk (Bencode.new fresh) data).bind fun r pos =>
    if r.1.isEmpty then .ok ⟨false, m, none⟩ pos
    else
      match m.internalParse sha1 fresh past r.1 r.2 with
      | none => .outOfFuel
      | some result => .ok result pos

/-- **What is hashed.** When the outer dictionary has `announce` and a non-empty `info` with
`pieces` and `piece length`, `internalParse` returns and hashes the encoding of `info`. -/
theorem internalParse_processed {m : TorrentMeta} {dict info : Dictionary} (bencode : Bencode)
    (hann : dict.count (key "announce") = true)
    (hinfo : castDictionary (dict.at_ (key "info")) = info)
    (hpieces : info.count (key "pieces") = true)
    (hlen : info.count (key "piece length") = true)
    (hpos : bencode.pos ≤ bencode.buffer.cap) (hcap : 0 < bencode.buffer.cap) :
    ∃ r, m.internalParse sha1 fresh past dict bencode = some r ∧
      r.processed = some (encoding (.dictionary info)) := by
  obtain ⟨e, he, -, -, -, hb⟩ := Bencode.encode_spec fresh hpos hcap info
  have hne : info.isEmpty = false := by
    cases info with
    | nil => exact absurd hpieces (by simp [Dictionary.count, Dictionary.find?])
    | cons p info => rfl
  rw [internalParse, hann, hinfo]
  simp only [hne, he, hpieces, hlen, hb, Option.map_some, Bool.not_true, Bool.false_eq_true,
    Bool.or_self, if_false]
  exact ⟨_, rfl, rfl⟩

end TorrentMeta

end CTorrent
