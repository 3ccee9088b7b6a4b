import CTorrent.FileManager.Basic

/-!
# `TorrentFileManagerImpl`: the worker

`processWrite` and `processRead` go through all files in order. How much of each `fwrite` gets on
disk is a parameter (`wrote`, by file and amount). A read may be handed to the torrent, fail, or
store past the end of the block it allocated, whose cells hold `junk` at first.

* `writeLoop`, `processWrite`: `process_write`;
* `readFile`, `readLoop`, `processRead`: `process_read`;
* `work`: one pass of the loop over `m_writeRequests`.
-/

namespace CTorrent

namespace FileManager

/-- The loop of `process_write`: `rest` is the part of the data from `buf + off` on. -/
def writeLoop (wrote : TorrentFileInfo → ℕ → ℕ) : List TorrentFile → ℕ → Bytes → List TorrentFile
  | [], _, _ => []
  | f :: files, beginPos, rest =>
      let fileEnd := (f.info.begin + f.info.length) % 2 ^ 64
      if beginPos < f.info.begin then f :: files
      else if beginPos ≥ fileEnd then f :: writeLoop wrote files beginPos rest
      else
        let amount := min (fileEnd - beginPos) rest.length
        let r := (f.fp.fseek (beginPos - f.info.begin)).fwrite (rest.take amount)
          (wrote f.info amount)
        { f with fp := r.2 } ::
          writeLoop wrote files ((beginPos + r.1) % 2 ^ 64) (rest.drop r.1)

/-- `process_write`. -/
def processWrite (wrote : TorrentFileInfo → ℕ → ℕ) (fm : FileManager) (w : WriteRequest) :
    FileManager :=
  { fm with
    files := writeLoop wrote fm.files (w.index * fm.metainfo.pieceLength % 2 ^ 64) w.data
    pendingBits := fm.pendingBits.clear w.index }.complete w.index w.data

/-- The worker serves the front of `m_writeRequests` and pops it. -/
def work (wrote : TorrentFileInfo → ℕ → ℕ) (fm : FileManager) : Option FileManager :=
  match fm.writeRequests with
  | [] => none
  | w :: ws => some { fm.processWrite wrote w with writeRequests := ws }

/-- How `process_read` ends without a block for `onPieceReadComplete`: a store past the end of the
block, or `false`. -/
inductive ReadFault where
  | overrun
  | failed
  deriving DecidableEq

/-- The inner loop of `process_read` on one file: the block and `writePos` at its end. Every pass
moves `writePos` on, so the fuel `maxRead - writePos` suffices. -/
def readFile (readSize maxRead : ℕ) : ℕ → FILE → Bytes → ℕ → Except ReadFault (Bytes × ℕ)
  | 0, _, block, writePos => .ok (block, writePos)
  | fuel + 1, fp, block, writePos =>
      if writePos < maxRead then
        let (chunk, fp) := fp.fread (sub64 readSize writePos)
        let read := Bitset.toInt32 chunk.length
        if block.length < writePos + chunk.length then .error .overrun
        else if read ≤ 0 then .error .failed
        else readFile readSize maxRead fuel fp (Splice.overwrite block writePos chunk)
          (writePos + read.toNat)
      else .ok (block, writePos)

/-- The loop of `process_read` over the files. -/
def readLoop (blockBegin size : ℕ) : List TorrentFile → Bytes → ℕ → Except ReadFault Bytes
  | [], block, _ => .ok block
  | f :: files, block, writePos =>
      let filePos := (blockBegin + writePos) % 2 ^ 64
      let fileEnd := (f.info.begin + f.info.length) % 2 ^ 64
      if filePos < f.info.begin then .error .failed
      else if filePos > fileEnd then readLoop blockBegin size files block writePos
      else
        let readSize := max (fileEnd - filePos) (sub64 size writePos)
        let maxRead := (writePos + readSize) % 2 ^ 64
        match readFile readSize maxRead (maxRead - writePos)
            (f.fp.fseek (filePos - f.info.begin)) block writePos with
        | .error e => .error e
        | .ok (block, writePos) => readLoop blockBegin size files block writePos

/-- `process_read`: the block it hands to `onPieceReadComplete`. Every access to a file begins with
an `fseek`, so that the positions it leaves behind are not part of its result. -/
def processRead (junk : ℕ → UInt8) (fm : FileManager) (r : ReadRequest) : Except ReadFault Bytes :=
  readLoop ((r.begin + r.index * fm.metainfo.pieceLength) % 2 ^ 64) r.size fm.files
    ((List.range r.size).map junk) 0

end FileManager

end CTorrent
