import CTorrent.Lib.Splice
import CTorrent.Meta.TorrentMeta

/-!
# Files and machine integers of the file manager

A `FILE *` opened for reading and writing is the content of the file and the position of the
stream. A `size_t` is a natural number below `2 ^ 64`; sums and products are taken modulo
`2 ^ 64` where the code computes them, differences by `sub64`.

* `fseek`, `fread`, `fwrite`; how many bytes an `fwrite` gets on disk is a parameter;
* `TorrentFile`: an open file with its place in the torrent.
-/

namespace CTorrent

/-- `a - b` for `size_t`. -/
def sub64 (a b : ℕ) : ℕ := (a + 2 ^ 64 - b % 2 ^ 64) % 2 ^ 64

/-- The conversion of a `size_t` to `int64_t`. -/
def toInt64 (n : ℕ) : ℤ :=
  if n % 2 ^ 64 < 2 ^ 63 then (n % 2 ^ 64 : ℕ) else (n % 2 ^ 64 : ℕ) - 2 ^ 64

/-- The conversion of an `int64_t` to `size_t`. -/
def toSize (z : ℤ) : ℕ := (z % 2 ^ 64).toNat

theorem sub64_of_le {a b : ℕ} (ha : a < 2 ^ 64) (h : b ≤ a) : sub64 a b = a - b := by
  rw [sub64]
  omega

theorem toInt64_of_lt {n : ℕ} (h : n < 2 ^ 63) : toInt64 n = n := by
  rw [toInt64, Nat.mod_eq_of_lt (by omega), if_pos h]

theorem toSize_toInt64 {n : ℕ} (h : n < 2 ^ 64) : toSize (toInt64 n) = n := by
  rw [toSize, toInt64]
  split_ifs <;> omega

/-- An open stream: the content of the file and the position. -/
structure FILE where
  content : Bytes
  pos : ℕ := 0

namespace FILE

/-- `fseek(fp, offset, SEEK_SET)`: an offset that is negative as a `long` is refused. -/
def fseek (fp : FILE) (offset : ℕ) : FILE :=
  if offset < 2 ^ 63 then { fp with pos := offset } else fp

/-- `fread(…, 1, n, fp)`: the bytes read, at most `n`, and the stream afterwards. -/
def fread (fp : FILE) (n : ℕ) : Bytes × FILE :=
  let chunk := Splice.region fp.content fp.pos n
  (chunk, { fp with pos := fp.pos + chunk.length })

/-- `fwrite(data, 1, |data|, fp)` of which `wrote` bytes come to be written: a gap behind the end
of the file is filled with zeros. -/
def fwrite (fp : FILE) (data : Bytes) (wrote : ℕ) : ℕ × FILE :=
  let written := data.take wrote
  if written = [] then (0, fp)
  else
    (written.length,
      { content := Splice.overwrite
          (fp.content ++ List.replicate (fp.pos - fp.content.length) 0) fp.pos written
        pos := fp.pos + written.length })

@[simp] theorem content_fseek (fp : FILE) (offset : ℕ) :
    (fp.fseek offset).content = fp.content := by
  rw [fseek]
  split_ifs <;> rfl

theorem pos_fseek (fp : FILE) {offset : ℕ} (h : offset < 2 ^ 63) :
    (fp.fseek offset).pos = offset := by
  rw [fseek, if_pos h]

@[simp] theorem content_fread (fp : FILE) (n : ℕ) : (fp.fread n).2.content = fp.content := rfl

/-- A write inside the file, or at its end, that gets all its bytes on disk. -/
theorem fwrite_of_le (fp : FILE) (data : Bytes) {wrote : ℕ} (h : fp.pos ≤ fp.content.length)
    (hw : data.length ≤ wrote) :
    (fp.fwrite data wrote).1 = data.length ∧
      (fp.fwrite data wrote).2.content = Splice.overwrite fp.content fp.pos data := by
  rw [fwrite, List.take_of_length_le hw]
  by_cases hd : data = []
  · subst hd
    simp
  · simp [hd, Nat.sub_eq_zero_of_le h]

end FILE

/-- `struct TorrentFile`. -/
structure TorrentFile where
  fp : FILE
  info : TorrentFileInfo

end CTorrent
