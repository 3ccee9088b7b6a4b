import CTorrent.Bencode.RoundTrip
import CTorrent.Bencode.Soundness
import CTorrent.Bencode.Termination

/-!
# Writing behind what was decoded

`TorrentMeta::internalParse` encodes the info dictionary into the object that has decoded the file,
behind the cursor: the size of the buffer is set to the cursor first, and what the input held there
is written over. An object may be used for any number of inputs and dictionaries like this, since
the cursor always is within the buffer.

* `Used`: an object after any calls of `decode` and `encode`; `Writable`: what they keep up;
* `encode_behind_decode`: the bytes that `encode` writes there.
-/

namespace CTorrent

namespace Bencode

/-- A new object after any calls of `decode` that returned, and of `encode`. -/
inductive Used : Bencode → Prop where
  | new (fresh : ℕ → UInt8) : Used (Bencode.new fresh)
  | decode {object b : Bencode} (junk : ℕ → UInt64) (data : Bytes) (dict : Dictionary) (pos : ℕ) :
      Used object → decode junk object data = .ok (dict, b) pos → Used b
  | encode {object b : Bencode} (fresh : ℕ → UInt8) (d : Dictionary) :
      Used object → object.encode fresh d = some b → Used b

variable {object b : Bencode} {junk : ℕ → UInt64} {data : Bytes} {dict : Dictionary} {pos : ℕ}

/-- The cursor is within a buffer of positive capacity. -/
structure Writable (b : Bencode) : Prop where
  pos_le : b.pos ≤ b.buffer.cap
  cap_pos : 0 < b.buffer.cap

theorem writable_new (fresh : ℕ → UInt8) : (new fresh).Writable := by
  have hcap : (new fresh).buffer.cap = 64 := by simp [new, DataBuffer.new, DataBuffer.cap]
  constructor
  · exact Nat.zero_le _
  · omega

/-- What a `decode` that returns has done: nothing, where the input is no dictionary; and otherwise
it has read the input from the cursor on. -/
theorem exists_of_decode_eq_ok (h : decode junk object data = .ok (dict, b) pos) :
    (b = object ∧ pos = object.pos) ∨
      ∃ c rest, data = c :: rest ∧ b = ⟨DataBuffer.setData rest, pos⟩ ∧
        readDictionary junk (DataBuffer.setData rest) (2 * data.length) object.pos [] =
          .ok dict pos := by
  cases data with
  | nil => cases h
  | cons c rest =>
    rw [Bencode.decode] at h
    split_ifs at h
    · cases h
      exact .inl ⟨rfl, rfl⟩
    · obtain ⟨d, pos', hread, hpos⟩ := Outcome.bind_eq_ok h
      cases hpos
      exact .inr ⟨c, rest, rfl, rfl, hread⟩

theorem pos_eq_of_decode (h : decode junk object data = .ok (dict, b) pos) : pos = b.pos := by
  rcases exists_of_decode_eq_ok h with ⟨rfl, hpos⟩ | ⟨c, rest, rfl, rfl, -⟩
  · exact hpos
  · rfl

/-- A reader that returns has started within the input, and stops within it. -/
theorem Writable.decode (hobject : object.Writable)
    (h : decode junk object data = .ok (dict, b) pos) : b.Writable := by
  rcases exists_of_decode_eq_ok h with ⟨rfl, -⟩ | ⟨c, rest, rfl, rfl, hread⟩
  · exact hobject
  · rw [List.length_cons, Nat.mul_succ] at hread
    have hstart : object.pos < (DataBuffer.setData rest).cap := by
      by_contra hbehind
      rw [readDictionary_behind junk (Nat.le_of_not_lt hbehind)] at hread
      cases hread
    obtain ⟨passes, -, -, hstop⟩ := readDictionary_obeys junk (b := DataBuffer.setData rest) rfl
      (2 * rest.length + 2) object.pos [] [] hstart.le (by
        rw [DataBuffer.cap_setData]
        omega)
    rw [readDictionary_outcome] at hstop
    exact ⟨(hstop dict pos hread).2.1, Nat.zero_lt_of_lt hstart⟩

/-- `encode` leaves the cursor at the end of what is in use, and the bytes below the cursor it
started from as they were. -/
theorem encode_writable (h : b.Writable) (fresh : ℕ → UInt8) (d : Dictionary) :
    ∃ b', b.encode fresh d = some b' ∧ b'.Writable ∧ b'.buffer.size = b'.pos ∧
      b.pos < b'.buffer.cap ∧ b'.bufferFrom b.pos = encoding (.dictionary d) ∧
      b'.buffer.cells.take b.pos = b.buffer.cells.take b.pos := by
  obtain ⟨b', h', hpos, hsize, hcontents, hfrom⟩ := encode_spec fresh h.pos_le h.cap_pos d
  have hbelow : (b.buffer.cells.take b.pos).length = b.pos := by
    rw [List.length_take]
    exact Nat.min_eq_left h.pos_le
  have hne : 0 < (encoding (.dictionary d)).length := by simp [encoding]
  have hle : b'.pos ≤ b'.buffer.cap := by
    have hlen := congrArg List.length hcontents
    rw [List.length_append, hbelow, ← hpos, DataBuffer.contents, List.length_take, hsize] at hlen
    rw [DataBuffer.cap]
    omega
  refine ⟨b', h', ⟨hle, by omega⟩, hsize, by omega, hfrom, ?_⟩
  have htake := congrArg (List.take b.pos) hcontents
  rwa [DataBuffer.contents, List.take_take, hsize, Nat.min_eq_left (by omega),
    List.take_left' hbelow] at htake

/-- However an object has been used, it can be written to. -/
theorem Used.writable (h : Used b) : b.Writable := by
  induction h with
  | new fresh => exact writable_new fresh
  | decode junk data dict pos _ hdecode ih => exact ih.decode hdecode
  | encode fresh d _ hencode ih =>
    obtain ⟨b', h', hwritable, -⟩ := encode_writable ih fresh d
    rw [hencode] at h'
    cases h'
    exact hwritable

/-- **Encoding behind what was decoded.** Where `decode` has returned, `encode` writes at the cursor
what it writes into a new object: this is what `buffer` gives from there on, the size of the buffer
is the new cursor, and the bytes below the old one are as they were. -/
theorem encode_behind_decode (hused : Used object)
    (hdecode : decode junk object data = .ok (dict, b) pos) (fresh fresh' : ℕ → UInt8)
    (d : Dictionary) :
    pos = b.pos ∧ ∃ b' f, b.encode fresh d = some b' ∧ (new fresh').encode fresh' d = some f ∧
      b'.buffer.size = b'.pos ∧ pos < b'.buffer.cap ∧ b'.bufferFrom pos = f.bufferFrom 0 ∧
      b'.buffer.cells.take pos = b.buffer.cells.take pos := by
  obtain rfl := pos_eq_of_decode hdecode
  obtain ⟨b', h', -, hsize, hlt, hfrom, htake⟩ :=
    encode_writable (hused.writable.decode hdecode) fresh d
  obtain ⟨f, hf, hfresh⟩ := encode_new fresh' d
  exact ⟨rfl, b', f, h', hf, hsize, hlt, hfrom.trans hfresh.symm, htake⟩

/-- Behind the dictionary `{"a": "b"}`, over the three bytes of input that are left. -/
theorem encode_behind_decode_leftovers :
    ∃ dict b, decode (fun _ => 0) (new fun _ => 0) (ascii "d1:a1:bexyz") = .ok (dict, b) 7 ∧
      7 = b.pos ∧ ∃ b' f, b.encode (fun _ => 1) nestedDictionary = some b' ∧
        (new fun _ => 2).encode (fun _ => 2) nestedDictionary = some f ∧
        b'.buffer.size = b'.pos ∧ 7 < b'.buffer.cap ∧ b'.bufferFrom 7 = f.bufferFrom 0 ∧
        b'.buffer.cells.take 7 = b.buffer.cells.take 7 := by
  have hreturns : returnsAt 7 (decode (fun _ => 0) (new fun _ => 0) (ascii "d1:a1:bexyz")) := by
    decide +kernel
  obtain ⟨dict, b, hdecode, -⟩ := exists_of_returnsAt hreturns
  exact ⟨dict, b, hdecode, encode_behind_decode (.new _) hdecode _ _ nestedDictionary⟩

end Bencode

end CTorrent
