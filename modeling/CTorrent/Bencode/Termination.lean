import CTorrent.Bencode.Decoder
import CTorrent.Lib.Runs
import Mathlib.Data.List.Pairwise

/-!
# The decoder stops

The readers of `bencode/decoder.cpp` once more, now with a log of what they do to the cursor. A
monitor follows the log with one number for every call of `readVector` and `readDictionary` that
has not returned, the cursor at the start of its current pass.

* `Logged`, `Logged.readVector`, …, `Logged.decode`: the readers with their log;
* `decode_outcome`: apart from the log they are the readers;
* `follow`: the rules, that a pass starts behind the one before it, that a call starts behind the
  pass that makes it and that the cursor stays within `cap()`;
* `Obeys`: a reader keeps to the rules and stops; `readVector_obeys`, `readDictionary_obeys`;
* `length_le_of_follow`: under the rules the calls nest no deeper than the buffer is long;
* `decode_terminates`: `decode` keeps to the rules and stops, on every input.
-/

namespace CTorrent

namespace Bencode

/-- What the log records: a call of `readVector` or `readDictionary` starts at `m_pos`, its loop
starts another pass there, it returns, and `m_pos` is assigned. -/
inductive CursorEvent where
  | enter (pos : ℕ)
  | again (pos : ℕ)
  | leave
  | assign (pos : ℕ)
  deriving DecidableEq

/-- What a reader does, with its log up to there. -/
structure Logged (α : Type) where
  events : List CursorEvent
  outcome : Outcome α

namespace Logged

variable {α β : Type}

/-- A reader that does nothing to the cursor. -/
def quiet (o : Outcome α) : Logged α := ⟨[], o⟩

/-- A reader behind an event. -/
def after (e : CursorEvent) (x : Logged α) : Logged α := ⟨e :: x.events, x.outcome⟩

/-- Continue with the value and the cursor. -/
def bind (x : Logged α) (f : α → ℕ → Logged β) : Logged β :=
  match x.outcome with
  | .fault e => ⟨x.events, .fault e⟩
  | .outOfFuel => ⟨x.events, .outOfFuel⟩
  | .ok a pos => ⟨x.events ++ (f a pos).events, (f a pos).outcome⟩

/-- Change the value. -/
def map (g : α → β) (x : Logged α) : Logged β := x.bind fun a pos => quiet (.ok (g a) pos)

/-- A call that starts at `pos`. -/
def call (pos : ℕ) (x : Logged α) : Logged α :=
  after (.enter pos) (x.bind fun a pos => after .leave (quiet (.ok a pos)))

@[simp] theorem outcome_quiet (o : Outcome α) : (quiet o).outcome = o := rfl
@[simp] theorem outcome_after (e : CursorEvent) (x : Logged α) :
    (after e x).outcome = x.outcome := rfl

@[simp] theorem outcome_bind (x : Logged α) (f : α → ℕ → Logged β) :
    (x.bind f).outcome = x.outcome.bind fun a pos => (f a pos).outcome := by
  rw [bind]
  cases x.outcome <;> rfl

@[simp] theorem outcome_map (g : α → β) (x : Logged α) :
    (x.map g).outcome = x.outcome.map g := outcome_bind x _

@[simp] theorem outcome_call (pos : ℕ) (x : Logged α) : (call pos x).outcome = x.outcome := by
  rw [call, outcome_after, outcome_bind]
  cases x.outcome <;> rfl

/-! ### The readers with their log -/

variable (junk : ℕ → UInt64) (b : DataBuffer UInt8)

/-- `readIntUntil<uint64_t>(byte, value)`, which assigns `m_pos` where it returns true. -/
def readIntUntil (byte : UInt8) (pos : ℕ) : Logged (Option UInt64) :=
  match Bencode.readIntUntil junk b byte pos with
  | .ok (some value) pos => after (.assign pos) (quiet (.ok (some value) pos))
  | o => quiet o

/-- `readUint`. -/
def readUint (pos : ℕ) : Logged UInt64 :=
  (readIntUntil junk b (ch 'e') pos).map fun u => u.getD (UInt64.ofNat (2 ^ 64 - 1))

/-- `readString`. -/
def readString (pos : ℕ) : Logged Bytes :=
  (readIntUntil junk b (ch ':') pos).bind fun r pos =>
    match r with
    | none => quiet (.ok [] pos)
    | some len =>
        if (len.toNat + pos) % 2 ^ 64 > b.cap then quiet (.ok [] pos)
        else if b.cap ≤ pos then quiet (.fault .assertion)
        else if b.cap < pos + len.toNat then quiet (.fault .overrun)
        -- `m_pos += len`
        else after (.assign (pos + len.toNat))
          (quiet (.ok (Splice.region b.cells pos len.toNat) (pos + len.toNat)))

mutual

/-- The switch that `readVector` and `readDictionary` share, behind the unpacked `byte`. -/
def readAny : ℕ → UInt8 → ℕ → Logged Any
  | 0, _, _ => quiet .outOfFuel
  | fuel + 1, byte, pos =>
      if byte = ch 'i' then (readUint junk b pos).map .uint64
      else if byte = ch 'l' then (call pos (readVector fuel pos [])).map .vector
      else if byte = ch 'd' then (call pos (readDictionary fuel pos [])).map .dictionary
      -- `--m_pos`
      else after (.assign (pos - 1)) ((readString junk b (pos - 1)).map .string)

/-- The loop of `readVector`; `ret` is what it has collected. -/
def readVector : ℕ → ℕ → VectorType → Logged VectorType
  | 0, _, _ => quiet .outOfFuel
  | fuel + 1, pos, ret =>
      match unpackByte b pos with
      | none => quiet (.ok ret pos)
      | some byte =>
          after (.assign (pos + 1))
            (if byte = ch 'e' then quiet (.ok ret (pos + 1))
            else (readAny fuel byte (pos + 1)).bind fun value pos =>
              after (.again pos) (readVector fuel pos (ret ++ [value])))

/-- The loop of `readDictionary`; `ret` is what it has collected. -/
def readDictionary : ℕ → ℕ → Dictionary → Logged Dictionary
  | 0, _, _ => quiet .outOfFuel
  | fuel + 1, pos, ret =>
      (readString junk b pos).bind fun key pos =>
        if key = [] then quiet (.ok [] pos)
        else
          match unpackByte b pos with
          | none => quiet (.ok [] pos)
          | some byte =>
              after (.assign (pos + 1)) ((readAny fuel byte (pos + 1)).bind fun value pos =>
                match unpackByte b pos with
                | none => quiet (.ok [] pos)
                | some byte =>
                    after (.assign (pos + 1))
                      (if byte = ch 'e' then
                        quiet (.ok (Dictionary.insert ret key value) (pos + 1))
                      -- `--m_pos`
                      else after (.assign pos) (after (.again pos)
                        (readDictionary fuel pos (Dictionary.insert ret key value)))))

end

/-- `decode(data, size)` with its log. -/
def decode (object : Bencode) (data : Bytes) : Logged (Dictionary × Bencode) :=
  match data with
  | [] => quiet (.fault .overrun)
  | c :: rest =>
      if c ≠ ch 'd' then quiet (.ok ([], object) object.pos)
      else
        (call object.pos (readDictionary junk (DataBuffer.setData rest) (2 * data.length)
          object.pos [])).bind fun d pos =>
            quiet (.ok (d, ⟨DataBuffer.setData rest, pos⟩) pos)

end Logged

/-! ### The log is only a log -/

section Outcome

variable (junk : ℕ → UInt64) (b : DataBuffer UInt8)

theorem readIntUntil_outcome (byte : UInt8) (pos : ℕ) :
    (Logged.readIntUntil junk b byte pos).outcome = readIntUntil junk b byte pos := by
  rw [Logged.readIntUntil]
  split
  · next h => rw [h]; rfl
  · rfl

theorem readString_outcome (pos : ℕ) :
    (Logged.readString junk b pos).outcome = readString junk b pos := by
  rw [Logged.readString, Logged.outcome_bind, readIntUntil_outcome, readString]
  congr 1
  funext r pos
  cases r with
  | none => rfl
  | some len =>
    dsimp only
    split_ifs <;> rfl

mutual

theorem readAny_outcome : ∀ (fuel : ℕ) (byte : UInt8) (pos : ℕ),
    (Logged.readAny junk b fuel byte pos).outcome = readAny junk b fuel byte pos
  | 0, _, _ => rfl
  | fuel + 1, byte, pos => by
      rw [Logged.readAny, readAny]
      split_ifs
      · rw [Logged.outcome_map, Logged.readUint, Logged.outcome_map, readIntUntil_outcome, readUint]
      · rw [Logged.outcome_map, Logged.outcome_call, readVector_outcome]
      · rw [Logged.outcome_map, Logged.outcome_call, readDictionary_outcome]
      · rw [Logged.outcome_after, Logged.outcome_map, readString_outcome]

theorem readVector_outcome : ∀ (fuel : ℕ) (pos : ℕ) (ret : VectorType),
    (Logged.readVector junk b fuel pos ret).outcome = readVector junk b fuel pos ret
  | 0, _, _ => rfl
  | fuel + 1, pos, ret => by
      rw [Logged.readVector, readVector]
      cases unpackByte b pos with
      | none => rfl
      | some byte =>
        dsimp only
        rw [Logged.outcome_after]
        split_ifs
        · rfl
        · simp only [Logged.outcome_bind, Logged.outcome_after, readAny_outcome fuel,
            readVector_outcome fuel]

theorem readDictionary_outcome : ∀ (fuel : ℕ) (pos : ℕ) (ret : Dictionary),
    (Logged.readDictionary junk b fuel pos ret).outcome = readDictionary junk b fuel pos ret
  | 0, _, _ => rfl
  | fuel + 1, pos, ret => by
      rw [Logged.readDictionary, readDictionary, Logged.outcome_bind, readString_outcome]
      congr 1
      funext key pos
      split_ifs
      · rfl
      · cases unpackByte b pos with
        | none => rfl
        | some byte =>
          dsimp only
          rw [Logged.outcome_after, Logged.outcome_bind, readAny_outcome fuel]
          congr 1
          funext value pos
          cases unpackByte b pos with
          | none => rfl
          | some byte =>
            dsimp only
            rw [Logged.outcome_after]
            split_ifs
            · rfl
            · simp only [Logged.outcome_after, readDictionary_outcome fuel]

end

/-- Apart from its log, the logged decoder is the decoder. -/
theorem decode_outcome (object : Bencode) (data : Bytes) :
    (Logged.decode junk object data).outcome = decode junk object data := by
  cases data with
  | nil => rfl
  | cons c rest =>
    rw [Logged.decode, decode]
    split_ifs
    · rfl
    · rw [Logged.outcome_bind, Logged.outcome_call, readDictionary_outcome]
      rfl

end Outcome

/-! ### The monitor -/

/-- The rules. The state has, for every call that has not returned, the cursor at the start of its
current pass, the innermost call first. -/
def follow (cap : ℕ) : List ℕ → CursorEvent → Option (List ℕ)
  | passes, .enter pos =>
      if pos ≤ cap ∧ ∀ p ∈ passes.head?, p < pos then some (pos :: passes) else none
  | p :: passes, .again pos => if p < pos ∧ pos ≤ cap then some (pos :: passes) else none
  | _ :: passes, .leave => some passes
  | passes, .assign pos => if pos ≤ cap then some passes else none
  | [], _ => none

/-- The current passes of the calls start one behind the other, within the buffer. -/
def Nested (cap : ℕ) (passes : List ℕ) : Prop :=
  passes.Pairwise (· > ·) ∧ ∀ p ∈ passes, p ≤ cap

/-- A call that obeys the rules starts behind all passes there are. -/
theorem Nested.push {cap pos : ℕ} {passes : List ℕ} (h : Nested cap passes)
    (hhead : ∀ p ∈ passes.head?, p < pos) (hpos : pos ≤ cap) : Nested cap (pos :: passes) := by
  refine ⟨List.pairwise_cons.2 ⟨?_, h.1⟩, by simpa [hpos] using h.2⟩
  cases passes with
  | nil => simp
  | cons p passes =>
    have hp : p < pos := hhead p rfl
    intro q hq
    rcases List.mem_cons.1 hq with rfl | hq
    · exact hp
    · exact lt_trans ((List.pairwise_cons.1 h.1).1 q hq) hp

theorem Nested.pop {cap p : ℕ} {passes : List ℕ} (h : Nested cap (p :: passes)) :
    Nested cap passes :=
  ⟨(List.pairwise_cons.1 h.1).2, fun q hq => h.2 q (List.mem_cons_of_mem p hq)⟩

theorem nested_follow {cap : ℕ} (passes : List ℕ) (e : CursorEvent) (passes' : List ℕ)
    (h : Nested cap passes) (hf : follow cap passes e = some passes') : Nested cap passes' := by
  cases e with
  | enter pos =>
    simp only [follow] at hf
    split_ifs at hf with hif
    cases hf
    exact h.push hif.2 hif.1
  | again pos =>
    cases passes with
    | nil => cases hf
    | cons p passes =>
      simp only [follow] at hf
      split_ifs at hf with hif
      cases hf
      refine h.pop.push (fun q hq => ?_) hif.2
      exact lt_trans ((List.pairwise_cons.1 h.1).1 q (List.mem_of_mem_head? hq)) hif.1
  | leave =>
    cases passes with
    | nil => cases hf
    | cons p passes =>
      cases hf
      exact h.pop
  | assign pos =>
    simp only [follow] at hf
    split_ifs at hf
    cases hf
    exact h

/-- There is room for `cap + 1` passes that start one behind the other. -/
theorem Nested.length_le {cap : ℕ} {passes : List ℕ} (h : Nested cap passes) :
    passes.length ≤ cap + 1 := by
  have hsub : passes ⊆ List.range (cap + 1) := fun p hp =>
    List.mem_range.2 (Nat.lt_succ_of_le (h.2 p hp))
  have hnodup : passes.Nodup := h.1.imp fun hlt => ne_of_gt hlt
  simpa using (hnodup.subperm hsub).length_le

/-- **How deep calls nest.** While the rules are obeyed, at most `cap() + 1` calls have not
returned. -/
theorem length_le_of_follow {cap : ℕ} {events : List CursorEvent} {passes : List ℕ}
    (h : Runs.run (follow cap) [] events = some passes) : passes.length ≤ cap + 1 :=
  (Runs.inv_run_of_step nested_follow ⟨List.Pairwise.nil, by simp⟩ h).length_le

/-! ### The readers obey -/

/-- From the given passes the reader obeys the rules and stops, and `post` holds of the value, the
cursor and the passes where it returns. -/
def Obeys {α : Type} (cap : ℕ) (passes : List ℕ) (x : Logged α)
    (post : α → ℕ → List ℕ → Prop) : Prop :=
  ∃ passes', Runs.run (follow cap) passes x.events = some passes' ∧ x.outcome ≠ .outOfFuel ∧
    ∀ a pos, x.outcome = .ok a pos → post a pos passes'

namespace Obeys

variable {α β : Type} {cap : ℕ} {passes passes' : List ℕ} {x : Logged α}
  {post : α → ℕ → List ℕ → Prop} {post' : β → ℕ → List ℕ → Prop}

theorem fault (e : Fault) : Obeys cap passes (Logged.quiet (.fault e)) post :=
  ⟨passes, rfl, nofun, nofun⟩

theorem ok {a : α} {pos : ℕ} (h : post a pos passes) :
    Obeys cap passes (Logged.quiet (.ok a pos)) post := by
  refine ⟨passes, rfl, nofun, fun a' pos' he => ?_⟩
  cases he
  exact h

theorem after {e : CursorEvent} (he : follow cap passes e = some passes')
    (h : Obeys cap passes' x post) : Obeys cap passes (Logged.after e x) post := by
  obtain ⟨last, hrun, hrest⟩ := h
  exact ⟨last, Runs.run_cons_eq_some.2 ⟨passes', he, hrun⟩, hrest⟩

theorem assign {pos : ℕ} (hpos : pos ≤ cap) (h : Obeys cap passes x post) :
    Obeys cap passes (Logged.after (.assign pos) x) post :=
  h.after (by cases passes <;> exact if_pos hpos)

theorem bind {f : α → ℕ → Logged β} (h : Obeys cap passes x post)
    (hf : ∀ a pos passes', post a pos passes' → Obeys cap passes' (f a pos) post') :
    Obeys cap passes (x.bind f) post' := by
  obtain ⟨mid, hrun, hfuel, hpost⟩ := h
  cases ho : x.outcome with
  | fault e =>
    have hx : x.bind f = ⟨x.events, .fault e⟩ := by rw [Logged.bind, ho]
    rw [hx]
    exact ⟨mid, hrun, nofun, nofun⟩
  | outOfFuel => exact absurd ho hfuel
  | ok a pos =>
    have hx : x.bind f = ⟨x.events ++ (f a pos).events, (f a pos).outcome⟩ := by
      rw [Logged.bind, ho]
    obtain ⟨last, hrun', hrest⟩ := hf a pos mid (hpost a pos ho)
    rw [hx]
    refine ⟨last, ?_, hrest⟩
    rw [Runs.run_append, hrun]
    exact hrun'

theorem mono {weaker : α → ℕ → List ℕ → Prop} (h : Obeys cap passes x post)
    (hpost : ∀ a pos passes', post a pos passes' → weaker a pos passes') :
    Obeys cap passes x weaker := by
  obtain ⟨last, hrun, hfuel, hrest⟩ := h
  exact ⟨last, hrun, hfuel, fun a pos ho => hpost a pos last (hrest a pos ho)⟩

/-- Around a call: it starts behind the pass that makes it, and that pass is current again when it
has returned. -/
theorem call {start : ℕ} (hstart : start ≤ cap) (hhead : ∀ p ∈ passes.head?, p < start)
    (h : Obeys cap (start :: passes) x fun _ pos passes' =>
      start ≤ pos ∧ pos ≤ cap ∧ ∃ p, passes' = p :: passes) :
    Obeys cap passes (Logged.call start x) fun _ pos passes' =>
      start ≤ pos ∧ pos ≤ cap ∧ passes' = passes := by
  have henter : follow cap passes (.enter start) = some (start :: passes) := by
    cases passes <;> exact if_pos ⟨hstart, hhead⟩
  refine after henter (h.bind ?_)
  rintro a pos _ ⟨hle, hcap, p, rfl⟩
  exact after rfl (ok ⟨hle, hcap, rfl⟩)

end Obeys

section Readers

variable (junk : ℕ → UInt64) {b : DataBuffer UInt8} {passes : List ℕ} {pos : ℕ}

/-- `readIntUntil` on a decoded input returns behind the byte that it looks for, or not at all. -/
theorem readIntUntil_obeys (hb : b.size = 0) (byte : UInt8) :
    Obeys b.cap passes (Logged.readIntUntil junk b byte pos) fun _ pos' passes' =>
      pos < pos' ∧ pos' ≤ b.cap ∧ passes' = passes := by
  rw [Logged.readIntUntil, readIntUntil]
  generalize hfound : pos + (b.cells.drop pos).findIdx (· == byte) = found
  cases hget : b.get? found with
  | none => exact .fault _
  | some c =>
    obtain ⟨hlt, hc⟩ := List.getElem?_eq_some_iff.1 hget
    have hcap : found < b.cap := hlt
    have hbyte : c = byte := by
      have hfind : (b.cells.drop pos).findIdx (· == byte) < (b.cells.drop pos).length := by
        rw [List.length_drop]
        omega
      have hfirst := List.findIdx_getElem (w := hfind)
      simpa [hfound, hc] using hfirst
    have hrem : ¬ found - pos > b.rem := by
      rw [DataBuffer.rem, hb]
      omega
    simp only [hbyte, ne_eq, not_true_eq_false, if_false, if_neg hrem]
    exact .assign (by omega) (.ok ⟨by omega, by omega, rfl⟩)

theorem readUint_obeys (hb : b.size = 0) :
    Obeys b.cap passes (Logged.readUint junk b pos) fun _ pos' passes' =>
      pos < pos' ∧ pos' ≤ b.cap ∧ passes' = passes :=
  (readIntUntil_obeys junk hb _).bind fun _ _ _ h => .ok h

/-- `readString` returns behind the colon, or not at all. -/
theorem readString_obeys (hb : b.size = 0) :
    Obeys b.cap passes (Logged.readString junk b pos) fun _ pos' passes' =>
      pos < pos' ∧ pos' ≤ b.cap ∧ passes' = passes := by
  refine (readIntUntil_obeys junk hb _).bind ?_
  rintro (_ | len) p _ ⟨hlt, hle, rfl⟩
  · exact .ok ⟨hlt, hle, rfl⟩
  · dsimp only
    split_ifs with hwrap hend hrest
    · exact .ok ⟨hlt, hle, rfl⟩
    · exact .fault _
    · exact .fault _
    · exact .assign (by omega) (.ok ⟨by omega, by omega, rfl⟩)

theorem succ_le_of_unpackByte {byte : UInt8} (h : unpackByte b pos = some byte) :
    pos + 1 ≤ b.cap := by
  rw [unpackByte] at h
  split_ifs at h
  omega

mutual

/-- The value behind the byte just unpacked. The cursor may go back over that byte, and then it goes
forward again. -/
theorem readAny_obeys (hb : b.size = 0) : ∀ (fuel : ℕ) (byte : UInt8) (pos : ℕ) (passes : List ℕ),
    0 < pos → pos ≤ b.cap → (∀ p ∈ passes.head?, p < pos) → 2 * (b.cap - pos) + 2 ≤ fuel →
      Obeys b.cap passes (Logged.readAny junk b fuel byte pos) fun _ pos' passes' =>
        pos ≤ pos' ∧ pos' ≤ b.cap ∧ passes' = passes
  | 0, _, _, _, _, _, _, hfuel => by omega
  | fuel + 1, byte, pos, passes, hpos, hcap, hhead, hfuel => by
      rw [Logged.readAny]
      split_ifs
      · exact (readUint_obeys junk hb).bind fun _ _ _ h => .ok ⟨h.1.le, h.2⟩
      · have hcall := readVector_obeys hb fuel pos [] passes hcap (by omega)
        exact (Obeys.call hcap hhead hcall).bind fun _ _ _ h => .ok h
      · have hcall := readDictionary_obeys hb fuel pos [] passes hcap (by omega)
        exact (Obeys.call hcap hhead hcall).bind fun _ _ _ h => .ok h
      · refine .assign (by omega) ((readString_obeys junk hb).bind fun _ _ _ h => .ok ?_)
        exact ⟨by omega, h.2⟩

/-- The loop of `readVector`, in a pass that starts at `pos`. -/
theorem readVector_obeys (hb : b.size = 0) :
    ∀ (fuel pos : ℕ) (ret : VectorType) (passes : List ℕ),
      pos ≤ b.cap → 2 * (b.cap - pos) + 1 ≤ fuel →
      Obeys b.cap (pos :: passes) (Logged.readVector junk b fuel pos ret) fun _ pos' passes' =>
        pos ≤ pos' ∧ pos' ≤ b.cap ∧ ∃ p, passes' = p :: passes
  | 0, _, _, _, _, hfuel => by omega
  | fuel + 1, pos, ret, passes, hcap, hfuel => by
      rw [Logged.readVector]
      cases hbyte : unpackByte b pos with
      | none => exact .ok ⟨le_rfl, hcap, pos, rfl⟩
      | some byte =>
        have hnext := succ_le_of_unpackByte hbyte
        refine .assign hnext ?_
        split_ifs
        · exact .ok ⟨by omega, hnext, pos, rfl⟩
        · have hvalue := readAny_obeys hb fuel byte (pos + 1) (pos :: passes) (by omega) hnext
            (by simp) (by omega)
          refine hvalue.bind ?_
          rintro value pos' _ ⟨hlt, hcap', rfl⟩
          -- the next pass starts behind this one
          have hrest := readVector_obeys hb fuel pos' (ret ++ [value]) passes hcap' (by omega)
          refine .after (if_pos ⟨hlt, hcap'⟩) (hrest.mono ?_)
          exact fun _ _ _ h => ⟨by omega, h.2⟩

/-- The loop of `readDictionary`, in a pass that starts at `pos`. -/
theorem readDictionary_obeys (hb : b.size = 0) :
    ∀ (fuel pos : ℕ) (ret : Dictionary) (passes : List ℕ),
      pos ≤ b.cap → 2 * (b.cap - pos) + 1 ≤ fuel →
      Obeys b.cap (pos :: passes) (Logged.readDictionary junk b fuel pos ret) fun _ pos' passes' =>
        pos ≤ pos' ∧ pos' ≤ b.cap ∧ ∃ p, passes' = p :: passes
  | 0, _, _, _, _, hfuel => by omega
  | fuel + 1, pos, ret, passes, hcap, hfuel => by
      rw [Logged.readDictionary]
      refine (readString_obeys junk hb).bind ?_
      rintro key pos₁ _ ⟨hkey, hcap₁, rfl⟩
      split_ifs
      · exact .ok ⟨hkey.le, hcap₁, pos, rfl⟩
      · cases hbyte : unpackByte b pos₁ with
        | none => exact .ok ⟨hkey.le, hcap₁, pos, rfl⟩
        | some byte =>
          have hnext := succ_le_of_unpackByte hbyte
          have hvalue := readAny_obeys hb fuel byte (pos₁ + 1) (pos :: passes) (by omega) hnext
            (by simp; omega) (by omega)
          refine .assign hnext (hvalue.bind ?_)
          rintro value pos₂ _ ⟨hlt, hcap₂, rfl⟩
          cases hbyte' : unpackByte b pos₂ with
          | none => exact .ok ⟨by omega, hcap₂, pos, rfl⟩
          | some byte' =>
            have hnext' := succ_le_of_unpackByte hbyte'
            refine .assign hnext' ?_
            split_ifs
            · exact .ok ⟨by omega, hnext', pos, rfl⟩
            · -- the next pass starts behind this one, although the last byte is read again
              have hrest := readDictionary_obeys hb fuel pos₂ (Dictionary.insert ret key value)
                passes hcap₂ (by omega)
              refine .assign hcap₂ (.after (if_pos ⟨by omega, hcap₂⟩) (hrest.mono ?_))
              exact fun _ _ _ h => ⟨by omega, h.2⟩

end

/-- `decode` obeys the rules, where the cursor of the object is within the buffer. -/
theorem decode_obeys (object : Bencode) {data : Bytes} (hpos : object.pos < data.length) :
    Obeys (data.length - 1) [] (Logged.decode junk object data) fun _ _ _ => True := by
  cases data with
  | nil => cases hpos
  | cons c rest =>
    have hcap : object.pos ≤ (DataBuffer.setData rest).cap := Nat.lt_succ_iff.1 hpos
    rw [Logged.decode]
    split_ifs
    · exact .ok trivial
    · have hread := readDictionary_obeys junk (b := DataBuffer.setData rest) rfl
        (2 * (c :: rest).length) object.pos [] [] hcap (by
          rw [List.length_cons, DataBuffer.cap_setData]
          omega)
      exact (Obeys.call hcap (by simp) hread).bind fun _ _ _ _ => .ok trivial

/-- A cursor behind the buffer fails the first assertion. -/
theorem readString_behind (hpos : b.cap ≤ pos) : readString junk b pos = .fault .assertion := by
  have hdrop : b.cells.drop pos = [] := List.drop_eq_nil_of_le hpos
  have hget : b.get? pos = none := List.getElem?_eq_none hpos
  rw [readString, readIntUntil, hdrop]
  simp only [List.findIdx_nil, Nat.add_zero, hget]
  rfl

theorem readDictionary_behind (hpos : b.cap ≤ pos) (fuel : ℕ) (ret : Dictionary) :
    readDictionary junk b (fuel + 1) pos ret = .fault .assertion := by
  rw [readDictionary, readString_behind junk hpos]
  rfl

end Readers

/-- **The decoder stops.** On every input `decode` returns or fails an assertion or a copy, whatever
the cursor was. If the cursor of the object was within the buffer (it is 0 in a new object), then at
every moment each loop and each nested call has obeyed the rules, and there are no more calls in
progress than the input has bytes. -/
theorem decode_terminates (junk : ℕ → UInt64) (object : Bencode) (data : Bytes) :
    decode junk object data ≠ .outOfFuel ∧
      (Logged.decode junk object data).outcome = decode junk object data ∧
      (object.pos < data.length → ∀ events, events <+: (Logged.decode junk object data).events →
        ∃ passes, Runs.run (follow (data.length - 1)) [] events = some passes ∧
          passes.length ≤ data.length) := by
  refine ⟨?_, decode_outcome junk object data, fun hpos events hprefix => ?_⟩
  · by_cases hpos : object.pos < data.length
    · rw [← decode_outcome]
      obtain ⟨-, -, hfuel, -⟩ := decode_obeys junk object hpos
      exact hfuel
    · cases data with
      | nil => nofun
      | cons c rest =>
        rw [decode]
        split_ifs
        · nofun
        · have hbehind : (DataBuffer.setData rest).cap ≤ object.pos := by
            rw [List.length_cons] at hpos
            rw [DataBuffer.cap_setData]
            omega
          rw [List.length_cons, Nat.mul_succ, readDictionary_behind junk hbehind]
          nofun
  · obtain ⟨passes, hrun, -⟩ := decode_obeys junk object hpos
    obtain ⟨passes', hrun'⟩ := Runs.exists_run_of_prefix hprefix hrun
    have hdepth := length_le_of_follow hrun'
    exact ⟨passes', hrun', by omega⟩

/-- The log of a dictionary with a list in a list. -/
example : (Logged.decode (fun _ => 0) ⟨DataBuffer.setData [], 0⟩
      ("d1:alleee".toList.map ch)).events =
    [.enter 0, .assign 2, .assign 3, .assign 4, .enter 4, .assign 5, .enter 5, .assign 6, .leave,
      .again 6, .assign 7, .leave, .assign 8, .leave] := by decide +kernel

end Bencode

end CTorrent
