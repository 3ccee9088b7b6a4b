import CTorrent.Bencode.Value
import CTorrent.Lib.Runs
import Mathlib.Data.List.Infix
import Mathlib.Logic.Function.Basic

/-!
# `net/connection.cpp`: delayed writes

`write` collects bytes in a stream buffer; ten milliseconds after the first of them a timer fires,
and `internalWrite` hands the buffer to `async_write`. Finished buffers go to a pool that all
connections share. An `async_write` sends what remains of its own buffer in steps of one byte or
more; nothing keeps a second one from being started before the first has finished.

* `Connection`, `Net`, `NetAction`, `Net.step`: writes, timers, partial writes, completions;
* `InOrder`: what is on the socket is a prefix of what was written;
* `Sequential`: a batch is sent only behind the batches before it; `Exclusive`: the timer does not
  fire while an earlier batch is being sent;
* `inOrder_of_sequential`: the runs that keep the order.
-/

namespace CTorrent

/-- An `async_write` that has not completed: the stream buffer it holds, and what remains to be
sent of it. -/
structure AsyncWrite where
  stream : Bytes
  rest : Bytes

/-- A `Connection`: the content of `m_outputStream`, if there is one, whether the delayed write is
being waited for, and the writes in progress in the order of their start. `socket` is what has been
sent, and `written` what `write` was called with. -/
structure Connection where
  connected : Bool := true
  outputStream : Option Bytes := none
  timer : Bool := false
  writing : List AsyncWrite := []
  socket : Bytes := []
  written : Bytes := []

/-- All connections, and the contents of `g_outputStreams`. -/
structure Net where
  outputStreams : List Bytes := []
  conns : ℕ → Connection := fun _ => {}

/-- What can happen on connection `c`. -/
inductive NetAction where
  | write (c : ℕ) (bytes : Bytes)
  /-- The delayed-write timer fires. -/
  | timer (c : ℕ)
  /-- The `k`-th write in progress sends `n` bytes. -/
  | writeSome (c k n : ℕ)
  /-- The `k`-th write in progress has nothing left to send and completes. -/
  | complete (c k : ℕ)

namespace Connection

/-- `write`, with the stream buffer that the pool gives if one is needed. -/
def write (conn : Connection) (pooled bytes : Bytes) : Connection :=
  if !conn.connected then conn
  else
    { conn with
      outputStream := some (conn.outputStream.getD pooled ++ bytes)
      timer := conn.timer || conn.outputStream.isNone
      written := conn.written ++ bytes }

/-- `internalWrite`, called when the timer fires: `none` where it uses a null pointer. -/
def internalWrite (conn : Connection) : Option Connection :=
  if !conn.connected then some { conn with timer := false }
  else
    conn.outputStream.map fun stream =>
      { conn with
        outputStream := none
        timer := false
        writing := conn.writing ++ [⟨stream, stream⟩] }

/-- One step of the `k`-th `async_write`: it sends between one byte and all that remain. -/
def writeSome (conn : Connection) (k n : ℕ) : Option Connection :=
  conn.writing[k]?.bind fun op =>
    if 0 < n ∧ n ≤ op.rest.length then
      some { conn with
        writing := conn.writing.set k { op with rest := op.rest.drop n }
        socket := conn.socket ++ op.rest.take n }
    else none

/-- The `k`-th `async_write` completes: the connection, and the stream buffer `handleWrite` puts
into the pool. -/
def handleWrite (conn : Connection) (k : ℕ) : Option (Connection × Bytes) :=
  conn.writing[k]?.bind fun op =>
    if op.rest = [] then
      some ({ conn with writing := conn.writing.eraseIdx k }, op.stream.drop op.stream.length)
    else none

end Connection

namespace Net

/-- The connection `c` changes. -/
def setConn (s : Net) (c : ℕ) (conn : Connection) : Net :=
  { s with conns := Function.update s.conns c conn }

/-- One step. -/
def step (s : Net) : NetAction → Option Net
  | .write c bytes =>
      let conn := s.conns c
      let taken := conn.connected && conn.outputStream.isNone
      let pool := if taken then s.outputStreams.tail else s.outputStreams
      some (setConn ⟨pool, s.conns⟩ c (conn.write (s.outputStreams.headD []) bytes))
  | .timer c =>
      if (s.conns c).timer then (s.conns c).internalWrite.map (s.setConn c) else none
  | .writeSome c k n => ((s.conns c).writeSome k n).map (s.setConn c)
  | .complete c k =>
      ((s.conns c).handleWrite k).map fun r =>
        setConn ⟨s.outputStreams ++ [r.2], s.conns⟩ c r.1

end Net

/-! ### The order of the bytes -/

namespace Connection

/-- What is on the socket is a prefix of what was written. -/
def InOrder (conn : Connection) : Prop := conn.socket <+: conn.written

/-- The batches that were started before the `k`-th have been sent. -/
def SentBefore (conn : Connection) (k : ℕ) : Prop := ∀ op ∈ conn.writing.take k, op.rest = []

/-- There is one write in progress at most. -/
def Single (conn : Connection) : Prop := conn.writing.length ≤ 1

/-- Sent, being sent and collected bytes make up what was written. -/
def Accounted (conn : Connection) : Prop :=
  conn.written = conn.socket ++ conn.writing.flatMap AsyncWrite.rest ++ conn.outputStream.getD []

variable {conn conn' : Connection}

theorem Accounted.inOrder (h : conn.Accounted) : conn.InOrder := by
  rw [InOrder, h, List.append_assoc]
  exact List.prefix_append _ _

theorem accounted_write (h : conn.Accounted) (bytes : Bytes) : (conn.write [] bytes).Accounted := by
  rw [write]
  split_ifs
  · exact h
  · rw [Accounted] at h ⊢
    simp only [h, Option.getD_some, List.append_assoc]

theorem accounted_internalWrite (h : conn.Accounted) (hs : conn.internalWrite = some conn') :
    conn'.Accounted := by
  rw [internalWrite] at hs
  split_ifs at hs
  · cases hs
    exact h
  · obtain ⟨stream, hstream, rfl⟩ := Option.map_eq_some_iff.1 hs
    rw [Accounted, hstream] at h
    rw [Accounted]
    simpa using h

/-- The bytes of the batches that have been sent are none. -/
theorem SentBefore.flatMap_take {k : ℕ} (h : conn.SentBefore k) :
    (conn.writing.take k).flatMap AsyncWrite.rest = [] :=
  List.flatMap_eq_nil_iff.2 h

theorem eq_take_append {α : Type} {l : List α} {k : ℕ} {a : α} (h : l[k]? = some a) :
    l = l.take k ++ a :: l.drop (k + 1) := by
  obtain ⟨hlt, rfl⟩ := List.getElem?_eq_some_iff.1 h
  rw [List.getElem_cons_drop, List.take_append_drop]

/-- Sending from the first batch that is not exhausted keeps the account. -/
theorem accounted_writeSome (h : conn.Accounted) {k n : ℕ} (hk : conn.SentBefore k)
    (hs : conn.writeSome k n = some conn') : conn'.Accounted := by
  obtain ⟨op, hop, hs⟩ := Option.bind_eq_some_iff.1 hs
  split_ifs at hs
  cases hs
  have hlt := (List.getElem?_eq_some_iff.1 hop).1
  have hrests : conn.writing.flatMap AsyncWrite.rest =
      op.rest ++ (conn.writing.drop (k + 1)).flatMap AsyncWrite.rest := by
    conv_lhs => rw [eq_take_append hop]
    rw [List.flatMap_append, hk.flatMap_take, List.nil_append, List.flatMap_cons]
  rw [Accounted] at h ⊢
  simp only [List.set_eq_take_append_cons_drop, if_pos hlt, List.flatMap_append,
    List.flatMap_cons, hk.flatMap_take, List.nil_append]
  rw [h, hrests]
  conv_lhs => rw [← List.take_append_drop n op.rest]
  simp only [List.append_assoc]

/-- A write that completes has nothing left, and leaves an empty buffer. -/
theorem accounted_handleWrite (h : conn.Accounted) {k : ℕ} {stream : Bytes}
    (hs : conn.handleWrite k = some (conn', stream)) : conn'.Accounted ∧ stream = [] := by
  obtain ⟨op, hop, hs⟩ := Option.bind_eq_some_iff.1 hs
  split_ifs at hs with hrest
  cases hs
  refine ⟨?_, List.drop_length⟩
  have herase : (conn.writing.eraseIdx k).flatMap AsyncWrite.rest =
      conn.writing.flatMap AsyncWrite.rest := by
    conv_rhs => rw [eq_take_append hop]
    rw [List.eraseIdx_eq_take_drop_succ, List.flatMap_append, List.flatMap_append,
      List.flatMap_cons, hrest, List.nil_append]
  rw [Accounted] at h ⊢
  simp only [herase]
  exact h

end Connection

/-! ### Runs -/

namespace Net

/-- All connections keep the order of their bytes. -/
def InOrder (s : Net) : Prop := ∀ c, (s.conns c).InOrder

/-- A batch is sent only behind the batches that were started before it. -/
def Sequential (s : Net) : NetAction → Prop
  | .writeSome c k _ => (s.conns c).SentBefore k
  | _ => True

/-- The timer of a connection fires only when no earlier write is in progress. -/
def Exclusive (s : Net) : NetAction → Prop
  | .timer c => (s.conns c).writing = []
  | _ => True

/-- What holds in every state: the pool has empty buffers only, and the bytes are accounted for. -/
structure Inv (s : Net) : Prop where
  pool : ∀ stream ∈ s.outputStreams, stream = []
  accounted : ∀ c, (s.conns c).Accounted

variable {s s' : Net}

theorem forall_setConn {P : Connection → Prop} {c : ℕ} {conn : Connection} (hc : P conn)
    (h : ∀ d, P (s.conns d)) (d : ℕ) : P ((s.setConn c conn).conns d) := by
  by_cases hd : d = c
  · subst hd
    simpa [setConn] using hc
  · simpa [setConn, Function.update_of_ne hd] using h d

/-- Every sequential step keeps the invariant. -/
theorem inv_step (s : Net) (a : NetAction) (s' : Net) (h : Inv s) (hseq : s.Sequential a)
    (hs : s.step a = some s') : Inv s' := by
  cases a with
  | write c bytes =>
    cases hs
    have hpooled : s.outputStreams.headD [] = [] := by
      cases hp : s.outputStreams with
      | nil => rfl
      | cons stream streams =>
        have := h.pool stream (by rw [hp]; exact List.mem_cons_self)
        simpa using this
    refine ⟨fun stream hmem => ?_, ?_⟩
    · simp only [setConn] at hmem
      split_ifs at hmem
      · exact h.pool stream (List.mem_of_mem_tail hmem)
      · exact h.pool stream hmem
    · rw [hpooled]
      exact forall_setConn (Connection.accounted_write (h.accounted c) bytes) h.accounted
  | timer c =>
    simp only [step] at hs
    split_ifs at hs
    obtain ⟨conn, hconn, rfl⟩ := Option.map_eq_some_iff.1 hs
    exact ⟨h.pool,
      forall_setConn (Connection.accounted_internalWrite (h.accounted c) hconn) h.accounted⟩
  | writeSome c k n =>
    obtain ⟨conn, hconn, rfl⟩ := Option.map_eq_some_iff.1 hs
    exact ⟨h.pool,
      forall_setConn (Connection.accounted_writeSome (h.accounted c) hseq hconn) h.accounted⟩
  | complete c k =>
    obtain ⟨⟨conn, stream⟩, hconn, rfl⟩ := Option.map_eq_some_iff.1 hs
    obtain ⟨hacc, rfl⟩ := Connection.accounted_handleWrite (h.accounted c) hconn
    refine ⟨fun stream hmem => ?_, forall_setConn hacc h.accounted⟩
    rcases List.mem_append.1 hmem with hmem | hmem
    · exact h.pool stream hmem
    · exact List.mem_singleton.1 hmem

theorem inv_start : Inv {} where
  pool := fun _ hmem => absurd hmem List.not_mem_nil
  accounted := fun _ => rfl

/-- **When the bytes keep their order.** In a run that sends bytes of a batch only behind the
batches started before it on the same connection, what is on a socket is at all times a prefix of
what was written to the connection. -/
theorem inOrder_of_sequential {as : List NetAction} (h : Runs.Meets step Sequential {} as) :
    Runs.Always step InOrder {} as :=
  (Runs.always_of_inv inv_step inv_start h).mono fun _ hinv c => (hinv.accounted c).inOrder

/-! ### One write at a time -/

/-- While the timer waits for earlier writes, there is one write in progress at most. -/
theorem writing_step (s : Net) (a : NetAction) (s' : Net)
    (h : ∀ c, (s.conns c).Single) (hex : s.Exclusive a) (hs : s.step a = some s') :
    ∀ c, (s'.conns c).Single := by
  cases a with
  | write c bytes =>
    cases hs
    refine forall_setConn ?_ h
    rw [Connection.write]
    split_ifs
    · exact h c
    · exact h c
  | timer c =>
    simp only [step] at hs
    split_ifs at hs
    obtain ⟨conn, hconn, rfl⟩ := Option.map_eq_some_iff.1 hs
    refine forall_setConn ?_ h
    have hnil : (s.conns c).writing = [] := hex
    rw [Connection.internalWrite] at hconn
    split_ifs at hconn
    · cases hconn
      exact h c
    · obtain ⟨stream, -, rfl⟩ := Option.map_eq_some_iff.1 hconn
      simp [Connection.Single, hnil]
  | writeSome c k n =>
    obtain ⟨conn, hconn, rfl⟩ := Option.map_eq_some_iff.1 hs
    obtain ⟨op, -, hconn⟩ := Option.bind_eq_some_iff.1 hconn
    split_ifs at hconn
    cases hconn
    refine forall_setConn ?_ h
    rw [Connection.Single, List.length_set]
    exact h c
  | complete c k =>
    obtain ⟨⟨conn, stream⟩, hconn, rfl⟩ := Option.map_eq_some_iff.1 hs
    obtain ⟨op, -, hconn⟩ := Option.bind_eq_some_iff.1 hconn
    split_ifs at hconn
    cases hconn
    exact forall_setConn (P := Connection.Single) ((List.length_eraseIdx_le _ k).trans (h c)) h

/-- The only write in progress has none before it. -/
theorem sequential_of_single (h : ∀ c, (s.conns c).Single) {a : NetAction}
    (hs : s.step a = some s') : s.Sequential a := by
  cases a with
  | writeSome c k n =>
    obtain ⟨conn, hconn, -⟩ := Option.map_eq_some_iff.1 hs
    obtain ⟨op, hop, -⟩ := Option.bind_eq_some_iff.1 hconn
    have hlt := (List.getElem?_eq_some_iff.1 hop).1
    have hk : k = 0 := by
      have hsingle : (s.conns c).writing.length ≤ 1 := h c
      omega
    subst hk
    exact fun op hmem => absurd hmem List.not_mem_nil
  | _ => trivial

/-- If the timer of a connection fires only when no earlier write is in progress, the order is
kept. -/
theorem inOrder_of_exclusive {as : List NetAction} (h : Runs.Meets step Exclusive {} as) :
    Runs.Always step InOrder {} as := by
  have hinv : Runs.Always step (fun s => Inv s ∧ ∀ c, (s.conns c).Single) {} as :=
    Runs.always_of_inv
      (fun s a s' hI hex hs => ⟨inv_step s a s' hI.1 (sequential_of_single hI.2 hs) hs,
        writing_step s a s' hI.2 hex hs⟩)
      ⟨inv_start, fun _ => Nat.zero_le 1⟩ h
  exact hinv.mono fun _ hI c => (hI.1.accounted c).inOrder

/-- Two batches, the second of which is started when the first has been sent. -/
def oneByOne : List NetAction :=
  [.write 0 [1, 2], .timer 0, .writeSome 0 0 1, .writeSome 0 0 1, .complete 0 0, .write 0 [3],
    .timer 0, .writeSome 0 0 1]

/-- The second batch is started, and sent from, while the first still has a byte to send. -/
def twoAtOnce : List NetAction :=
  [.write 0 [1, 2], .timer 0, .writeSome 0 0 1, .write 0 [3], .timer 0, .writeSome 0 1 1]

theorem inOrder_of_sequential_oneByOne : Runs.Always step InOrder {} oneByOne := by
  apply inOrder_of_sequential
  have hfirst : ∀ conn : Connection, conn.SentBefore 0 :=
    fun _ op hmem => absurd hmem List.not_mem_nil
  refine ⟨trivial, fun s hs => ?_⟩
  cases hs
  refine ⟨trivial, fun s hs => ?_⟩
  cases hs
  refine ⟨hfirst _, fun s hs => ?_⟩
  cases hs
  refine ⟨hfirst _, fun s hs => ?_⟩
  cases hs
  refine ⟨trivial, fun s hs => ?_⟩
  cases hs
  refine ⟨trivial, fun s hs => ?_⟩
  cases hs
  refine ⟨trivial, fun s hs => ?_⟩
  cases hs
  exact ⟨hfirst _, fun _ _ => trivial⟩

/-- **The order is lost.** -/
theorem not_inOrder_twoAtOnce : ¬ Runs.Always step InOrder {} twoAtOnce := by
  intro h
  have hrun : (Runs.run step {} twoAtOnce).any
      (fun s => (s.conns 0).socket == [1, 3] && (s.conns 0).written == [1, 2, 3]) = true := by
    decide +kernel
  obtain ⟨s, hs, hany⟩ := (Option.any_eq_true _ _).1 hrun
  simp only [Bool.and_eq_true, beq_iff_eq] at hany
  have hpre := h.last hs 0
  rw [Connection.InOrder, hany.1, hany.2] at hpre
  exact absurd hpre (by decide)

end Net

end CTorrent
