import CTorrent.Lib.Runs
import CTorrent.Peer.World

/-!
# The handshake

`Peer::connect` and `Peer::verify` read 68 bytes from a new connection and decide whether its
messages are to be read. A `Greeting` is a peer with what it knows at that point: `m_peerId`, what
the connection reads next, and the handshakes that were sent. `random` are the bytes that
`Torrent::open` draws.

* `Torrent.handshake`: `m_handshake`; `region_handshake`: where the info hash stands in it;
* `receiveHandshake`: the handler of the handshake, of which there are two copies;
* `Accepted`, `Refused`: what a handler leaves; `Genuine`: the handshakes to be accepted;
* `accepted_iff`: the handshakes that are accepted;
* `verifies_iff`: genuine handshakes and no others are accepted, unless either the length of the
  protocol's name or the name itself is wrong in a handshake that is right otherwise.
-/

namespace CTorrent

/-! ### Our handshake -/

/-- The name of the protocol. -/
def protocolName : Bytes := key "BitTorrent protocol"

/-- The info hash, as it stands in a handshake. -/
def Torrent.infoHash (t : Torrent) : Bytes :=
  (List.finRange 5).flatMap fun i => writeBE32 (t.fileManager.metainfo.checkSum i)

/-- `m_handshake`, as `Torrent::open` fills it. -/
def Torrent.handshake (random : ℕ → UInt8) (t : Torrent) : Bytes :=
  0x13 :: protocolName ++ List.replicate 8 0x00 ++ t.infoHash ++ key "-CT11000" ++
    (List.range 12).map random

theorem Torrent.length_infoHash (t : Torrent) : t.infoHash.length = 20 := rfl

/-- The info hash stands at the bytes 28 to 47. -/
theorem Torrent.region_handshake (random : ℕ → UInt8) (t : Torrent) :
    Splice.region (t.handshake random) 28 20 = t.infoHash := by
  have hlen : (0x13 :: protocolName ++ List.replicate 8 0x00 : Bytes).length = 28 := rfl
  rw [handshake, List.append_assoc, List.append_assoc, Splice.region_append_right hlen.le, hlen,
    Nat.sub_self, Splice.region_append_left (by rw [length_infoHash]), ← t.length_infoHash,
    Splice.region_full]

/-! ### The handlers -/

/-- Who has made a connection. -/
inductive Side where
  | outgoing
  | incoming
  deriving DecidableEq

/-- What a connection reads next: a handshake, or messages (`Peer::handle`). -/
inductive Reader where
  | handshake
  | messages
  deriving DecidableEq

/-- A peer object, known by `id`, with its connection. -/
structure Greeting where
  session : Session
  id : ℕ
  peerId : Bytes := []
  reading : Option Reader := none
  sent : List Bytes := []

/-- What arrives on the connection. -/
inductive Arrival where
  | handshake (bytes : Bytes)
  | message (type : UInt8) (payload : Bytes)

namespace Greeting

variable (random stack : ℕ → UInt8) (g : Greeting)

/-- `m_conn->read`, which does nothing on a closed connection. -/
def read (r : Reader) : Greeting :=
  if g.session.peer.connected then { g with reading := some r } else g

/-- `m_conn->write`. -/
def write (bytes : Bytes) : Greeting :=
  if g.session.peer.connected then { g with sent := g.sent ++ [bytes] } else g

/-- `handleError`. -/
def handleError (errmsg : String) : Greeting :=
  { g with session := Peer.handleError g.session errmsg }

/-- `addPeer`. -/
def addPeer : Greeting :=
  { g with session := { g.session with
      torrent := g.session.torrent.addPeer g.session.peer.ip g.id } }

/-- `handleNewPeer`, up to `sendBitfield`. -/
def handleNewPeer : Greeting :=
  { g with session := { g.session with
      torrent := g.session.torrent.handleNewPeer g.session.peer.ip g.id } }

/-- `sendBitfield`. -/
def sendBitfield : Greeting :=
  { g with session := { g.session with
      peer := g.session.torrent.sendBitfield stack g.session.peer } }

/-- The condition that both handlers begin with. -/
def Mismatch (ours handshake : Bytes) : Prop :=
  handshake.length ≠ 68 ∨
    (byteAt handshake 0 ≠ 0x13 ∧ Splice.region handshake 1 19 ≠ protocolName) ∨
    Splice.region handshake 28 20 ≠ Splice.region ours 28 20

instance (ours handshake : Bytes) : Decidable (Mismatch ours handshake) :=
  inferInstanceAs (Decidable (_ ∨ _))

/-- The handler of the handshake. The two copies differ in the text of the second error and in what
they do with a peer that they accept. -/
def receiveHandshake (unverified : String) (accept : Greeting → Greeting) (handshake : Bytes) :
    Greeting :=
  if Mismatch (g.session.torrent.handshake random) handshake then
    g.handleError "info hash/protocol type mismatch"
  else
    let peerId := Splice.region handshake 48 20
    if g.peerId ≠ [] ∧ peerId ≠ g.peerId then g.handleError unverified
    else accept { g with peerId := peerId }

/-- What `Peer::connect` does with a peer that it accepts. -/
def acceptOutgoing : Greeting := ((g.addPeer).sendBitfield stack).read .messages

/-- What `Peer::verify` does with a peer that it accepts. -/
def acceptIncoming : Greeting :=
  (((g.write (g.session.torrent.handshake random)).handleNewPeer).sendBitfield stack).read .messages

/-- The handler in `Peer::connect` or in `Peer::verify`. -/
def onHandshake (side : Side) (handshake : Bytes) : Greeting :=
  match side with
  | .outgoing =>
      g.receiveHandshake random "peer id mismatch: unverified" (acceptOutgoing stack) handshake
  | .incoming => g.receiveHandshake random "unverified" (acceptIncoming random stack) handshake

/-- `Peer::connect` once the connection is made, or `Peer::verify`. -/
def start (side : Side) : Greeting :=
  match side with
  | .outgoing => (g.write (g.session.torrent.handshake random)).read .handshake
  | .incoming => g.read .handshake

variable (sha1 : Bytes → Sha1sum) (human : ℕ → String)

/-- What is read next arrives; `none` where it is not being read. Behind a message the next one is
read. -/
def step (side : Side) : Arrival → Option Greeting
  | .handshake bytes =>
      if g.reading = some .handshake then
        some ({ g with reading := none }.onHandshake random stack side bytes)
      else none
  | .message type payload =>
      if g.reading = some .messages then
        (Peer.handleMessage sha1 human g.session type payload).map fun s =>
          { g with session := s, reading := none }.read .messages
      else none

/-! ### What is promised -/

variable {g}

/-- The peer was accepted: its messages are read, it is known by the id in its handshake, and there
is an entry for its address. -/
def Accepted (handshake : Bytes) (g' : Greeting) : Prop :=
  g'.reading = some .messages ∧ g'.peerId = Splice.region handshake 48 20 ∧
    (g'.session.torrent.findPeer g'.session.peer.ip).isSome = true

instance (handshake : Bytes) (g' : Greeting) : Decidable (Accepted handshake g') :=
  inferInstanceAs (Decidable (_ ∧ _))

variable (g)

/-- The peer was refused: its id is as it was, it is not in `m_peers` unless it was there before,
and nothing that it sends is processed. -/
structure Refused (side : Side) (g' : Greeting) : Prop where
  peerId : g'.peerId = g.peerId
  peers : ∀ e ∈ g'.session.torrent.peers, e ∈ g.session.torrent.peers
  final : ∀ arrivals g'', Runs.run (fun g a => step random stack g sha1 human side a) g' arrivals =
    some g'' → arrivals = []

/-- The handshakes to be accepted. -/
def Genuine (handshake : Bytes) : Prop :=
  byteAt handshake 0 = 0x13 ∧ Splice.region handshake 1 19 = protocolName ∧
    Splice.region handshake 28 20 = g.session.torrent.infoHash ∧
    (g.peerId = [] ∨ Splice.region handshake 48 20 = g.peerId)

instance (handshake : Bytes) : Decidable (g.Genuine handshake) :=
  inferInstanceAs (Decidable (_ ∧ _))

/-- What is promised: the handshake is accepted exactly if it is genuine, and else refused. -/
def Verifies (side : Side) (handshake : Bytes) : Prop :=
  ∃ g', g.step random stack sha1 human side (.handshake handshake) = some g' ∧
    (Accepted handshake g' ↔ g.Genuine handshake) ∧
    (¬ Accepted handshake g' → g.Refused random stack sha1 human side g')

/-! ### What the handlers do -/

/-- What the code asks of a handshake. -/
def Passes (handshake : Bytes) : Prop :=
  ¬ Mismatch (g.session.torrent.handshake random) handshake ∧
    (g.peerId = [] ∨ Splice.region handshake 48 20 = g.peerId)

variable {random stack sha1 human g} {side : Side} {handshake : Bytes}

/-- The two ways through a handler. -/
theorem receiveHandshake_cases (unverified : String) (accept : Greeting → Greeting) :
    (g.Passes random handshake ∧ g.receiveHandshake random unverified accept handshake =
        accept { g with peerId := Splice.region handshake 48 20 }) ∨
      (¬ g.Passes random handshake ∧ ∃ errmsg,
        g.receiveHandshake random unverified accept handshake = g.handleError errmsg) := by
  unfold receiveHandshake
  by_cases hm : Mismatch (g.session.torrent.handshake random) handshake
  · exact Or.inr ⟨fun h => h.1 hm, _, if_pos hm⟩
  · rw [if_neg hm]
    by_cases hid : g.peerId ≠ [] ∧ Splice.region handshake 48 20 ≠ g.peerId
    · exact Or.inr ⟨fun h => h.2.elim hid.1 hid.2, _, if_pos hid⟩
    · refine Or.inl ⟨⟨hm, ?_⟩, if_neg hid⟩
      by_contra hno
      exact hid (not_or.1 hno)

theorem findPeer_insertPeer (t : Torrent) (ip : UInt32) (id : ℕ) :
    ((t.insertPeer ip id).findPeer ip).isSome = true := by
  unfold Torrent.insertPeer
  split_ifs with h
  · exact h
  · simp [Torrent.findPeer, List.find?_append]

variable (stack) in
theorem connected_sendBitfield (t : Torrent) (p : Peer) :
    (t.sendBitfield stack p).connected = p.connected ∧ (t.sendBitfield stack p).ip = p.ip := by
  unfold Torrent.sendBitfield
  split_ifs <;> exact ⟨rfl, rfl⟩

/-- At the end of both handlers. -/
theorem accepted_read (hopen : g.session.peer.connected = true)
    (hid : g.peerId = Splice.region handshake 48 20)
    (hfind : (g.session.torrent.findPeer g.session.peer.ip).isSome = true) :
    Accepted handshake ((g.sendBitfield stack).read .messages) := by
  obtain ⟨hconn, hip⟩ := connected_sendBitfield stack g.session.torrent g.session.peer
  have hread : (g.sendBitfield stack).session.peer.connected = true := hconn.trans hopen
  rw [read, if_pos hread]
  refine ⟨rfl, hid, ?_⟩
  rw [← hip] at hfind
  exact hfind

/-- The two ways through either handler. -/
theorem onHandshake_cases (hopen : g.session.peer.connected = true) (side : Side) :
    (g.Passes random handshake ∧
        Accepted handshake (g.onHandshake random stack side handshake)) ∨
      (¬ g.Passes random handshake ∧ ∃ errmsg,
        g.onHandshake random stack side handshake = g.handleError errmsg) := by
  cases side with
  | outgoing =>
    refine (receiveHandshake_cases _ _).imp_left (And.imp_right fun heq => ?_)
    rw [onHandshake, heq]
    exact accepted_read hopen rfl (findPeer_insertPeer _ _ _)
  | incoming =>
    refine (receiveHandshake_cases _ _).imp_left (And.imp_right fun heq => ?_)
    rw [onHandshake, heq, acceptIncoming, write, if_pos hopen]
    exact accepted_read hopen rfl (findPeer_insertPeer _ _ _)

/-- `handleError` refuses the peer, where nothing is being read. -/
theorem refused_handleError (hreading : g.reading = none) (errmsg : String) :
    g.Refused random stack sha1 human side (g.handleError errmsg) where
  peerId := rfl
  peers := fun e he => (List.mem_filter.1 he).1
  final := by
    intro arrivals g'' hr
    have hnone : (g.handleError errmsg).reading = none := hreading
    cases arrivals with
    | nil => rfl
    | cons a arrivals =>
      obtain ⟨g', hstep, -⟩ := Runs.run_cons_eq_some.1 hr
      cases a <;> simp [step, hnone] at hstep

theorem not_accepted_handleError (hreading : g.reading = none) (errmsg : String) :
    ¬ Accepted handshake (g.handleError errmsg) := by
  intro h
  have hnone : (g.handleError errmsg).reading = none := hreading
  rw [Accepted, hnone] at h
  cases h.1

/-- **Which handshakes are accepted**, by either handler. -/
theorem accepted_iff (hreading : g.reading = none) (hopen : g.session.peer.connected = true) :
    Accepted handshake (g.onHandshake random stack side handshake) ↔
      g.Passes random handshake := by
  have hcases : (g.Passes random handshake ∧
      Accepted handshake (g.onHandshake random stack side handshake)) ∨ _ :=
    onHandshake_cases hopen side
  obtain ⟨hpasses, haccepted⟩ | ⟨hno, errmsg, heq⟩ := hcases
  · exact iff_of_true haccepted hpasses
  · rw [heq]
    exact iff_of_false (not_accepted_handleError hreading errmsg) hno

theorem refused_of_not_passes (hreading : g.reading = none)
    (hopen : g.session.peer.connected = true) (h : ¬ g.Passes random handshake) :
    g.Refused random stack sha1 human side (g.onHandshake random stack side handshake) := by
  rcases onHandshake_cases hopen side with ⟨hpasses, -⟩ | ⟨-, errmsg, heq⟩
  · exact absurd hpasses h
  · rw [heq]
    exact refused_handleError hreading errmsg

/-- What the code asks of a handshake, byte by byte. -/
theorem passes_iff (hsize : handshake.length = 68) :
    g.Passes random handshake ↔
      (byteAt handshake 0 = 0x13 ∨ Splice.region handshake 1 19 = protocolName) ∧
        Splice.region handshake 28 20 = g.session.torrent.infoHash ∧
        (g.peerId = [] ∨ Splice.region handshake 48 20 = g.peerId) := by
  rw [Passes, Mismatch, Torrent.region_handshake]
  simp only [hsize, ne_eq, not_true_eq_false, false_or, not_or, not_and_or, not_not, and_assoc]

/-- Where one of two things is asked for and both are wanted. -/
theorem or_iff_and_iff (a b c d : Prop) :
    ((a ∨ b) ∧ c ∧ d ↔ a ∧ b ∧ c ∧ d) ↔ (c → d → (a ↔ b)) := by
  by_cases ha : a <;> by_cases hb : b <;> simp [ha, hb]

variable (random stack sha1 human side) in
/-- **Which handshakes are verified as promised.** Either handler does with a handshake what is
promised, exactly if the first byte and the name of the protocol are both right or both wrong, or
the info hash or the peer id is wrong. -/
theorem verifies_iff (hreading : g.reading = some .handshake)
    (hopen : g.session.peer.connected = true) (hsize : handshake.length = 68) :
    g.Verifies random stack sha1 human side handshake ↔
      (Splice.region handshake 28 20 = g.session.torrent.infoHash →
        (g.peerId = [] ∨ Splice.region handshake 48 20 = g.peerId) →
        (byteAt handshake 0 = 0x13 ↔ Splice.region handshake 1 19 = protocolName)) := by
  -- the state in which the handler runs
  let g₀ := { g with reading := none }
  let g' := g₀.onHandshake random stack side handshake
  have hstep : g.step random stack sha1 human side (.handshake handshake) = some g' :=
    if_pos hreading
  have haccepted : Accepted handshake g' ↔ g₀.Passes random handshake := accepted_iff rfl hopen
  have hrefused : ¬ Accepted handshake g' → g.Refused random stack sha1 human side g' := by
    intro hno
    have h : g₀.Refused random stack sha1 human side g' :=
      refused_of_not_passes rfl hopen (mt haccepted.2 hno)
    exact ⟨h.peerId, h.peers, h.final⟩
  have hverifies : g.Verifies random stack sha1 human side handshake ↔
      (g₀.Passes random handshake ↔ g.Genuine handshake) := by
    simp only [Verifies, hstep, Option.some.injEq, exists_eq_left', haccepted]
    rw [haccepted] at hrefused
    exact and_iff_left hrefused
  exact hverifies.trans ((iff_congr (passes_iff hsize) Iff.rfl).trans (or_iff_and_iff _ _ _ _))

/-- A torrent of one piece with an info hash. -/
def oneHashed : Torrent where
  fileManager := FileManager.register (fun _ => 0) (fun _ => 0)
    { checkSum := fun k => UInt32.ofNat (k + 1), pieceLength := 2, totalSize := 2,
      sha1sums := [fun _ => 0] } []

/-- A new connection, whose handshake is awaited. -/
def newcomer (side : Side) : Greeting :=
  { session := ⟨oneHashed, Peer.new 9 (fun _ => 0) 1⟩, id := 0 : Greeting }.start (fun _ => 7) side

/-- A handshake such as we send is verified. -/
theorem verifies_iff_ours : (newcomer .outgoing).Verifies (fun _ => 7) (fun _ => 0)
    (fun _ _ => 0) toString .outgoing (oneHashed.handshake fun _ => 7) :=
  (verifies_iff (fun _ => 7) (fun _ => 0) (fun _ _ => 0) toString .outgoing
    rfl rfl rfl).2 fun _ _ => by decide +kernel

/-- The right info hash and the right length of the name, without the name. -/
def nameless : Bytes :=
  0x13 :: List.replicate 27 0 ++ oneHashed.infoHash ++ List.replicate 20 0

theorem not_verifies_nameless (side : Side) : ¬ (newcomer side).Verifies (fun _ => 7) (fun _ => 0)
    (fun _ _ => 0) toString side nameless := by
  rintro ⟨g', hstep, hiff, -⟩
  have haccepted : ((newcomer side).step (fun _ => 7) (fun _ => 0) (fun _ _ => 0) toString side
      (.handshake nameless)).any (fun g' => decide (Accepted nameless g')) = true := by
    cases side <;> decide +kernel
  have hgenuine : ¬ (newcomer side).Genuine nameless := by
    cases side <;> decide +kernel
  rw [hstep] at haccepted
  exact hgenuine (hiff.1 (of_decide_eq_true haccepted))

/-- Both handlers accept a handshake that does not name the protocol. -/
theorem not_verifies_either :
    ¬ (newcomer .outgoing).Verifies (fun _ => 7) (fun _ => 0) (fun _ _ => 0) toString .outgoing
        nameless ∧
      ¬ (newcomer .incoming).Verifies (fun _ => 7) (fun _ => 0) (fun _ _ => 0) toString .incoming
        nameless :=
  ⟨not_verifies_nameless .outgoing, not_verifies_nameless .incoming⟩

end Greeting

end CTorrent
