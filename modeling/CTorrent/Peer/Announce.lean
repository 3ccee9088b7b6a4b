import CTorrent.Peer.Bitfield
import CTorrent.Peer.Idle
import CTorrent.Peer.Upload
import CTorrent.Util.Count

/-!
# What peers are told

When a peer connects, `sendBitfield` tells it what we have; later, `onPieceWriteComplete` goes over
`m_peers` and `sendHave` tells each what it lacks. A Have is not sent to a peer that we choke, nor
to the address that supplied the piece, and only the object in `m_peers` is reached.

* `Broadcast`, `BroadcastAction`, `Broadcast.step`: the peers, and which pieces were announced when;
* `Broadcast.Sent`: a Have, or a bitfield built when the piece was completed;
* `Informed`: every peer that lacks a piece and did not supply it has been told of it;
* `Announced`: the same, for those that a Have is meant to reach;
* `announced`: every run; `not_informed`: three ways to miss a Have.
-/

namespace CTorrent

open Peer

/-- A run of `onPieceWriteComplete`: the object that supplied the piece, its address, and the objects
that were choked by us or not in `m_peers`. -/
structure Announcement where
  supplier : ℕ
  from_ : UInt32
  index : ℕ
  excused : List ℕ

/-- The peers of a torrent. `bitfields` has for each object the completed pieces that its bitfield was
built from, if one was sent. -/
structure Broadcast where
  world : World
  announcements : List Announcement := []
  bitfields : List (Option Bitset) := []

/-- What happens. -/
inductive BroadcastAction where
  /-- A handshake, a message, our Choke, an error, or a completed read. -/
  | act (a : Action)
  /-- We stop choking a peer. -/
  | sendUnchoke (id : ℕ)
  /-- The worker sets the bits of a piece. -/
  | complete (index : ℕ)
  /-- `onPieceWriteComplete` runs for a piece that an object supplied. -/
  | onPieceWriteComplete (supplier index : ℕ)

namespace Broadcast

variable (sha1 : Bytes → Sha1sum) (human : ℕ → String) (s : Broadcast)

/-- The file manager. -/
def fm : FileManager := s.world.torrent.fileManager

/-- What the bitfield of a peer that connects now is built from. -/
def bitfield : Option Bitset :=
  if s.fm.completedBits.count = 0 then none else some s.fm.completedBits

/-- The objects to which `onPieceWriteComplete` sends nothing, whatever they have: those that we
choke, and those that are not in `m_peers`. -/
def excused : List ℕ :=
  (List.range s.world.peers.length).filter fun id =>
    (s.world.peers[id]?).any Peer.amChoked || !decide (id ∈ s.world.torrent.peers.map Prod.snd)

/-- One action. The file manager changes by `complete` only. -/
def step : BroadcastAction → Option Broadcast
  | .act (.fileManager _) => none
  | .act a => (s.world.step sha1 human a).map fun w =>
      { s with
        world := w
        bitfields := s.bitfields ++
          List.replicate (w.peers.length - s.world.peers.length) s.bitfield }
  | .sendUnchoke id =>
      (s.world.atPeer id fun r => some { r with peer := r.peer.sendUnchoke }).map fun w =>
        { s with world := w }
  | .complete index =>
      if index < s.fm.pieces.length then
        some { s with world := s.world.withFileManager { s.fm with
          pendingBits := s.fm.pendingBits.clear index
          completedBits := s.fm.completedBits.set index } }
      else none
  | .onPieceWriteComplete supplier index =>
      (s.world.peers[supplier]?).bind fun p =>
        if index < s.fm.pieces.length ∧ s.fm.completedBits.test index = true then
          (s.world.onPieceWriteComplete p.ip.toNat index).map fun w =>
            { s with
              world := w
              announcements := s.announcements ++ [⟨supplier, p.ip, index, s.excused⟩] }
        else none

/-- The object has been sent a Have for the piece, or a bitfield built when it was completed. -/
def Sent (id : ℕ) (p : Peer) (index : ℕ) : Prop :=
  .sent (.have_ (UInt32.ofNat index)) ∈ p.wire ∨
    ∃ b stack, s.bitfields[id]? = some (some b) ∧
      .sent (.bitfield (Torrent.bitfieldBits stack b)) ∈ p.wire ∧ b.test index = true

/-- Every connected peer that we do not know to have a piece, and that did not supply it, has been
told of it, once `onPieceWriteComplete` has run. -/
def Informed : Prop := ∀ id p, s.world.peers[id]? = some p → p.connected = true →
  ∀ w ∈ s.announcements, s.fm.completedBits.test w.index = true → p.bitset.test w.index = false →
    id ≠ w.supplier → s.Sent id p w.index

/-- The same for the peers whose address did not supply the piece and which, if they were connected
when `onPieceWriteComplete` ran, were in `m_peers` and not choked by us then. -/
def Announced : Prop := ∀ id p, s.world.peers[id]? = some p → p.connected = true →
  ∀ w ∈ s.announcements, s.fm.completedBits.test w.index = true → p.bitset.test w.index = false →
    p.ip ≠ w.from_ → id ∉ w.excused → s.Sent id p w.index

/-- A torrent of the given pieces, of which nothing is known to be on disk, and nobody connected. -/
def start (heap heap' : ℤ → UInt8) (m : TorrentMeta) (files : List TorrentFile) : Broadcast where
  world := ⟨{ fileManager := FileManager.register heap heap' m files }, []⟩

end Broadcast

/-! ### One peer -/

/-- If the connection is still open, then the object has kept its address, knows and has sent no
less. -/
def Peer.Grows (p p' : Peer) : Prop := p'.connected = true →
  p.connected = true ∧ p'.ip = p.ip ∧ (∀ i, p.bitset.test i = true → p'.bitset.test i = true) ∧
    p.wire ⊆ p'.wire

namespace Peer

variable {sha1 : Bytes → Sha1sum} {human : ℕ → String} {s s' : Session} {payload : Bytes} {n : ℕ}
  {p p' p'' : Peer}

theorem Grows.refl (p : Peer) : Grows p p := fun h => ⟨h, rfl, fun _ hi => hi, List.Subset.refl _⟩

theorem Grows.trans (h : Grows p p') (h' : Grows p' p'') : Grows p p'' := by
  intro hc
  obtain ⟨hc', hip', hbits', hwire'⟩ := h' hc
  obtain ⟨hc, hip, hbits, hwire⟩ := h hc'
  exact ⟨hc, hip'.trans hip, fun i hi => hbits' i (hbits i hi),
    List.Subset.trans hwire hwire'⟩

/-- A message is sent. -/
theorem grows_send {msg : Message} (hc : p'.connected = p.connected) (hip : p'.ip = p.ip)
    (hbits : p'.bitset = p.bitset) (hwire : p'.wire = p.wire ++ [.sent msg]) : Grows p p' := by
  intro h
  refine ⟨hc ▸ h, hip, fun i hi => hbits ▸ hi, ?_⟩
  rw [hwire]
  exact List.subset_append_left _ _

theorem grows_sendHave (p : Peer) (index : ℕ) : Grows p (p.sendHave index) := by
  unfold sendHave
  split_ifs
  · exact .refl p
  · exact grows_send rfl rfl rfl rfl

/-- No bit is lost. -/
theorem test_told (p : Peer) (totalPieces : ℕ) (payload : Bytes) (n i : ℕ)
    (h : p.bitset.test i = true) : (p.told totalPieces payload n).test i = true := by
  unfold told
  split
  · split_ifs
    · rw [Bitset.test_set, h, Bool.or_true]
    · exact h
  · exact (test_receiveBits _ _ _ _).2 (Or.inr h)
  · exact h

theorem Selected.ip (h : Selected s s') : s'.peer.ip = s.peer.ip := by
  obtain ⟨-, hpeer | ⟨index, length, -, -, hpeer⟩⟩ := h.cases <;> rw [hpeer]

theorem Outcome.ip (h : Outcome sha1 s payload n s') : s'.peer.ip = s.peer.ip := by
  cases h with
  | interested _ =>
    dsimp only
    split_ifs <;> rfl
  | bitfield _ hselect => exact hselect.ip
  | finish _ _ _ hfinish =>
    obtain ⟨t, -, ⟨rfl, -⟩ | hselect⟩ := finishPiece_cases hfinish
    · rfl
    · exact hselect.ip
  | _ => rfl

/-- A message. -/
theorem grows_handleMessage {type : UInt8} (hc : s.peer.connected = true)
    (h : handleMessage sha1 human s type payload = some s') : Grows s.peer s'.peer := by
  have hout := handleMessage_outcome h
  intro hopen
  refine ⟨hc, hout.ip, fun i hi => ?_, ?_⟩
  · rw [hout.bitset hopen]
    exact test_told _ _ _ _ i hi
  · obtain ⟨new, hwire, -⟩ := hout.noBlocks
    rw [hwire, receive]
    exact List.Subset.trans (List.subset_append_left _ _) (List.subset_append_left _ _)

end Peer

/-! ### What changes -/

namespace FileManager

theorem completedBits_check {sha1 : Bytes → Sha1sum} {fm fm' : FileManager} {index : ℕ}
    {data : Bytes} {ok : Bool} (h : fm.check sha1 index data = some (ok, fm')) :
    fm'.completedBits = fm.completedBits := by
  unfold check at h
  obtain ⟨b, -, hb⟩ := Option.map_eq_some_iff.1 h
  cases hb
  split_ifs <;> rfl

theorem completedBits_writePieceBlock {sha1 : Bytes → Sha1sum} {fm fm' : FileManager}
    {index from_ : ℕ} {data : Bytes} {ok : Bool}
    (h : fm.writePieceBlock sha1 index from_ data = some (ok, fm')) :
    fm'.completedBits = fm.completedBits := by
  unfold writePieceBlock at h
  split_ifs at h
  · cases h
    rfl
  · obtain ⟨⟨b, fm₁⟩, hc, hb⟩ := Option.map_eq_some_iff.1 h
    cases hb
    have hcheck := completedBits_check hc
    cases b with
    | false => exact hcheck
    | true => exact hcheck

end FileManager

namespace Peer

variable {sha1 : Bytes → Sha1sum} {human : ℕ → String} {s s' : Session} {payload : Bytes} {n : ℕ}

theorem completedBits_finishPiece {piece : Piece} (h : finishPiece sha1 s piece = some s') :
    s'.torrent.fileManager.completedBits = s.torrent.fileManager.completedBits := by
  unfold finishPiece Torrent.handlePieceCompleted at h
  obtain ⟨⟨ok, s₁⟩, h₁, h₂⟩ := Option.bind_eq_some_iff.1 h
  obtain ⟨⟨ok', fm⟩, hw, hok⟩ := Option.map_eq_some_iff.1 h₁
  have hfm : fm.completedBits = s.torrent.fileManager.completedBits :=
    FileManager.completedBits_writePieceBlock hw
  cases ok' with
  | false =>
    cases hok
    cases h₂
    exact hfm
  | true =>
    cases hok
    simp only [Bool.not_true, Bool.false_eq_true, if_false] at h₂
    split_ifs at h₂
    · exact (SameWrites.of_selected (Or.inr h₂)).completed.trans hfm
    · cases h₂
      exact hfm

theorem Outcome.completedBits (h : Outcome sha1 s payload n s') :
    s'.torrent.fileManager.completedBits = s.torrent.fileManager.completedBits := by
  cases h with
  | bitfield _ hselect => exact (SameWrites.of_selected hselect).completed
  | refuse _ fm hr => exact (SameWrites.of_requestPieceBlock hr).completed
  | grant _ fm hr => exact (SameWrites.of_requestPieceBlock hr).completed
  | finish _ _ _ hfinish =>
    have hsame := completedBits_finishPiece hfinish
    exact hsame
  | _ => rfl

end Peer

namespace World

variable {sha1 : Bytes → Sha1sum} {human : ℕ → String} {w w' : World}

/-- Every object was there, and has grown. -/
def Grows (w w' : World) : Prop := w'.peers.length = w.peers.length ∧
  ∀ (id : ℕ) (p' : Peer), w'.peers[id]? = some p' → ∃ p : Peer, w.peers[id]? = some p ∧ p.Grows p'

theorem grows_of_peers (h : w'.peers = w.peers) : Grows w w' :=
  ⟨by rw [h], fun id p' hp' => ⟨p', h ▸ hp', .refl p'⟩⟩

theorem grows_set {id : ℕ} {p q : Peer} (hp : w.peers[id]? = some p) (hq : p.Grows q)
    (hpeers : w'.peers = w.peers.set id q) : Grows w w' := by
  refine ⟨by rw [hpeers, List.length_set], fun id' p' hp' => ?_⟩
  rw [hpeers] at hp'
  by_cases hid : id = id'
  · rw [← hid, List.getElem?_set_self (List.getElem?_eq_some_iff.1 hp).1] at hp'
    cases hp'
    exact ⟨p, hid ▸ hp, hq⟩
  · rw [List.getElem?_set_ne hid] at hp'
    exact ⟨p', hp', .refl p'⟩

/-- A new object, with what `sendBitfield` sends to it. -/
def Adds (w w' : World) : Prop := ∃ t ip heap stack,
  t.fileManager = w.torrent.fileManager ∧ w'.peers = w.peers ++
    [Torrent.sendBitfield stack t (Peer.new ip heap t.fileManager.pieces.length)]

/-- **What an action does to the objects.** -/
theorem step_grows {a : Action} (ha : ∀ fm, a ≠ .fileManager fm)
    (h : w.step sha1 human a = some w') :
    w'.torrent.fileManager.completedBits = w.torrent.fileManager.completedBits ∧
      w'.torrent.fileManager.pieces.length = w.torrent.fileManager.pieces.length ∧
      (Grows w w' ∨ Adds w w') := by
  cases a with
  | fileManager fm => exact absurd rfl (ha fm)
  | connect ip heap stack =>
    cases h
    have hfm : (w.torrent.addPeer ip w.peers.length).fileManager = w.torrent.fileManager := by
      rw [Torrent.addPeer, Torrent.insertPeer]
      split_ifs <;> rfl
    refine ⟨congrArg FileManager.completedBits hfm,
      congrArg (fun fm : FileManager => fm.pieces.length) hfm, Or.inr ⟨_, ip, heap, stack, hfm, rfl⟩⟩
  | accept ip heap stack =>
    cases h
    have hfm : (w.torrent.handleNewPeer ip w.peers.length).fileManager = w.torrent.fileManager := by
      rw [Torrent.handleNewPeer, Torrent.insertPeer]
      split_ifs <;> rfl
    refine ⟨congrArg FileManager.completedBits hfm,
      congrArg (fun fm : FileManager => fm.pieces.length) hfm, Or.inr ⟨_, ip, heap, stack, hfm, rfl⟩⟩
  | message id type payload =>
    simp only [step] at h
    obtain ⟨p, r, hp, hc, hr, rfl⟩ := atPeer_eq_some h
    have hout := handleMessage_outcome hr
    exact ⟨hout.completedBits, hout.sameLayout.length,
      Or.inl (grows_set hp (grows_handleMessage hc hr) rfl)⟩
  | sendChoke id =>
    simp only [step] at h
    obtain ⟨p, r, hp, -, hr, rfl⟩ := atPeer_eq_some h
    cases hr
    have hgrows : p.Grows p.sendChoke := grows_send rfl rfl rfl rfl
    exact ⟨rfl, rfl, Or.inl (grows_set hp hgrows rfl)⟩
  | handleError id errmsg =>
    simp only [step] at h
    obtain ⟨p, r, hp, -, hr, rfl⟩ := atPeer_eq_some h
    cases hr
    refine ⟨rfl, rfl, Or.inl (grows_set hp ?_ rfl)⟩
    intro hopen
    cases hopen
  | readComplete block =>
    have hsame := SameWrites.of_other (a := .readComplete block) rfl h
    refine ⟨hsame.completed, hsame.layout.length, Or.inl ?_⟩
    simp only [step] at h
    split at h
    · cases h
    · split_ifs at h
      rcases onPieceReadComplete_eq_some h with ⟨-, hpeers⟩ | ⟨id, p, -, hp, hpeers⟩
      · exact grows_of_peers hpeers
      · refine grows_set hp ?_ hpeers
        exact grows_send rfl rfl rfl rfl

/-- **What an announcement does to an object.** If its address is not the one that supplied the piece
and it does not have the piece, then it is sent a Have, provided that it is registered and not
choked. -/
theorem announce_getElem? (w : World) (from_ index : ℕ) {id : ℕ} {p : Peer}
    (hp : w.peers[id]? = some p) :
    ∃ p', (w.announce from_ index)[id]? = some p' ∧ p.Grows p' ∧
      (id ∈ w.torrent.peers.map Prod.snd → p.ip.toNat ≠ from_ → p.bitset.test index = false →
        p.amChoked = false → p'.connected = true →
          .sent (.have_ (UInt32.ofNat index)) ∈ p'.wire) := by
  unfold World.announce
  generalize w.peers = peers at hp
  induction w.torrent.peers generalizing peers p with
  | nil => exact ⟨p, hp, .refl p, fun hid => by cases hid⟩
  | cons e entries ih =>
    rw [List.foldl_cons]
    set f := fun p : Peer =>
      if p.ip.toNat ≠ from_ ∧ p.bitset.test index = false then p.sendHave index else p with hf
    have hgrows : p.Grows (f p) := by
      rw [hf]
      dsimp only
      split_ifs
      · exact grows_sendHave p index
      · exact .refl p
    by_cases hid : e.2 = id
    · have hget : (peers.modify e.2 f)[id]? = some (f p) := by
        rw [List.getElem?_modify, hp]
        simp [hid]
      obtain ⟨p', hp', hgrows', -⟩ := ih _ hget
      refine ⟨p', hp', hgrows.trans hgrows', fun _ hip htest hchoked hopen => ?_⟩
      have hhave : f p = p.send (.have_ (UInt32.ofNat index)) := by
        rw [hf]
        dsimp only
        rw [if_pos ⟨hip, htest⟩, sendHave, hchoked]
        rfl
      refine (hgrows' hopen).2.2.2 ?_
      rw [hhave]
      exact List.mem_append_right _ (List.mem_singleton_self _)
    · have hget : (peers.modify e.2 f)[id]? = some p := by
        rw [List.getElem?_modify, hp]
        simp [hid]
      obtain ⟨p', hp', hgrows', hsent⟩ := ih _ hget
      refine ⟨p', hp', hgrows', fun hmem => hsent ?_⟩
      rw [List.map_cons, List.mem_cons] at hmem
      exact hmem.resolve_left (Ne.symm hid)

theorem length_announce (w : World) (from_ index : ℕ) :
    (w.announce from_ index).length = w.peers.length := by
  have hip : ∀ p : Peer, (p.sendHave index).ip = p.ip := by
    intro p
    unfold Peer.sendHave
    split_ifs <;> rfl
  simpa using congrArg List.length (w.map_announce from_ index Peer.ip hip)

end World

/-! ### Every step -/

namespace Broadcast

variable {sha1 : Bytes → Sha1sum} {human : ℕ → String} {s s' : Broadcast} {N : ℕ}

/-- What holds in every reachable state of a torrent of `N` pieces. -/
structure Inv (N : ℕ) (s : Broadcast) : Prop where
  pieces : s.fm.pieces.length = N
  size : s.fm.completedBits.size = N
  bitfields : s.bitfields.length = s.world.peers.length
  completed : ∀ w ∈ s.announcements, w.index < N ∧ s.fm.completedBits.test w.index = true
  excused : ∀ w ∈ s.announcements, ∀ id ∈ w.excused, id < s.world.peers.length
  announced : s.Announced

/-- What has been sent stays sent. -/
theorem Sent.mono {id index : ℕ} {p p' : Peer} (h : s.Sent id p index) (hwire : p.wire ⊆ p'.wire)
    (hbitfields : ∀ b, s.bitfields[id]? = some b → s'.bitfields[id]? = some b) :
    s'.Sent id p' index := by
  rcases h with hhave | ⟨b, stack, hb, hsent, htest⟩
  · exact Or.inl (hwire hhave)
  · exact Or.inr ⟨b, stack, hbitfields _ hb, hwire hsent, htest⟩

/-- An object that has grown has been told what it was told before. -/
theorem Inv.sent_of_grows (h : Inv N s) {id : ℕ} {p p' : Peer} (hp : s.world.peers[id]? = some p)
    (hgrows : p.Grows p') (hopen : p'.connected = true)
    (hbitfields : ∀ b, s.bitfields[id]? = some b → s'.bitfields[id]? = some b)
    {w : Announcement} (hw : w ∈ s.announcements) (htest : p'.bitset.test w.index = false)
    (hip : p'.ip ≠ w.from_) (hexcused : id ∉ w.excused) : s'.Sent id p' w.index := by
  obtain ⟨hc, hip', hbits, hwire⟩ := hgrows hopen
  have hlacks : p.bitset.test w.index = false := by
    by_contra hhas
    rw [Bool.not_eq_false] at hhas
    rw [hbits _ hhas] at htest
    cases htest
  have hsent := h.announced id p hp hc w hw (h.completed w hw).2 hlacks (hip' ▸ hip) hexcused
  exact hsent.mono hwire hbitfields

/-- A step that announces nothing and adds nobody. -/
theorem Inv.of_grows (h : Inv N s) (hgrows : World.Grows s.world s'.world)
    (hpieces : s'.fm.pieces.length = s.fm.pieces.length)
    (hsize : s'.fm.completedBits.size = s.fm.completedBits.size)
    (htest : ∀ i, s.fm.completedBits.test i = true → s'.fm.completedBits.test i = true)
    (hbitfields : s'.bitfields = s.bitfields) (hsame : s'.announcements = s.announcements) :
    Inv N s' where
  pieces := hpieces.trans h.pieces
  size := hsize.trans h.size
  bitfields := by rw [hbitfields, h.bitfields, hgrows.1]
  completed := by
    rw [hsame]
    exact fun w hw => ⟨(h.completed w hw).1, htest _ (h.completed w hw).2⟩
  excused := by
    rw [hsame, hgrows.1]
    exact h.excused
  announced := by
    intro id p' hp' hopen w hw _ hlacks hip hexcused
    obtain ⟨p, hp, hp'⟩ := hgrows.2 id p' hp'
    rw [hsame] at hw
    exact h.sent_of_grows hp hp' hopen (fun b hb => hbitfields ▸ hb) hw hlacks hip hexcused

/-- Once a piece was announced, `sendBitfield` does not return early. -/
theorem Inv.count_ne_zero (hN : N < 2 ^ 31) (h : Inv N s) {w : Announcement}
    (hw : w ∈ s.announcements) : s.fm.completedBits.count ≠ 0 := by
  intro hcount
  obtain ⟨hlt, htest⟩ := h.completed w hw
  have hnot := Bitset.test_eq_false_of_count _ hcount (i := w.index) (by omega)
    (by rw [h.size]; omega)
  rw [hnot] at htest
  cases htest

/-- A new object is sent a bitfield that is built from all pieces announced so far. -/
theorem Inv.of_adds (hN : N < 2 ^ 31) (h : Inv N s) {w : World} (hadds : World.Adds s.world w)
    (hcompleted : w.torrent.fileManager.completedBits = s.fm.completedBits)
    (hpieces : w.torrent.fileManager.pieces.length = s.fm.pieces.length) :
    Inv N { s with world := w, bitfields := s.bitfields ++ [s.bitfield] } := by
  obtain ⟨t, ip, heap, stack, hfm, hpeers⟩ := hadds
  have hlength : w.peers.length = s.world.peers.length + 1 := by
    rw [hpeers, List.length_append, List.length_singleton]
  refine ⟨hpieces.trans h.pieces, ?_, ?_, ?_, ?_, ?_⟩
  · exact (congrArg Bitset.size hcompleted).trans h.size
  · rw [List.length_append, List.length_singleton, h.bitfields, hlength]
  · intro a ha
    refine ⟨(h.completed a ha).1, ?_⟩
    change w.torrent.fileManager.completedBits.test a.index = true
    rw [hcompleted]
    exact (h.completed a ha).2
  · intro a ha id hid
    have hlt := h.excused a ha id hid
    change id < w.peers.length
    omega
  · intro id p' hp' hopen a ha _ hlacks hip hexcused
    change w.peers[id]? = some p' at hp'
    rw [hpeers] at hp'
    by_cases hid : id < s.world.peers.length
    · rw [List.getElem?_append_left hid] at hp'
      refine h.sent_of_grows hp' (.refl p') hopen (fun b hb => ?_) ha hlacks hip hexcused
      change (s.bitfields ++ [s.bitfield])[id]? = some b
      rw [List.getElem?_append_left (h.bitfields ▸ hid), hb]
    · have hge := (List.getElem?_eq_some_iff.1 hp').1
      rw [List.length_append, List.length_singleton] at hge
      obtain rfl : id = s.world.peers.length := by omega
      rw [List.getElem?_append_right le_rfl, Nat.sub_self, List.getElem?_cons_zero,
        Option.some.injEq] at hp'
      have hcount := h.count_ne_zero hN ha
      have htcount : t.fileManager.completedBits.count ≠ 0 := by
        rw [hfm]
        exact hcount
      refine Or.inr ⟨s.fm.completedBits, stack, ?_, ?_, (h.completed a ha).2⟩
      · change (s.bitfields ++ [s.bitfield])[s.world.peers.length]? = _
        rw [← h.bitfields, List.getElem?_append_right le_rfl, Nat.sub_self,
          List.getElem?_cons_zero, bitfield, if_neg hcount]
      · rw [← hp', Torrent.sendBitfield, if_neg htcount, hfm]
        exact List.mem_append_right _ (List.mem_singleton_self _)

theorem inv_act (hN : N < 2 ^ 31) (h : Inv N s) {a : Action}
    (hs : s.step sha1 human (.act a) = some s') : Inv N s' := by
  have ha : ∀ fm, a ≠ .fileManager fm := by
    rintro fm rfl
    cases hs
  have hmap : (s.world.step sha1 human a).map (fun w => { s with
      world := w
      bitfields := s.bitfields ++
        List.replicate (w.peers.length - s.world.peers.length) s.bitfield }) = some s' := by
    cases a with
    | fileManager fm => exact absurd rfl (ha fm)
    | _ => exact hs
  obtain ⟨w, hw, rfl⟩ := Option.map_eq_some_iff.1 hmap
  obtain ⟨hcompleted, hpieces, hgrows | hadds⟩ := World.step_grows ha hw
  · have hnone : w.peers.length - s.world.peers.length = 0 := by rw [hgrows.1, Nat.sub_self]
    rw [hnone, List.replicate_zero, List.append_nil]
    refine h.of_grows hgrows hpieces (congrArg Bitset.size hcompleted) (fun i hi => ?_) rfl rfl
    change w.torrent.fileManager.completedBits.test i = true
    rw [hcompleted]
    exact hi
  · have hone : w.peers.length - s.world.peers.length = 1 := by
      obtain ⟨t, ip, heap, stack, -, hpeers⟩ := hadds
      rw [hpeers, List.length_append, List.length_singleton, Nat.add_sub_cancel_left]
    rw [hone]
    exact h.of_adds hN hadds hcompleted hpieces

theorem inv_sendUnchoke (h : Inv N s) {id : ℕ}
    (hs : s.step sha1 human (.sendUnchoke id) = some s') : Inv N s' := by
  simp only [step] at hs
  obtain ⟨w, hw, rfl⟩ := Option.map_eq_some_iff.1 hs
  obtain ⟨p, r, hp, -, hr, rfl⟩ := World.atPeer_eq_some hw
  cases hr
  have hgrows : p.Grows p.sendUnchoke := grows_send rfl rfl rfl rfl
  exact h.of_grows (World.grows_set hp hgrows rfl) rfl rfl (fun _ hi => hi) rfl rfl

theorem inv_complete (h : Inv N s) {index : ℕ}
    (hs : s.step sha1 human (.complete index) = some s') : Inv N s' := by
  simp only [step] at hs
  split_ifs at hs with hlt
  cases hs
  refine h.of_grows (World.grows_of_peers rfl) rfl rfl (fun i hi => ?_) rfl rfl
  exact (Bitset.test_set s.fm.completedBits index i).trans (by rw [hi, Bool.or_true])

theorem not_mem_excused {id : ℕ} {p : Peer} (hp : s.world.peers[id]? = some p)
    (h : id ∉ s.excused) :
    p.amChoked = false ∧ id ∈ s.world.torrent.peers.map Prod.snd := by
  have hlt := (List.getElem?_eq_some_iff.1 hp).1
  have hnot : ¬((s.world.peers[id]?).any Peer.amChoked ||
      !decide (id ∈ s.world.torrent.peers.map Prod.snd)) = true :=
    fun hall => h (List.mem_filter.2 ⟨List.mem_range.2 hlt, hall⟩)
  rw [hp, Option.any_some, Bool.or_eq_true, not_or, Bool.not_eq_true, Bool.not_eq_true',
    decide_eq_false_iff_not, not_not] at hnot
  exact hnot

/-- `onPieceWriteComplete` reaches everybody that it is meant to reach. -/
theorem inv_onPieceWriteComplete (h : Inv N s) {supplier index : ℕ}
    (hs : s.step sha1 human (.onPieceWriteComplete supplier index) = some s') : Inv N s' := by
  simp only [step] at hs
  obtain ⟨q, -, hs⟩ := Option.bind_eq_some_iff.1 hs
  split_ifs at hs with hguard
  obtain ⟨w, hw, rfl⟩ := Option.map_eq_some_iff.1 hs
  obtain ⟨size, -, rfl⟩ := Option.map_eq_some_iff.1 hw
  have hlength := s.world.length_announce q.ip.toNat index
  refine ⟨h.pieces, h.size, h.bitfields.trans hlength.symm, ?_, ?_, ?_⟩
  · intro a ha
    rcases List.mem_append.1 ha with ha | ha
    · exact h.completed a ha
    · rw [List.mem_singleton.1 ha, ← h.pieces]
      exact hguard
  · intro a ha id hid
    change id < (s.world.announce q.ip.toNat index).length
    rw [hlength]
    rcases List.mem_append.1 ha with ha | ha
    · exact h.excused a ha id hid
    · rw [List.mem_singleton.1 ha] at hid
      exact List.mem_range.1 (List.mem_filter.1 hid).1
  · intro id p' hp' hopen a ha _ hlacks hip hexcused
    change (s.world.announce q.ip.toNat index)[id]? = some p' at hp'
    have hlt := (List.getElem?_eq_some_iff.1 hp').1
    rw [hlength] at hlt
    have hp := List.getElem?_eq_getElem hlt
    obtain ⟨p'', hp'', hgrows, hsent⟩ := s.world.announce_getElem? q.ip.toNat index hp
    obtain rfl := Option.some.inj (hp'.symm.trans hp'')
    rcases List.mem_append.1 ha with ha | ha
    · exact h.sent_of_grows hp hgrows hopen (fun b hb => hb) ha hlacks hip hexcused
    · rw [List.mem_singleton.1 ha] at hlacks hip hexcused ⊢
      obtain ⟨-, hip', hbits, -⟩ := hgrows hopen
      obtain ⟨hchoked, hregistered⟩ := not_mem_excused hp hexcused
      refine Or.inl (hsent hregistered (fun heq => hip ?_) ?_ hchoked hopen)
      · rw [hip']
        exact UInt32.toNat_inj.1 heq
      · by_contra hhas
        rw [Bool.not_eq_false] at hhas
        rw [hbits _ hhas] at hlacks
        cases hlacks

theorem inv_step (hN : N < 2 ^ 31) (s : Broadcast) (a : BroadcastAction) (s' : Broadcast)
    (h : Inv N s) (hs : s.step sha1 human a = some s') : Inv N s' := by
  cases a with
  | act a => exact inv_act hN h hs
  | sendUnchoke id => exact inv_sendUnchoke h hs
  | complete index => exact inv_complete h hs
  | onPieceWriteComplete supplier index => exact inv_onPieceWriteComplete h hs

theorem inv_start (heap heap' : ℤ → UInt8) (m : TorrentMeta) (files : List TorrentFile) :
    Inv m.sha1sums.length (start heap heap' m files) where
  pieces := List.length_map ..
  size := rfl
  bitfields := rfl
  completed := fun w hw => by cases hw
  excused := fun w hw => by cases hw
  announced := fun id p hp => by cases hp

/-- **What peers are told.** In a run of a torrent of fewer than `2 ^ 31` pieces, every connected peer
that we do not know to have a piece has been sent a Have for it, or a bitfield built when it was
completed, once `onPieceWriteComplete` has run for the piece, if its address did not supply the piece
and, in case it was connected by then, it was the object in `m_peers` and we did not choke it. -/
theorem announced (sha1 : Bytes → Sha1sum) (human : ℕ → String) (m : TorrentMeta)
    (hN : m.sha1sums.length < 2 ^ 31) (heap heap' : ℤ → UInt8) (files : List TorrentFile)
    (as : List BroadcastAction)
    (h : Runs.run (step sha1 human) (start heap heap' m files) as = some s) : s.Announced :=
  (Runs.inv_run_of_step (inv_step hN) (inv_start heap heap' m files) h).announced

/-- Two peers connect, and the second one is unchoked. The first one supplies the piece. -/
def toldInTime : List BroadcastAction :=
  [.act (.accept 1 (fun _ => 0) fun _ => 0), .act (.accept 2 (fun _ => 0) fun _ => 0),
    .act (.message 1 2 []), .complete 0, .onPieceWriteComplete 0 0]

theorem announced_toldInTime : ∃ s,
    Runs.run (step (fun _ _ => 0) fun _ => "")
      (start (fun _ => 0) (fun _ => 0) (onePiece 2).fileManager.metainfo []) toldInTime = some s ∧
    (∃ p, s.world.peers[1]? = some p ∧ .sent (.have_ 0) ∈ p.wire) ∧ s.Announced := by
  have hany : ((Runs.run (step (fun _ _ => 0) fun _ => "")
      (start (fun _ => 0) (fun _ => 0) (onePiece 2).fileManager.metainfo []) toldInTime).any fun s =>
        (s.world.peers[1]?).any fun p => .sent (.have_ 0) ∈ p.wire) = true := by decide +kernel
  obtain ⟨s, hs, hany⟩ := (Option.any_eq_true _ _).1 hany
  obtain ⟨p, hp, hsent⟩ := (Option.any_eq_true _ _).1 hany
  exact ⟨s, hs, ⟨p, hp, of_decide_eq_true hsent⟩,
    announced _ _ _ (by decide) _ _ _ _ hs⟩

/-- The object is connected and lacks the first piece, which another one supplied and which was
announced; it has been sent no Have for it, and no bitfield. -/
def missed (s : Broadcast) (id : ℕ) : Bool :=
  (s.world.peers[id]?).any fun p =>
    p.connected && !p.bitset.test 0 && !decide (.sent (.have_ 0) ∈ p.wire) &&
      (s.bitfields[id]?).any Option.isNone && s.fm.completedBits.test 0 &&
        s.announcements.any fun a => a.index = 0 && a.supplier ≠ id

theorem not_informed_of_missed {id : ℕ} (h : s.missed id = true) : ¬s.Informed := by
  obtain ⟨p, hp, hall⟩ := (Option.any_eq_true _ _).1 h
  simp only [Bool.and_eq_true, Bool.not_eq_true', decide_eq_false_iff_not, List.any_eq_true,
    decide_eq_true_eq] at hall
  obtain ⟨⟨⟨⟨⟨hopen, hlacks⟩, hhave⟩, hnone⟩, hcompleted⟩, a, ha, hindex, hsupplier⟩ := hall
  intro hinformed
  have hsent := hinformed id p hp hopen a ha (hindex ▸ hcompleted) (hindex ▸ hlacks)
    (Ne.symm hsupplier)
  rw [hindex] at hsent
  rcases hsent with hsent | ⟨b, stack, hb, -, -⟩
  · exact hhave hsent
  · rw [hb] at hnone
    cases hnone

/-- A peer that we choke when the piece has been written. -/
def whileChoked : List BroadcastAction :=
  [.act (.accept 1 (fun _ => 0) fun _ => 0), .act (.accept 2 (fun _ => 0) fun _ => 0),
    .complete 0, .onPieceWriteComplete 0 0]

/-- A peer at the address of the one that supplied the piece and has left. -/
def fromItsAddress : List BroadcastAction :=
  [.act (.accept 1 (fun _ => 0) fun _ => 0), .act (.handleError 0 ""),
    .act (.accept 1 (fun _ => 0) fun _ => 0), .act (.message 1 2 []), .complete 0,
    .onPieceWriteComplete 0 0]

/-- A peer whose address has an entry in `m_peers` when it connects. -/
def whileRefused : List BroadcastAction :=
  [.act (.accept 1 (fun _ => 0) fun _ => 0), .act (.accept 2 (fun _ => 0) fun _ => 0),
    .act (.accept 2 (fun _ => 0) fun _ => 0), .act (.message 2 2 []), .complete 0,
    .onPieceWriteComplete 0 0]

/-- The events of a torrent of one piece lead to a state in which a peer was not told. -/
def Misses (as : List BroadcastAction) : Prop :=
  ∃ s, Runs.run (step (fun _ _ => 0) fun _ => "")
      (start (fun _ => 0) (fun _ => 0) (onePiece 2).fileManager.metainfo []) as = some s ∧
    ¬s.Informed

theorem misses_of_missed {as : List BroadcastAction} (id : ℕ)
    (h : ((Runs.run (step (fun _ _ => 0) fun _ => "")
      (start (fun _ => 0) (fun _ => 0) (onePiece 2).fileManager.metainfo []) as).any fun s =>
        s.missed id) = true) : Misses as := by
  obtain ⟨s, hs, hmissed⟩ := (Option.any_eq_true _ _).1 h
  exact ⟨s, hs, not_informed_of_missed hmissed⟩

/-- Three ways to miss a Have. -/
theorem not_informed : Misses whileChoked ∧ Misses fromItsAddress ∧ Misses whileRefused := by
  refine ⟨?_, ?_, ?_⟩
  · exact misses_of_missed 1 (by decide +kernel)
  · exact misses_of_missed 1 (by decide +kernel)
  · exact misses_of_missed 2 (by decide +kernel)

end Broadcast

end CTorrent
