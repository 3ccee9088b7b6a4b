import CTorrent.Lib.Progress
import CTorrent.Peer.Leech

/-!
# A download from a seeder comes to its end

Every step of the leecher and the seeder takes one off what is left to be done, and as long as
anything is left a step is possible. So in whatever order the steps are taken, a run of the right
length has downloaded everything, no run is longer, and none gets stuck on its way.

* `fresh`, `load`, `remaining`: what is left to be done;
* `Base`, `Phase`: what holds of the two parties, and where the piece is that is being fetched;
* `inv_step`: a step keeps the invariant and takes one off what is left;
* `exists_step`: a step is possible as long as anything is left;
* `leech_completes`: the result.
-/

namespace CTorrent

open Peer Splice FileManager

namespace Leech

/-! ### What is left to be done -/

/-- The pieces that are being fetched or handed to the torrent. -/
def busy (s : Swarm) : List ℕ :=
  ((s.call.toList.filter fun c => c.stage ≠ .selecting).map fun c => c.piece.index) ++
    s.world.peers.flatMap fun p => p.queue.map Peer.Piece.index

/-- A piece for which nothing has been done yet. -/
def fresh (s : Swarm) (i : ℕ) : Bool :=
  !s.fm.completedBits.test i && !s.fm.pendingBits.test i && decide (i ∉ busy s)

/-- The steps from a new piece to the end of the worker's: it is requested and answered block by
block, and our interest is told. -/
def cost (m : TorrentMeta) (i : ℕ) : ℕ := 3 * (blocksOf (pieceLen m i)).length + 5

/-- The steps from a stage of the handler to the end of the worker's. -/
def stageLoad : Stage → ℕ
  | .checking => 4
  | .pushing => 3
  | .selecting => 1

/-- The steps for the pieces that are being fetched or handed to the torrent, less those for the
Requests that are on their way. -/
def load (s : Swarm) : ℕ :=
  (s.call.toList.map fun c => stageLoad c.stage).sum +
    (s.world.peers.map fun p =>
      (p.queue.map fun piece => 4 + if p.peerChoked then 3 * piece.numBlocks else 0).sum).sum

/-- The block that a message requests. -/
def requestOf : Message → Option PieceBlockInfo
  | .request index begin length => some ⟨index.toNat, begin.toNat, length.toNat⟩
  | _ => none

/-- The block that an answer brings. -/
def blockOf : Answer → Option PieceBlockInfo
  | .block info => some info
  | _ => none

variable (m : TorrentMeta) (orig : Bytes) (heap : ℤ → UInt8) (ip : UInt32) (l : Leech)

/-- The blocks that have been requested and not arrived. -/
def outstanding : List PieceBlockInfo :=
  l.toSeeder.filterMap requestOf ++ l.remote.pending ++ l.toUs.filterMap blockOf

/-- The steps for the messages that are on their way, and for those of the seeder to come. -/
def traffic : ℕ :=
  l.toSeeder.length + 2 * (l.toSeeder.filterMap requestOf).length + 2 * l.remote.pending.length +
    l.toUs.length + (if l.greeted then 0 else 2) + if l.unchoked then 0 else 2

/-- The number of steps to the end. -/
def remaining : ℕ :=
  Runs.rest (cost m) (fresh l.swarm) m.sha1sums.length + l.traffic + load l.swarm +
    l.swarm.fm.writeRequests.length

/-- We know which pieces the seeder has. -/
def told : Prop := l.greeted = true ∧ .bitfield ∉ l.toUs

/-! ### The invariant -/

/-- A piece was chosen at most `K` times before this connection, and once since then at most. -/
def Ranked (K : ℕ) (s : Swarm) : Prop :=
  K + 1 < 2 ^ 31 ∧ ∀ i < m.sha1sums.length, s.fm.rank i ≤ ((K + 1 : ℤ) : WithBot ℤ) ∧
    (fresh s i = true → s.fm.rank i ≤ ((K : ℤ) : WithBot ℤ))

/-- What holds of the two parties at any time. -/
structure Base (D K : ℕ) (p : Peer) (l : Leech) : Prop where
  saving : Saving m orig heap ip.toNat l.swarm.fm
  peers : l.swarm.world.peers = [p]
  ip : p.ip = ip
  connected : p.connected = true
  errors : p.errors = []
  wasted : l.swarm.world.torrent.wastedBytes = 0
  misses : l.swarm.world.torrent.hashMisses = 0
  downloaded : l.swarm.world.torrent.downloadedBytes +
    Runs.rest (pieceLen m) (fun i => !l.swarm.fm.completedBits.test i) m.sha1sums.length = D
  ranked : Ranked m K l.swarm
  greets : l.toUs.count .bitfield ≤ l.greeted.toNat
  unchokes : l.toUs.count .unchoke ≤ l.unchoked.toNat
  choked : p.peerChoked = !(l.unchoked && decide (.unchoke ∉ l.toUs))
  bits : l.told → ∀ i < m.sha1sums.length, p.bitset.test i = true
  cancels : ∀ i b n, .cancel i b n ∉ l.toSeeder

/-- The blocks of a piece. -/
def infosOf (i : ℕ) (blocks : List (ℕ × ℕ)) : List PieceBlockInfo :=
  blocks.map fun b => ⟨i, b.1, b.2⟩

/-- A piece that is neither completed nor pending. -/
def Missing (s : Swarm) (i : ℕ) : Prop :=
  s.fm.completedBits.test i = false ∧ s.fm.pendingBits.test i = false

/-- Nothing is being fetched, and our handler is not at work. -/
structure Idle (p : Peer) (l : Leech) : Prop where
  call : l.swarm.call = none
  calls : l.swarm.fm.calls = []
  queue : p.queue = []
  outstanding : l.outstanding = []

/-- A piece is being fetched; the blocks `got` of it have arrived. -/
structure Fetching (i : ℕ) (got : List (ℕ × ℕ)) (piece : Peer.Piece) (p : Peer) (l : Leech) :
    Prop where
  call : l.swarm.call = none
  calls : l.swarm.fm.calls = []
  queue : p.queue = [piece]
  told : l.told
  lt : i < m.sha1sums.length
  missing : Missing l.swarm i
  part : Partial i (pieceLen m i) (contentOf m orig i) got piece
  more : got.length < (blocksOf (pieceLen m i)).length
  unasked : p.peerChoked = true → got = [] ∧ l.outstanding = []
  asked : p.peerChoked = false →
    (infosOf i got ++ l.outstanding).Perm (infosOf i (blocksOf (pieceLen m i)))

/-- A piece is being handed to the torrent. -/
structure Handing (c : Call) (p : Peer) (l : Leech) : Prop where
  call : l.swarm.call = some c
  id : c.id = 0
  queue : p.queue = []
  told : l.told
  lt : c.piece.index < m.sha1sums.length
  data : c.piece.data = contentOf m orig c.piece.index
  outstanding : l.outstanding = []
  missing : c.stage ≠ .selecting → Missing l.swarm c.piece.index
  calls : l.swarm.fm.calls = if c.stage = .pushing then
    [⟨c.piece.index, ip.toNat, contentOf m orig c.piece.index⟩] else []

/-- Where the piece is that is being fetched. -/
inductive Phase (p : Peer) (l : Leech) : Prop
  | idle (h : Idle p l)
      (hnone : l.told → ∀ i < m.sha1sums.length, ¬Missing l.swarm i)
  | fetching {i : ℕ} {got : List (ℕ × ℕ)} {piece : Peer.Piece}
      (h : Fetching m orig i got piece p l)
  | handing {c : Call} (h : Handing m orig ip c p l)

/-- The invariant. -/
def Inv (D K : ℕ) (l : Leech) : Prop :=
  ∃ p, Base m orig heap ip D K p l ∧ Phase m orig ip p l

variable {sha1 : Bytes → Sha1sum} {human : ℕ → String} {m : TorrentMeta} {orig bits : Bytes}
  {heap : ℤ → UInt8} {ip : UInt32} {D K : ℕ} {p : Peer} {l l' : Leech}

theorem Ranked.congr {s t : Swarm} (h : Ranked m K t)
    (hfresh : ∀ i < m.sha1sums.length, fresh s i = fresh t i) (hrank : s.fm.rank = t.fm.rank) :
    Ranked m K s := by
  refine ⟨h.1, fun i hi => ?_⟩
  rw [hrank, hfresh i hi]
  exact h.2 i hi

/-! ### Messages on their way -/

/-- The phase depends on our side, on what we know, and on the blocks that are outstanding. -/
theorem Phase.congr (h : Phase m orig ip p l) (hs : l'.swarm = l.swarm) (ht : l'.told ↔ l.told)
    (ho : l'.outstanding.Perm l.outstanding) : Phase m orig ip p l' := by
  have hnil : l.outstanding = [] → l'.outstanding = [] := fun h => (h ▸ ho).eq_nil
  cases h with
  | idle h hnone =>
    refine .idle ⟨hs ▸ h.call, hs ▸ h.calls, h.queue, hnil h.outstanding⟩ fun htold => ?_
    rw [hs]
    exact hnone (ht.1 htold)
  | fetching h =>
    refine .fetching ⟨hs ▸ h.call, hs ▸ h.calls, h.queue, ht.2 h.told, h.lt, hs ▸ h.missing, h.part,
      h.more, fun hc => (h.unasked hc).imp_right hnil, fun hc => ?_⟩
    exact (ho.append_left _).trans (h.asked hc)
  | handing h =>
    exact .handing ⟨hs ▸ h.call, h.id, h.queue, ht.2 h.told, h.lt, h.data, hnil h.outstanding,
      hs ▸ h.missing, hs ▸ h.calls⟩

/-- The seeder processes a message, or sends one. -/
theorem Inv.traffic (h : Base m orig heap ip D K p l) (hphase : Phase m orig ip p l)
    (hs : l'.swarm = l.swarm) (ht : l'.told ↔ l.told) (ho : l'.outstanding.Perm l.outstanding)
    (hone : l'.traffic + 1 = l.traffic)
    (hgreets : l'.toUs.count .bitfield ≤ l'.greeted.toNat)
    (hunchokes : l'.toUs.count .unchoke ≤ l'.unchoked.toNat)
    (hchoked : p.peerChoked = !(l'.unchoked && decide (.unchoke ∉ l'.toUs)))
    (hcancels : ∀ i b n, .cancel i b n ∉ l'.toSeeder) :
    Inv m orig heap ip D K l' ∧ l'.remaining m + 1 = l.remaining m := by
  refine ⟨⟨p, ⟨hs ▸ h.saving, hs ▸ h.peers, h.ip, h.connected, h.errors, hs ▸ h.wasted,
    hs ▸ h.misses,
    hs ▸ h.downloaded, hs ▸ h.ranked, hgreets, hunchokes, hchoked, fun htold => h.bits (ht.1 htold),
    hcancels⟩, hphase.congr hs ht ho⟩, ?_⟩
  rw [remaining, remaining, hs]
  omega

theorem inv_process (h : Inv m orig heap ip D K l)
    (hs : l.step sha1 human m orig bits .process = some l') :
    Inv m orig heap ip D K l' ∧ l'.remaining m + 1 = l.remaining m := by
  obtain ⟨p, hbase, hphase⟩ := h
  simp only [step] at hs
  cases hq : l.toSeeder with
  | nil =>
    rw [hq] at hs
    cases hs
  | cons msg rest =>
    rw [hq] at hs
    cases hs
    have hcancels : ∀ i b n, .cancel i b n ∉ rest := fun i b n hmem =>
      hbase.cancels i b n (hq ▸ List.mem_cons_of_mem _ hmem)
    have hpending : ((rest.filterMap requestOf ++ (l.remote.process msg).pending).Perm
          (l.toSeeder.filterMap requestOf ++ l.remote.pending)) ∧
        2 * (rest.filterMap requestOf).length + 2 * (l.remote.process msg).pending.length =
          2 * (l.toSeeder.filterMap requestOf).length + 2 * l.remote.pending.length := by
      rw [hq]
      cases msg with
      | request i b n =>
        have hcons : (Message.request i b n :: rest).filterMap requestOf =
            ⟨i.toNat, b.toNat, n.toNat⟩ :: rest.filterMap requestOf := rfl
        rw [hcons, Remote.process]
        refine ⟨?_, ?_⟩
        · rw [← List.append_assoc]
          exact List.perm_append_singleton _ _
        · rw [List.length_cons, List.length_append, List.length_singleton]
          omega
      | cancel i b n => exact absurd (hq ▸ List.mem_cons_self) (hbase.cancels i b n)
      | _ => exact ⟨.refl _, rfl⟩
    refine Inv.traffic hbase hphase rfl Iff.rfl (hpending.1.append_right _) ?_ hbase.greets
      hbase.unchokes hbase.choked hcancels
    have hlength := hpending.2
    simp only [Leech.traffic]
    rw [hq] at hlength ⊢
    rw [List.length_cons]
    omega

theorem inv_greet (h : Inv m orig heap ip D K l)
    (hs : l.step sha1 human m orig bits .greet = some l') :
    Inv m orig heap ip D K l' ∧ l'.remaining m + 1 = l.remaining m := by
  obtain ⟨p, hbase, hphase⟩ := h
  simp only [step] at hs
  split_ifs at hs with hgreeted
  cases hs
  have hfalse : l.greeted = false := by simpa using hgreeted
  have hgreets := hbase.greets
  rw [hfalse] at hgreets
  refine Inv.traffic hbase hphase rfl ?_ ?_ ?_ ?_ ?_ ?_ hbase.cancels
  · simp [told, hfalse]
  · have hnone : [Answer.bitfield].filterMap blockOf = [] := rfl
    simp only [outstanding, List.filterMap_append, hnone, List.append_nil, List.Perm.refl]
  · simp only [Leech.traffic, hfalse, List.length_append, List.length_singleton, if_true,
      Bool.false_eq_true, if_false]
    omega
  · rw [List.count_append, List.count_singleton_self, Bool.toNat_true]
    simpa using hgreets
  · rw [List.count_append]
    simpa using hbase.unchokes
  · simpa using hbase.choked

theorem inv_unchoke (h : Inv m orig heap ip D K l)
    (hs : l.step sha1 human m orig bits .unchoke = some l') :
    Inv m orig heap ip D K l' ∧ l'.remaining m + 1 = l.remaining m := by
  obtain ⟨p, hbase, hphase⟩ := h
  simp only [step] at hs
  split_ifs at hs with hunchoked
  cases hs
  have hfalse : l.unchoked = false := by simpa using hunchoked
  have hunchokes := hbase.unchokes
  rw [hfalse] at hunchokes
  refine Inv.traffic hbase hphase rfl ?_ ?_ ?_ ?_ ?_ ?_ hbase.cancels
  · simp [told]
  · have hnone : [Answer.unchoke].filterMap blockOf = [] := rfl
    simp only [outstanding, List.filterMap_append, hnone, List.append_nil, List.Perm.refl]
  · simp only [Leech.traffic, hfalse, List.length_append, List.length_singleton, if_true,
      Bool.false_eq_true, if_false]
    omega
  · rw [List.count_append]
    simpa using hbase.greets
  · rw [List.count_append, List.count_singleton_self, Bool.toNat_true]
    simpa using hunchokes
  · simpa [hfalse] using hbase.choked

theorem inv_answer {info : PieceBlockInfo} (h : Inv m orig heap ip D K l)
    (hs : l.step sha1 human m orig bits (.answer info) = some l') :
    Inv m orig heap ip D K l' ∧ l'.remaining m + 1 = l.remaining m := by
  obtain ⟨p, hbase, hphase⟩ := h
  simp only [step] at hs
  split_ifs at hs with hmem
  cases hs
  have hperm := List.perm_cons_erase hmem
  have hlength := hperm.length_eq
  rw [List.length_cons] at hlength
  refine Inv.traffic hbase hphase rfl ?_ ?_ ?_ ?_ ?_ ?_ hbase.cancels
  · simp [told]
  · simp only [outstanding, List.filterMap_append, List.append_assoc]
    refine List.Perm.append_left _ ?_
    have hlast := List.perm_append_singleton info
      (l.remote.pending.erase info ++ l.toUs.filterMap blockOf)
    rw [List.append_assoc] at hlast
    exact hlast.trans (hperm.symm.append_right _)
  · simp only [Leech.traffic, List.length_append, List.length_singleton]
    omega
  · rw [List.count_append]
    simpa using hbase.greets
  · rw [List.count_append]
    simpa using hbase.unchokes
  · simpa using hbase.choked

/-! ### The parts of our handler, and the worker -/

/-- A step of ours that sends nothing. -/
theorem advance_silent {a : SwarmAction} {s : Swarm} {toUs : List Answer}
    (hs : l.swarm.step sha1 human a = some s) (hw : wire s = wire l.swarm) :
    l.advance sha1 human a toUs = some { l with swarm := s, toUs := toUs } := by
  rw [advance, hs, Option.map_some, hw, List.drop_length]
  simp [sentMessages]

/-- The channels and the peer stay as they are. -/
theorem Base.swarm (h : Base m orig heap ip D K p l) {s : Swarm}
    (hsaving : Saving m orig heap ip.toNat s.fm) (hpeers : s.world.peers = [p])
    (hwasted : s.world.torrent.wastedBytes = l.swarm.world.torrent.wastedBytes)
    (hmisses : s.world.torrent.hashMisses = l.swarm.world.torrent.hashMisses)
    (hdownloaded : s.world.torrent.downloadedBytes +
      Runs.rest (pieceLen m) (fun i => !s.fm.completedBits.test i) m.sha1sums.length = D)
    (hfresh : ∀ i < m.sha1sums.length, fresh s i = fresh l.swarm i)
    (hrank : s.fm.rank = l.swarm.fm.rank) : Base m orig heap ip D K p { l with swarm := s } :=
  { h with
    saving := hsaving
    peers := hpeers
    wasted := hwasted.trans h.wasted
    misses := hmisses.trans h.misses
    downloaded := hdownloaded
    ranked := h.ranked.congr hfresh hrank }

/-- Where only our side has moved, and no piece was taken, the measure follows the load. -/
theorem remaining_swarm {s : Swarm} (hfresh : ∀ i < m.sha1sums.length, fresh s i = fresh l.swarm i)
    (hload : load s + s.fm.writeRequests.length + 1 =
      load l.swarm + l.swarm.fm.writeRequests.length) :
    { l with swarm := s }.remaining m + 1 = l.remaining m := by
  have htraffic : { l with swarm := s }.traffic = l.traffic := rfl
  rw [remaining, remaining, htraffic, Runs.rest_congr _ hfresh]
  change _ + load s + s.fm.writeRequests.length + 1 = _
  omega

/-- Our handler is at work only while a piece is being handed to the torrent. -/
theorem Phase.handing_of_callAt (h : Phase m orig ip p l) {stage : Stage} {c : Call}
    (hc : l.swarm.callAt stage = some c) : Handing m orig ip c p l ∧ c.stage = stage := by
  obtain ⟨hcall, hstage⟩ := Swarm.callAt_eq_some.1 hc
  cases h with
  | idle h => cases h.call.symm.trans hcall
  | fetching h => cases h.call.symm.trans hcall
  | handing h =>
    cases h.call.symm.trans hcall
    exact ⟨h, hstage⟩

theorem fresh_congr {s s' : Swarm} (hc : s'.fm.completedBits = s.fm.completedBits)
    (hp : s'.fm.pendingBits = s.fm.pendingBits) (hb : busy s' = busy s) (i : ℕ) :
    fresh s' i = fresh s i := by
  rw [fresh, fresh, hc, hp, hb]

/-- Our handler is at work. -/
theorem busy_of_call {s : Swarm} {c : Call} (hcall : s.call = some c) (hpeers : s.world.peers = [p])
    (hqueue : p.queue = []) : (busy s = if c.stage = .selecting then [] else [c.piece.index]) ∧
      load s = stageLoad c.stage := by
  rw [busy, load, hcall, hpeers]
  by_cases hstage : c.stage = .selecting <;> simp [hqueue, hstage]

/-- Our handler is not at work. -/
theorem busy_of_none {s : Swarm} (hcall : s.call = none) (hpeers : s.world.peers = [p]) :
    busy s = p.queue.map Peer.Piece.index ∧
      load s = (p.queue.map fun piece =>
        4 + if p.peerChoked then 3 * piece.numBlocks else 0).sum := by
  rw [busy, load, hcall, hpeers]
  simp

theorem inv_check (hpass : ∀ i < m.sha1sums.length, Passes sha1 m (i, contentOf m orig i))
    (h : Inv m orig heap ip D K l) (hs : l.step sha1 human m orig bits .check = some l') :
    Inv m orig heap ip D K l' ∧ l'.remaining m + 1 = l.remaining m := by
  obtain ⟨p, hbase, hphase⟩ := h
  simp only [step] at hs
  obtain ⟨s, hstep, -⟩ := Option.map_eq_some_iff.1 hs
  obtain ⟨c, q, ok, fm, hc, hq, hwrite, hend⟩ := Swarm.step_check hstep
  obtain ⟨hhanding, hstage⟩ := hphase.handing_of_callAt hc
  rw [hbase.peers, hhanding.id] at hq
  cases hq
  have hmissing := hhanding.missing (by rw [hstage]; decide)
  obtain ⟨checks, hcheck⟩ := hbase.saving.check hpass hhanding.lt hmissing.2 p.ip.toNat
  rw [hhanding.data, hcheck] at hwrite
  cases hwrite
  obtain ⟨hfalse, -⟩ | ⟨-, hs'⟩ := hend
  · cases hfalse
  have hcall : s.call = some { c with stage := .pushing } := by rw [hs']
  have hpeers : s.world.peers = [p] := by rw [hs', ← hbase.peers]; rfl
  have hfm : s.fm = { l.swarm.fm with
      checks := checks
      calls := l.swarm.fm.calls ++
        [⟨c.piece.index, p.ip.toNat, contentOf m orig c.piece.index⟩] } := by
    rw [hs']
    rfl
  obtain ⟨hbusy, hload⟩ := busy_of_call hhanding.call hbase.peers hhanding.queue
  obtain ⟨hbusy', hload'⟩ := busy_of_call hcall hpeers hhanding.queue
  have hfresh : ∀ i, fresh s i = fresh l.swarm i :=
    fresh_congr (by rw [hfm]) (by rw [hfm]) (by rw [hbusy, hbusy', hstage]; rfl)
  have hcalls : l.swarm.fm.calls = [] := by rw [hhanding.calls, if_neg (by rw [hstage]; decide)]
  rw [advance_silent hstep (by rw [wire, wire, hpeers, hbase.peers])] at hs
  cases hs
  refine ⟨⟨p, hbase.swarm ?_ hpeers ?_ ?_ ?_ (fun i _ => hfresh i) ?_, .handing (c := _)
    ⟨hcall, hhanding.id, hhanding.queue, hhanding.told, hhanding.lt, hhanding.data,
      hhanding.outstanding, fun _ => ?_, ?_⟩⟩, remaining_swarm (fun i _ => hfresh i) ?_⟩
  · rw [hfm]
    exact hbase.saving.of_eq rfl rfl rfl rfl rfl rfl
  · rw [hs']
    rfl
  · rw [hs']
    rfl
  · rw [hfm, ← hbase.downloaded, hs']
    rfl
  · rw [hfm]
    rfl
  · rw [Missing, hfm]
    exact hmissing
  · change s.fm.calls = _
    rw [hfm, hcalls, hbase.ip]
    rfl
  · rw [hload, hload', hfm, hstage]
    exact Nat.add_right_comm _ _ _

theorem inv_push (hm : Consistent m) (h : Inv m orig heap ip D K l)
    (hs : l.step sha1 human m orig bits .push = some l') :
    Inv m orig heap ip D K l' ∧ l'.remaining m + 1 = l.remaining m := by
  obtain ⟨p, hbase, hphase⟩ := h
  simp only [step] at hs
  obtain ⟨s, hstep, -⟩ := Option.map_eq_some_iff.1 hs
  obtain ⟨c, w, hc, hw, hs'⟩ := Swarm.step_push hstep
  obtain ⟨hhanding, hstage⟩ := hphase.handing_of_callAt hc
  have hmissing := hhanding.missing (by rw [hstage]; decide)
  have hcalls := hhanding.calls
  rw [if_pos hstage] at hcalls
  rw [hcalls] at hw
  cases hw
  generalize hw : (⟨c.piece.index, ip.toNat, contentOf m orig c.piece.index⟩ : WriteRequest) = w
    at hcalls hs'
  have hindex : w.index = c.piece.index := by rw [← hw]
  have hcall : s.call = some { c with stage := .selecting } := by rw [hs']
  have hpeers : s.world.peers = [p] := by rw [hs', ← hbase.peers]; rfl
  have hfm : s.fm = { l.swarm.fm with calls := [] }.pushWrite w := by
    rw [hs', hcalls]
    rfl
  obtain ⟨hbusy, hload⟩ := busy_of_call hhanding.call hbase.peers hhanding.queue
  obtain ⟨hbusy', hload'⟩ := busy_of_call hcall hpeers hhanding.queue
  have hlt : w.index < m.sha1sums.length := hindex ▸ hhanding.lt
  -- the piece is pending now
  have hfresh : ∀ i < m.sha1sums.length, fresh s i = fresh l.swarm i := by
    intro i hi
    have hpending : s.fm.pendingBits.test i =
        (decide (i = w.index) || l.swarm.fm.pendingBits.test i) := by
      rw [hfm]
      exact Saving.test_pushWrite hm hlt hi
    have hcompleted : s.fm.completedBits = l.swarm.fm.completedBits := by rw [hfm]; rfl
    rw [fresh, fresh, hcompleted, hpending, hbusy, hbusy', hstage, hindex]
    by_cases hi : i = c.piece.index <;> simp [hi]
  rw [advance_silent hstep (by rw [wire, wire, hpeers, hbase.peers])] at hs
  cases hs
  refine ⟨⟨p, hbase.swarm ?_ hpeers ?_ ?_ ?_ hfresh ?_, .handing (c := _)
    ⟨hcall, hhanding.id, hhanding.queue, hhanding.told, hhanding.lt, hhanding.data,
      hhanding.outstanding, fun hne => absurd rfl hne, ?_⟩⟩, remaining_swarm hfresh ?_⟩
  · rw [hfm]
    have hsaving : Saving m orig heap ip.toNat { l.swarm.fm with calls := [] } :=
      hbase.saving.of_eq rfl rfl rfl rfl rfl rfl
    exact hsaving.push hm hlt (by rw [← hw]) (by rw [← hw]) (hindex ▸ hmissing.1)
      (hindex ▸ hmissing.2)
  · rw [hs']
    rfl
  · rw [hs']
    rfl
  · rw [hfm, ← hbase.downloaded, hs']
    rfl
  · rw [hfm]
    rfl
  · change s.fm.calls = _
    rw [hfm]
    rfl
  · rw [hload, hload', hfm, hstage, pushWrite, List.length_append, List.length_singleton]
    simp only [stageLoad]
    omega

/-- What was missing, the piece of the write included. -/
theorem rest_work (hm : Consistent m) {from_ : ℕ} {fm : FileManager}
    (h : Saving m orig heap from_ fm) {w : WriteRequest} {ws : List WriteRequest}
    (hq : fm.writeRequests = w :: ws) (wrote : TorrentFileInfo → ℕ → ℕ) :
    Runs.rest (pieceLen m) (fun i => !(fm.processWrite wrote w).completedBits.test i)
        m.sha1sums.length + pieceLen m w.index =
      Runs.rest (pieceLen m) (fun i => !fm.completedBits.test i) m.sha1sums.length := by
  obtain ⟨hlt, -, -, hcompleted⟩ := h.writes w (hq ▸ List.mem_cons_self)
  refine Runs.rest_remove (pieceLen m) (fun i => !fm.completedBits.test i) _ hlt
    (by simp [hcompleted]) fun i hi => ?_
  rw [(Saving.test_processWrite hm wrote hlt hi).1, Bool.not_or]

/-- An announcement goes to no one but those the piece was not downloaded from. -/
theorem announce_eq {w : World} {from_ index : ℕ} (hpeers : w.peers = [p])
    (hfrom : from_ = p.ip.toNat) : w.announce from_ index = [p] := by
  rw [World.announce, hpeers]
  induction w.torrent.peers with
  | nil => rfl
  | cons e entries ih =>
    have hown : [p].modify e.2 (fun q =>
        if q.ip.toNat ≠ from_ ∧ q.bitset.test index = false then q.sendHave index else q) =
        [p] := by
      cases e.2 with
      | zero => simp [hfrom]
      | succ k => simp
    rw [List.foldl_cons, hown, ih]

theorem inv_work (hm : Consistent m) (ho : orig.length = m.totalSize) (h : Inv m orig heap ip D K l)
    (hs : l.step sha1 human m orig bits .work = some l') :
    Inv m orig heap ip D K l' ∧ l'.remaining m + 1 = l.remaining m := by
  obtain ⟨p, hbase, hphase⟩ := h
  simp only [step] at hs
  obtain ⟨s, hstep, -⟩ := Option.map_eq_some_iff.1 hs
  obtain ⟨w, ws, fm, size, hq, hfm, hsize, hs'⟩ := Swarm.step_work hstep
  obtain ⟨hlt, hfrom, -⟩ := hbase.saving.writes w (hq ▸ List.mem_cons_self)
  have hpending : l.swarm.fm.pendingBits.test w.index = true :=
    (hbase.saving.pending w.index hlt).2 (by rw [hq]; exact List.mem_cons_self)
  have hwrote : Complete fun _ n => n := fun _ _ => Nat.le_refl _
  have hsaving := hbase.saving.work hm ho hwrote hq
  rw [← hfm] at hsaving
  cases (hm.tiled.pieceSize_eq hsaving.metainfo hsaving.length hlt).symm.trans hsize
  have hfm' : s.fm = fm := by rw [hs']; rfl
  have hcall : s.call = l.swarm.call := by rw [hs']
  have hpeers : s.world.peers = [p] := by
    rw [hs']
    exact announce_eq hbase.peers (hfrom.trans (congrArg UInt32.toNat hbase.ip.symm))
  -- the piece was pending, and is completed
  have hbits : ∀ i < m.sha1sums.length,
      s.fm.completedBits.test i = (decide (i = w.index) || l.swarm.fm.completedBits.test i) ∧
        s.fm.pendingBits.test i = (!decide (i = w.index) && l.swarm.fm.pendingBits.test i) := by
    intro i hi
    rw [hfm', hfm]
    exact Saving.test_processWrite hm _ hlt hi
  have hmissing : ∀ i < m.sha1sums.length, Missing s i ↔ Missing l.swarm i := by
    intro i hi
    rw [Missing, Missing, (hbits i hi).1, (hbits i hi).2]
    by_cases hi' : i = w.index
    · simp [hi', hpending]
    · simp [hi']
  have hbusy : busy s = busy l.swarm := by rw [busy, busy, hcall, hpeers, hbase.peers]
  have hload : load s = load l.swarm := by rw [load, load, hcall, hpeers, hbase.peers]
  have hfresh : ∀ i < m.sha1sums.length, fresh s i = fresh l.swarm i := by
    intro i hi
    rw [fresh, fresh, (hbits i hi).1, (hbits i hi).2, hbusy]
    by_cases hi' : i = w.index
    · simp [hi', hpending]
    · simp [hi']
  have hcalls : s.fm.calls = l.swarm.fm.calls := by rw [hfm', hfm]; rfl
  have hwrites : s.fm.writeRequests = ws := by rw [hfm', hfm]
  rw [advance_silent hstep (by rw [wire, wire, hpeers, hbase.peers])] at hs
  cases hs
  refine ⟨⟨p, hbase.swarm ?_ hpeers ?_ ?_ ?_ hfresh ?_, ?_⟩, remaining_swarm hfresh ?_⟩
  · rwa [hfm']
  · rw [hs']
  · rw [hs']
  · have hremove := rest_work hm hbase.saving hq fun _ n => n
    have hcompletedBits : s.fm.completedBits =
        (l.swarm.fm.processWrite (fun _ n => n) w).completedBits := by rw [hfm', hfm]
    rw [← hcompletedBits] at hremove
    have hdownloaded : s.world.torrent.downloadedBytes =
        l.swarm.world.torrent.downloadedBytes + pieceLen m w.index := by rw [hs']
    have hbefore := hbase.downloaded
    omega
  · rw [hfm', hfm]
    rfl
  · cases hphase with
    | idle h hnone =>
      refine .idle ⟨hcall.trans h.call, hcalls.trans h.calls, h.queue, h.outstanding⟩ ?_
      intro htold i hi hmiss
      exact hnone htold i hi ((hmissing i hi).1 hmiss)
    | fetching h =>
      exact .fetching ⟨hcall.trans h.call, hcalls.trans h.calls, h.queue, h.told, h.lt,
        (hmissing _ h.lt).2 h.missing, h.part, h.more, h.unasked, h.asked⟩
    | handing h =>
      exact .handing ⟨hcall.trans h.call, h.id, h.queue, h.told, h.lt, h.data, h.outstanding,
        fun hne => (hmissing _ h.lt).2 (h.missing hne), hcalls.trans h.calls⟩
  · rw [hload, hwrites, hq, List.length_cons]
    rfl

/-! ### The choice of a piece -/

/-- The Requests for a piece as messages. -/
theorem sentMessages_requests (index length : ℕ) :
    sentMessages (requests index length) = (blocksOf length).map fun b =>
      .request (UInt32.ofNat index) (UInt32.ofNat b.1) (UInt32.ofNat b.2) := by
  rw [sentMessages, requests, List.filterMap_map, ← List.filterMap_eq_map]
  rfl

/-- The blocks that are requested are those of the piece. -/
theorem requestOf_requests {index length : ℕ} (hi : index < 2 ^ 32) (hl : length < 2 ^ 32) :
    (sentMessages (requests index length)).filterMap requestOf =
      infosOf index (blocksOf length) := by
  rw [sentMessages_requests, List.filterMap_map, infosOf, ← List.filterMap_eq_map]
  refine List.filterMap_congr fun b hb => ?_
  have hbound := mem_blocksOf_bounds hb
  have hindex : (UInt32.ofNat index).toNat = index := Nat.mod_eq_of_lt hi
  have hbegin : (UInt32.ofNat b.1).toNat = b.1 :=
    Nat.mod_eq_of_lt (show b.1 < 2 ^ 32 by omega)
  have hlength : (UInt32.ofNat b.2).toNat = b.2 :=
    Nat.mod_eq_of_lt (show b.2 < 2 ^ 32 by omega)
  simp only [Function.comp_apply, requestOf, hindex, hbegin, hlength]

theorem length_infosOf (i : ℕ) (blocks : List (ℕ × ℕ)) :
    (infosOf i blocks).length = blocks.length :=
  List.length_map _

/-- What we send when a piece has been chosen. -/
def asking (p : Peer) (i length : ℕ) : List Message :=
  .interested :: sentMessages (if p.peerChoked then [] else requests i length)

theorem asking_eq {i length : ℕ} (hi : i < 2 ^ 32) (hl : length < 2 ^ 32) :
    (asking p i length).filterMap requestOf =
        (if p.peerChoked then [] else infosOf i (blocksOf length)) ∧
      (asking p i length).length = 1 + (if p.peerChoked then 0 else (blocksOf length).length) ∧
      ∀ a b n, .cancel a b n ∉ asking p i length := by
  have hcons : (asking p i length).filterMap requestOf =
      (sentMessages (if p.peerChoked then [] else requests i length)).filterMap requestOf := rfl
  rw [hcons]
  simp only [asking, List.length_cons, List.mem_cons, reduceCtorEq, false_or]
  cases p.peerChoked with
  | true => exact ⟨rfl, rfl, fun _ _ _ => List.not_mem_nil⟩
  | false =>
    refine ⟨requestOf_requests hi hl, ?_, fun a b n hmem => ?_⟩
    · rw [if_neg Bool.false_ne_true, if_neg Bool.false_ne_true, sentMessages_requests,
        List.length_map, Nat.add_comm]
    · rw [if_neg Bool.false_ne_true, sentMessages_requests] at hmem
      obtain ⟨c, -, hc⟩ := List.mem_map.1 hmem
      cases hc

theorem map_hash_raise (fm : FileManager) (i : ℕ) :
    (fm.raise i).pieces.map Piece.hash = fm.pieces.map Piece.hash := by
  apply List.ext_getElem?
  intro k
  simp only [raise, List.getElem?_map, List.getElem?_modify]
  split_ifs <;> cases fm.pieces[k]? <;> rfl

/-- A piece that was chosen is raised; the others keep their rank. -/
theorem rank_raise {fm : FileManager} {i j : ℕ} (h : j ≠ i) : (fm.raise i).rank j = fm.rank j := by
  simp only [rank, raise, List.getElem?_modify, if_neg (Ne.symm h), id_map']

/-- A piece that was chosen `K` times at most, is chosen. -/
theorem rank_raise_self {fm : FileManager} {i : ℕ} (hi : i < fm.pieces.length)
    (h : fm.rank i ≤ ((K : ℤ) : WithBot ℤ)) :
    (fm.raise i).rank i ≤ ((K + 1 : ℤ) : WithBot ℤ) := by
  simp only [rank, raise, List.getElem?_modify, if_true, List.getElem?_eq_getElem hi,
    Option.map_some, Option.map_eq_map, Option.getD_some] at h ⊢
  split_ifs at h ⊢ with h1 h2 <;>
    simp only [bot_le, WithBot.coe_le_coe] at h ⊢ <;> omega

theorem Ranked.raise {s t : Swarm} {i : ℕ} (h : Ranked m K t) (hi : i < m.sha1sums.length)
    (hlength : t.fm.pieces.length = m.sha1sums.length) (hwas : fresh t i = true)
    (hfm : s.fm = t.fm.raise i)
    (hfresh : ∀ j < m.sha1sums.length, fresh s j = (!decide (j = i) && fresh t j)) :
    Ranked m K s := by
  refine ⟨h.1, fun j hj => ?_⟩
  rw [hfm, hfresh j hj]
  by_cases hj' : j = i
  · subst hj'
    exact ⟨rank_raise_self (hlength ▸ hi) ((h.2 j hi).2 hwas), by simp⟩
  · rw [rank_raise hj', decide_eq_false hj', Bool.not_false, Bool.true_and]
    exact h.2 j hj

section Chosen

variable (hm : Consistent m) (h32 : m.pieceLength < 2 ^ 32) (hbase : Base m orig heap ip D K p l)
  (hidle : Idle p l) (htold : l.told)
include hm h32 hbase hidle htold

/-- A piece is chosen. -/
theorem inv_fetch {i : ℕ} (hi : i < m.sha1sums.length) (hmissing : Missing l.swarm i)
    {q : Peer} (hq : q = { p with
      amInterested := true
      queue := p.queue ++ [Peer.Piece.new i (pieceLen m i)]
      wire := p.wire ++ .sent .interested ::
        if p.peerChoked then [] else requests i (pieceLen m i) })
    (hl' : l' = { l with
      swarm := { l.swarm with world := ⟨{ l.swarm.world.torrent with
        fileManager := l.swarm.fm.raise i }, [q]⟩ }
      toSeeder := l.toSeeder ++ asking p i (pieceLen m i) }) :
    Inv m orig heap ip D K l' ∧ l'.remaining m = l.remaining m := by
  have hN := hm.count_lt
  have hpos := hm.tiled.pieceLen_pos hi
  have hl32 : pieceLen m i < 2 ^ 32 := (Nat.min_le_left _ _).trans_lt h32
  have hblocks : 0 < (blocksOf (pieceLen m i)).length := by
    rw [length_blocksOf_eq_div hpos]
    exact Nat.div_pos (by omega) (by decide)
  have hnum := numBlocks_new hpos hl32 i
  obtain ⟨hbusy, hload⟩ := busy_of_none hidle.call hbase.peers
  have hcall' : l'.swarm.call = none := by rw [hl']; exact hidle.call
  have hpeers' : l'.swarm.world.peers = [q] := by rw [hl']
  obtain ⟨hbusy', hload'⟩ := busy_of_none hcall' hpeers'
  have hqueue : q.queue = [Peer.Piece.new i (pieceLen m i)] := by rw [hq, hidle.queue]; rfl
  have hfm : l'.swarm.fm = l.swarm.fm.raise i := by rw [hl']; rfl
  rw [hidle.queue] at hbusy hload
  rw [hqueue] at hbusy' hload'
  have hfresh : ∀ j < m.sha1sums.length,
      fresh l'.swarm j = (!decide (j = i) && fresh l.swarm j) := by
    intro j _
    have hc : l'.swarm.fm.completedBits = l.swarm.fm.completedBits := by rw [hfm]; rfl
    have hp : l'.swarm.fm.pendingBits = l.swarm.fm.pendingBits := by rw [hfm]; rfl
    rw [fresh, fresh, hc, hp, hbusy, hbusy']
    by_cases hj : j = i
    · simp [hj, Peer.Piece.new]
    · simp [hj, Peer.Piece.new]
  have hwas : fresh l.swarm i = true := by simp [fresh, hmissing.1, hmissing.2, hbusy]
  have hremove := Runs.rest_remove (cost m) (fresh l.swarm) (fresh l'.swarm) hi hwas hfresh
  have hchoked : q.peerChoked = p.peerChoked := by rw [hq]
  have houtstanding : l'.outstanding.Perm
      ((asking p i (pieceLen m i)).filterMap requestOf ++ l.outstanding) := by
    rw [hl']
    simp only [outstanding, List.filterMap_append]
    rw [List.append_assoc, List.append_assoc, List.append_assoc]
    exact List.perm_append_comm_assoc _ _ _
  rw [hidle.outstanding, List.append_nil] at houtstanding
  obtain ⟨hasked, hlength, hnocancel⟩ := asking_eq (p := p) (show i < 2 ^ 32 by omega) hl32
  rw [hasked] at houtstanding
  have htold' : l'.told := by rw [hl']; exact htold
  refine ⟨⟨q, ⟨?_, hpeers', ?_, ?_, ?_, ?_, ?_, ?_, ?_, ?_, ?_, ?_, ?_, ?_⟩,
    .fetching ⟨hcall', ?_, hqueue, htold', hi, ?_, partial_new hpos hl32, hblocks,
      fun hc => ⟨rfl, ?_⟩, fun hc => ?_⟩⟩, ?_⟩
  · rw [hfm]
    exact hbase.saving.of_eq rfl (map_hash_raise _ i) rfl rfl rfl rfl
  · rw [hq]
    exact hbase.ip
  · rw [hq]
    exact hbase.connected
  · rw [hq]
    exact hbase.errors
  · rw [hl']
    exact hbase.wasted
  · rw [hl']
    exact hbase.misses
  · rw [hfm, ← hbase.downloaded, hl']
    rfl
  · exact hbase.ranked.raise hi hbase.saving.length hwas hfm hfresh
  · rw [hl']
    exact hbase.greets
  · rw [hl']
    exact hbase.unchokes
  · rw [hchoked, hl']
    exact hbase.choked
  · rw [hq]
    exact fun _ => hbase.bits htold
  · intro a b n hmem
    rw [hl'] at hmem
    rcases List.mem_append.1 hmem with hmem | hmem
    · exact hbase.cancels a b n hmem
    · exact hnocancel a b n hmem
  · rw [hfm]
    exact hidle.calls
  · rw [Missing, hfm]
    exact hmissing
  · rw [hchoked] at hc
    rw [hc, if_pos rfl] at houtstanding
    exact houtstanding.eq_nil
  · rw [hchoked] at hc
    rw [hc, if_neg Bool.false_ne_true] at houtstanding
    exact houtstanding
  · have hwrites : l'.swarm.fm.writeRequests = l.swarm.fm.writeRequests := by rw [hfm]; rfl
    have htraffic : l'.traffic = l.traffic + (asking p i (pieceLen m i)).length +
        2 * ((asking p i (pieceLen m i)).filterMap requestOf).length := by
      rw [hl']
      simp only [traffic, List.length_append, List.filterMap_append]
      omega
    rw [hasked, hlength] at htraffic
    rw [remaining, remaining, hwrites, htraffic, hload, hload', ← hremove, cost]
    cases hc : p.peerChoked with
    | true => simp [hchoked, hc, hnum]; omega
    | false => simp [hchoked, hc, length_infosOf]; omega

/-- The end of a handler that chooses the next piece. -/
theorem inv_chosen (heven : m.sha1sums.length % 2 = 0 ∨ heap m.sha1sums.length = 0) {r : Session}
    (hr : (if !l.swarm.world.torrent.isFinished
      then Torrent.requestPiece ⟨l.swarm.world.torrent, p⟩
      else some ⟨l.swarm.world.torrent, p⟩) = some r)
    (hl' : l' = { l with
      swarm := { l.swarm with world := ⟨r.torrent, [r.peer]⟩ }
      toSeeder := l.toSeeder ++ sentMessages (r.peer.wire.drop p.wire.length) }) :
    Inv m orig heap ip D K l' ∧ l'.remaining m = l.remaining m := by
  have hnothing : r = ⟨l.swarm.world.torrent, p⟩ →
      (∀ i < m.sha1sums.length, ¬Missing l.swarm i) →
      Inv m orig heap ip D K l' ∧ l'.remaining m = l.remaining m := by
    rintro rfl hnone
    have hworld : (⟨l.swarm.world.torrent, [p]⟩ : World) = l.swarm.world := by rw [← hbase.peers]
    have hl : l' = l := by
      rw [hl', hworld, List.drop_length, show sentMessages [] = [] from rfl, List.append_nil]
    rw [hl]
    exact ⟨⟨p, hbase, .idle hidle fun _ => hnone⟩, rfl⟩
  obtain ⟨hbusy, -⟩ := busy_of_none hidle.call hbase.peers
  have hchosen : ∀ i < m.sha1sums.length, l.swarm.fm.completedBits.test i = false →
      l.swarm.fm.pendingBits.test i = false →
      l.swarm.fm.rank i < ((2 ^ 31 - 1 : ℤ) : WithBot ℤ) := by
    intro i hi hc hp
    refine lt_of_le_of_lt ((hbase.ranked.2 i hi).2 ?_) (WithBot.coe_lt_coe.2 ?_)
    · rw [fresh, hc, hp, hbusy, hidle.queue]
      rfl
    · have hfew := hbase.ranked.1
      omega
  by_cases hfin : l.swarm.world.torrent.isFinished = true
  · rw [hfin] at hr
    cases hr
    refine hnothing rfl fun i hi hmissing => ?_
    have htest := hbase.saving.test_of_isFinished heven rfl hfin i hi
    rw [hmissing.1] at htest
    cases htest
  · rw [if_pos (by simpa using hfin)] at hr
    rcases hbase.saving.requestPiece hm rfl hchosen (hbase.bits htold) with
      ⟨i, hi, hc, hp, heq⟩ | ⟨hnone, heq⟩
    · cases heq.symm.trans hr
      refine inv_fetch hm h32 hbase hidle htold hi ⟨hc, hp⟩ rfl ?_
      rw [hl']
      simp only [List.drop_left, asking]
      rfl
    · cases heq.symm.trans hr
      exact hnothing rfl fun i hi hmissing => hnone i hi hmissing.1 hmissing.2

end Chosen

/-- The next piece is chosen. -/
theorem inv_select (hm : Consistent m) (h32 : m.pieceLength < 2 ^ 32)
    (heven : m.sha1sums.length % 2 = 0 ∨ heap m.sha1sums.length = 0) (h : Inv m orig heap ip D K l)
    (hs : l.step sha1 human m orig bits .select = some l') :
    Inv m orig heap ip D K l' ∧ l'.remaining m + 1 = l.remaining m := by
  obtain ⟨p, hbase, hphase⟩ := h
  simp only [step] at hs
  obtain ⟨s, hstep, hs⟩ := Option.map_eq_some_iff.1 hs
  obtain ⟨c, q, r, hc, hq, hr, -, hs'⟩ := Swarm.step_select hstep
  obtain ⟨hhanding, hstage⟩ := hphase.handing_of_callAt hc
  rw [hbase.peers, hhanding.id] at hq
  cases hq
  -- the handler has come to its end
  let l₁ : Leech := { l with swarm := { l.swarm with call := none } }
  obtain ⟨hbusy, hload⟩ := busy_of_call hhanding.call hbase.peers hhanding.queue
  obtain ⟨hbusy₁, hload₁⟩ := busy_of_none (s := l₁.swarm) rfl hbase.peers
  rw [hhanding.queue] at hbusy₁ hload₁
  have hfresh : ∀ i, fresh l₁.swarm i = fresh l.swarm i :=
    fresh_congr rfl rfl (by rw [hbusy, hbusy₁, hstage]; rfl)
  have hbase₁ : Base m orig heap ip D K p l₁ :=
    hbase.swarm hbase.saving hbase.peers rfl rfl hbase.downloaded (fun i _ => hfresh i) rfl
  have hcalls : l.swarm.fm.calls = [] := by rw [hhanding.calls, if_neg (by rw [hstage]; decide)]
  have hremaining : l₁.remaining m + 1 = l.remaining m := by
    refine remaining_swarm (fun i _ => hfresh i) ?_
    rw [hload, hload₁, hstage]
    change 0 + l.swarm.fm.writeRequests.length + 1 = 1 + l.swarm.fm.writeRequests.length
    omega
  have hpeers : l.swarm.world.peers.set c.id r.peer = [r.peer] := by
    rw [hbase.peers, hhanding.id]
    rfl
  have hidle : Idle p l₁ := ⟨rfl, hcalls, hhanding.queue, hhanding.outstanding⟩
  have hl' : l' = { l₁ with
      swarm := { l₁.swarm with world := ⟨r.torrent, [r.peer]⟩, call := none }
      toSeeder := l₁.toSeeder ++ sentMessages (r.peer.wire.drop p.wire.length) } := by
    rw [← hs, hs', hpeers, wire, wire, hbase.peers]
    rfl
  obtain ⟨hinv, heq⟩ := inv_chosen hm h32 hbase₁ hidle hhanding.told heven hr hl'
  exact ⟨hinv, by omega⟩

/-! ### The arrival of a message -/

/-- The payload of the Bitfield announces all pieces. -/
def AnnouncesAll (m : TorrentMeta) (bits : Bytes) : Prop :=
  ∀ i < m.sha1sums.length, (byteAt bits (i / 8)).toNat.testBit (7 - i % 8) = true

theorem AnnouncesAll.lt_length (h : AnnouncesAll m bits) {i : ℕ} (hi : i < m.sha1sums.length) :
    i / 8 < bits.length := by
  by_contra hge
  have hbit := h i hi
  rw [byteAt, List.getElem?_eq_none (Nat.le_of_not_lt hge)] at hbit
  simp at hbit

/-- With the Bitfield we learn of all pieces. -/
theorem AnnouncesAll.test (h : AnnouncesAll m bits) (b : Bitset) {i : ℕ}
    (hi : i < m.sha1sums.length) : (receiveBits bits m.sha1sums.length b).test i = true := by
  rw [test_receiveBits]
  refine Or.inl ⟨i / 8, h.lt_length hi, i % 8, Nat.mod_lt _ (by decide), h i hi, ?_, ?_⟩ <;>
    rw [Nat.div_add_mod']
  exact hi

/-- Our side when the first message on its way to us has arrived. -/
def arrived (l : Leech) (s : Swarm) (rest : List Answer) (sent : List Message) : Leech :=
  { l with swarm := s, toUs := rest, toSeeder := l.toSeeder ++ sent }

/-- A message that leaves the torrent alone. -/
theorem Base.arrive (h : Base m orig heap ip D K p l) {a : Answer} {rest : List Answer}
    (hq : l.toUs = a :: rest) {s : Swarm} {q : Peer} {sent : List Message}
    (htorrent : s.world.torrent = l.swarm.world.torrent) (hpeers : s.world.peers = [q])
    (hbusy : busy s = busy l.swarm) (hip : q.ip = p.ip) (hconnected : q.connected = p.connected)
    (herrors : q.errors = p.errors)
    (hchoked : q.peerChoked = !(l.unchoked && decide (.unchoke ∉ rest)))
    (hbits : (l.arrived s rest sent).told → ∀ i < m.sha1sums.length, q.bitset.test i = true)
    (hcancels : ∀ i b n, .cancel i b n ∉ sent) :
    Base m orig heap ip D K q (l.arrived s rest sent) := by
  have hcount : ∀ b : Answer, rest.count b ≤ l.toUs.count b := by
    intro b
    rw [hq]
    exact (List.sublist_cons_self a rest).count_le b
  have hfm : s.fm = l.swarm.fm := congrArg Torrent.fileManager htorrent
  have hfresh : ∀ i, fresh s i = fresh l.swarm i := fresh_congr (by rw [hfm]) (by rw [hfm]) hbusy
  constructor
  · exact hfm ▸ h.saving
  · exact hpeers
  · exact hip.trans h.ip
  · exact hconnected.trans h.connected
  · exact herrors.trans h.errors
  · exact htorrent ▸ h.wasted
  · exact htorrent ▸ h.misses
  · have hdownloaded := h.downloaded
    rw [← hfm, ← htorrent] at hdownloaded
    exact hdownloaded
  · exact h.ranked.congr (fun i _ => hfresh i) (congrArg rank hfm)
  · exact (hcount _).trans h.greets
  · exact (hcount _).trans h.unchokes
  · exact hchoked
  · exact hbits
  · intro i b n hmem
    rcases List.mem_append.1 hmem with hmem | hmem
    · exact h.cancels i b n hmem
    · exact hcancels i b n hmem

/-- What is left when a message has arrived that leaves the torrent alone. -/
theorem remaining_arrived {a : Answer} {rest : List Answer} (hq : l.toUs = a :: rest) {s : Swarm}
    {sent : List Message} (htorrent : s.world.torrent = l.swarm.world.torrent)
    (hbusy : busy s = busy l.swarm)
    (hload : load s + sent.length + 2 * (sent.filterMap requestOf).length = load l.swarm) :
    (l.arrived s rest sent).remaining m + 1 = l.remaining m := by
  have hfm : s.fm = l.swarm.fm := congrArg Torrent.fileManager htorrent
  have hfresh : ∀ i, fresh s i = fresh l.swarm i := fresh_congr (by rw [hfm]) (by rw [hfm]) hbusy
  have htraffic : (l.arrived s rest sent).traffic + 1 =
      l.traffic + sent.length + 2 * (sent.filterMap requestOf).length := by
    have harrived : (l.arrived s rest sent).traffic = (l.toSeeder ++ sent).length +
        2 * ((l.toSeeder ++ sent).filterMap requestOf).length + 2 * l.remote.pending.length +
        rest.length + (if l.greeted then 0 else 2) + if l.unchoked then 0 else 2 := rfl
    rw [harrived, traffic, hq, List.length_cons, List.filterMap_append, List.length_append,
      List.length_append]
    omega
  have hrest := Runs.rest_congr (cost m) fun i (_ : i < m.sha1sums.length) => hfresh i
  have hwrites : s.fm.writeRequests = l.swarm.fm.writeRequests := by rw [hfm]
  rw [remaining, remaining]
  change Runs.rest (cost m) (fresh s) _ + _ + load s + s.fm.writeRequests.length + 1 = _
  rw [hrest, hwrites]
  omega

/-- The blocks that are outstanding: the one that arrives is not any more, those that we request
are. -/
theorem outstanding_arrived {a : Answer} {rest : List Answer} (hq : l.toUs = a :: rest) (s : Swarm)
    (sent : List Message) : ((blockOf a).toList ++ (l.arrived s rest sent).outstanding).Perm
      (sent.filterMap requestOf ++ l.outstanding) := by
  have hhead : l.toUs.filterMap blockOf = (blockOf a).toList ++ rest.filterMap blockOf := by
    rw [hq]
    cases a <;> rfl
  rw [List.perm_iff_count]
  intro info
  simp only [outstanding, arrived, hhead, List.filterMap_append, List.count_append]
  omega

/-- The arrival alone sends nothing. -/
theorem sent_receive (s : Session) (type : UInt8) (payload : Bytes) :
    sentMessages ((Peer.receive s type payload).peer.wire.drop s.peer.wire.length) = [] := by
  rw [Peer.receive, List.drop_left]
  rfl

/-- What we send when a message has arrived. -/
theorem advance_message {type : UInt8} {payload : Bytes} {rest : List Answer}
    (hbase : Base m orig heap ip D K p l)
    (hs : l.advance sha1 human (.message 0 type payload) rest = some l') :
    ∃ s q, l.swarm.call = none ∧ s.world.peers = [q] ∧
      l' = l.arrived s rest (sentMessages (q.wire.drop p.wire.length)) ∧
      ((∃ r, lastBlock ⟨l.swarm.world.torrent, p⟩ type payload = none ∧
          handleMessage sha1 human ⟨l.swarm.world.torrent, p⟩ type payload = some r ∧
          r.peer = q ∧ s = { l.swarm with world := ⟨r.torrent, [q]⟩ }) ∨
        ∃ k piece, lastBlock ⟨l.swarm.world.torrent, p⟩ type payload = some (k, piece) ∧
          q = (handOver (receive ⟨l.swarm.world.torrent, p⟩ type payload) k piece).peer ∧
          s = { l.swarm with
            world := ⟨l.swarm.world.torrent, [q]⟩
            call := some ⟨0, piece, .checking⟩ }) := by
  obtain ⟨s, hstep, hs⟩ := Option.map_eq_some_iff.1 hs
  obtain ⟨p', hcall, hp', -, hend⟩ := Swarm.step_message hstep
  have hset : ∀ q, l.swarm.world.peers.set 0 q = [q] := fun q => by rw [hbase.peers]; rfl
  rw [hbase.peers] at hp'
  cases hp'
  rw [wire, wire, hbase.peers] at hs
  simp only [hset] at hend
  rcases hend with ⟨r, hnone, hr, rfl⟩ | ⟨k, piece, hlast, rfl⟩
  · exact ⟨_, r.peer, hcall, rfl, hs.symm, Or.inl ⟨r, hnone, hr, rfl, rfl⟩⟩
  · exact ⟨_, _, hcall, rfl, hs.symm, Or.inr ⟨k, piece, hlast, rfl, rfl⟩⟩

section Deliver

variable (hm : Consistent m) (h32 : m.pieceLength < 2 ^ 32) (hbase : Base m orig heap ip D K p l)
include hm h32 hbase

/-- The Bitfield arrives. -/
theorem inv_bitfield (hbits : AnnouncesAll m bits)
    (heven : m.sha1sums.length % 2 = 0 ∨ heap m.sha1sums.length = 0)
    (hphase : Phase m orig ip p l) {rest : List Answer} (hq : l.toUs = .bitfield :: rest)
    (hs : l.advance sha1 human (.message 0 5 bits) rest = some l') :
    Inv m orig heap ip D K l' ∧ l'.remaining m + 1 = l.remaining m := by
  have huntold : ¬l.told := fun h => h.2 (hq ▸ List.mem_cons_self)
  obtain ⟨h, -⟩ | h | h := hphase
  rotate_left
  · exact absurd h.told huntold
  · exact absurd h.told huntold
  obtain ⟨s, q', -, hpeers, hl', ⟨r, -, hr, hrq, hs'⟩ | ⟨k, piece, hlast, -⟩⟩ :=
    advance_message hbase hs
  rotate_left
  · have htype := (lastBlock_eq_some hlast).1
    cases htype
  have hN : 0 < m.sha1sums.length := hm.tiled.lt_count_iff.2 (by have := hm.total_pos; omega)
  have hlen := hbits.lt_length hN
  -- the peer that knows of all pieces
  generalize hq' : ({ p with
    bitset := receiveBits bits l.swarm.fm.pieces.length p.bitset
    wire := p.wire ++ [.received 5 bits] } : Peer) = q at hr
  have hr' : (if !l.swarm.world.torrent.isFinished
      then Torrent.requestPiece ⟨l.swarm.world.torrent, q⟩
      else some ⟨l.swarm.world.torrent, q⟩) = some r := by
    have hhandle : handleMessage sha1 human ⟨l.swarm.world.torrent, p⟩ 5 bits =
        handleBitfield (receive ⟨l.swarm.world.torrent, p⟩ 5 bits) bits := rfl
    rw [hhandle, handleBitfield, if_neg (by omega)] at hr
    rw [← hq']
    exact hr
  have hgreets := hbase.greets
  rw [hq, List.count_cons_self] at hgreets
  have hgreeted : l.greeted = true := by
    by_contra hnot
    rw [Bool.not_eq_true] at hnot
    rw [hnot, Bool.toNat_false] at hgreets
    omega
  rw [hgreeted, Bool.toNat_true] at hgreets
  have htold : Answer.bitfield ∉ rest := List.count_eq_zero.1 (by omega)
  have hchoked := hbase.choked
  rw [hq] at hchoked
  let s₁ : Swarm := { l.swarm with world := ⟨l.swarm.world.torrent, [q]⟩ }
  have hbusy : busy s₁ = busy l.swarm := by simp [busy, s₁, hbase.peers, ← hq']
  have hload : load s₁ = load l.swarm := by simp [load, s₁, hbase.peers, ← hq']
  have hbase₁ : Base m orig heap ip D K q (l.arrived s₁ rest []) := by
    refine hbase.arrive hq rfl rfl hbusy ?_ ?_ ?_ ?_ (fun _ i hi => ?_)
      fun _ _ _ => List.not_mem_nil
    all_goals rw [← hq']
    · simpa using hchoked
    · rw [hbase.saving.length]
      exact hbits.test _ hi
  have hidle : Idle q (l.arrived s₁ rest []) := by
    refine ⟨h.call, h.calls, by rw [← hq']; exact h.queue, ?_⟩
    have hout := outstanding_arrived hq s₁ []
    rw [h.outstanding] at hout
    exact hout.eq_nil
  have hremaining : (l.arrived s₁ rest []).remaining m + 1 = l.remaining m :=
    remaining_arrived hq rfl hbusy (by simpa using hload)
  obtain ⟨new, hnew⟩ : ∃ new, r.peer.wire = q.wire ++ new := by
    have hselected : Selected ⟨l.swarm.world.torrent, q⟩ r := by
      split_ifs at hr'
      · exact Or.inr hr'
      · exact Or.inl (Option.some.inj hr').symm
    obtain ⟨-, hpeer | ⟨_, _, -, -, hpeer⟩⟩ := hselected.cases
    · exact ⟨[], by rw [hpeer, List.append_nil]⟩
    · exact ⟨_, by rw [hpeer]⟩
  have hsent : sentMessages (r.peer.wire.drop p.wire.length) =
      sentMessages (r.peer.wire.drop q.wire.length) := by
    have hwire : q.wire = p.wire ++ [.received 5 bits] := by rw [← hq']
    rw [hnew, List.drop_left, hwire, List.append_assoc, List.drop_left]
    rfl
  have hchosen := inv_chosen hm h32 hbase₁ hidle ⟨hgreeted, htold⟩ heven hr' rfl
  rw [hl', ← hrq, hsent, hs', ← hrq]
  simp only [arrived, List.append_nil] at hchosen hremaining ⊢
  exact ⟨hchosen.1, by rw [← hremaining, ← hchosen.2]⟩

/-- Our side learns that it is not choked any more. -/
theorem inv_unchoked (hphase : Phase m orig ip p l) {rest : List Answer}
    (hq : l.toUs = .unchoke :: rest)
    (hs : l.advance sha1 human (.message 0 1 []) rest = some l') :
    Inv m orig heap ip D K l' ∧ l'.remaining m + 1 = l.remaining m := by
  obtain ⟨s, q, hcall, hpeers, hl', ⟨r, -, hr, hrq, hs'⟩ | ⟨k, piece, hlast, -⟩⟩ :=
    advance_message hbase hs
  rotate_left
  · have htype := (lastBlock_eq_some hlast).1
    cases htype
  have houtcome : Peer.Outcome sha1 (receive ⟨l.swarm.world.torrent, p⟩ 1 []) [] 1 r :=
    handleMessage_outcome hr
  obtain ⟨length, hlength, hrt, hqp⟩ : ∃ length : ℕ → ℕ,
      (∀ piece ∈ p.queue, l.swarm.fm.pieceSize piece.index = some (length piece.index)) ∧
      r.torrent = l.swarm.world.torrent ∧ q = { p with
        peerChoked := false
        wire := p.wire ++ [.received 1 []] ++
          p.queue.flatMap fun piece => requests piece.index (length piece.index) } := by
    cases houtcome with
    | error errmsg h => exact absurd rfl h
    | unchoke h length hlength => exact ⟨length, hlength, rfl, hrq.symm⟩
    | unknown h => exact absurd h (by decide)
  have htorrent : s.world.torrent = l.swarm.world.torrent := by rw [hs']; exact hrt
  have hunchokes := hbase.unchokes
  have hchoked := hbase.choked
  rw [hq, List.count_cons_self] at hunchokes
  rw [hq] at hchoked
  have hunchoked : l.unchoked = true := by
    by_contra hnot
    rw [Bool.not_eq_true] at hnot
    rw [hnot, Bool.toNat_false] at hunchokes
    omega
  rw [hunchoked, Bool.toNat_true] at hunchokes
  have hlast : Answer.unchoke ∉ rest := List.count_eq_zero.1 (by omega)
  have hwas : p.peerChoked = true := by simpa using hchoked
  have htold : (l.arrived s rest (sentMessages (q.wire.drop p.wire.length))).told ↔ l.told := by
    simp [told, arrived, hq]
  have hsent : sentMessages (q.wire.drop p.wire.length) =
      sentMessages (p.queue.flatMap fun piece => requests piece.index (length piece.index)) := by
    rw [hqp, List.append_assoc, List.drop_left]
    rfl
  have hqueue : q.queue = p.queue := by rw [hqp]
  have hcall' : s.call = none := by rw [hs']; exact hcall
  obtain ⟨hbusy, hload⟩ := busy_of_none hcall hbase.peers
  obtain ⟨hbusy', hload'⟩ := busy_of_none hcall' hpeers
  rw [hqueue] at hbusy' hload'
  have hfm : s.fm = l.swarm.fm := congrArg Torrent.fileManager htorrent
  have hqchoked : q.peerChoked = false := by rw [hqp]
  have hq' : q.ip = p.ip ∧ q.connected = p.connected ∧ q.errors = p.errors ∧
      q.bitset = p.bitset := by
    rw [hqp]
    exact ⟨rfl, rfl, rfl, rfl⟩
  have hopen : q.peerChoked = !(l.unchoked && decide (Answer.unchoke ∉ rest)) := by
    rw [hqchoked, hunchoked, decide_eq_true hlast]
    rfl
  have hknown : (l.arrived s rest (sentMessages (q.wire.drop p.wire.length))).told →
      ∀ i < m.sha1sums.length, q.bitset.test i = true := by
    rw [hq'.2.2.2]
    exact fun h => hbase.bits (htold.1 h)
  subst hl'
  obtain ⟨h, hnone⟩ | h | h := hphase
  · -- there is nothing to request
    rw [h.queue] at hsent hload hload'
    have hsent' : sentMessages (q.wire.drop p.wire.length) = [] := hsent
    refine ⟨⟨q, hbase.arrive hq htorrent hpeers (hbusy'.trans hbusy.symm) hq'.1 hq'.2.1 hq'.2.2.1
      hopen hknown (by rw [hsent']; exact fun _ _ _ => List.not_mem_nil), .idle
      ⟨hcall', ?_, hqueue.trans h.queue, ?_⟩ ?_⟩,
      remaining_arrived hq htorrent (hbusy'.trans hbusy.symm) ?_⟩
    · exact (congrArg FileManager.calls hfm).trans h.calls
    · have hout := outstanding_arrived hq s (sentMessages (q.wire.drop p.wire.length))
      rw [h.outstanding, hsent'] at hout
      rw [hsent']
      exact hout.eq_nil
    · rw [htold]
      intro h i hi
      rw [Missing]
      change ¬(s.fm.completedBits.test i = false ∧ s.fm.pendingBits.test i = false)
      rw [hfm]
      exact hnone h i hi
    · rw [hsent', hload, hload']
      rfl
  · -- the blocks of the piece are requested
    rename_i i got piece
    have hN := hm.count_lt
    have hi := h.lt
    have hl32 : pieceLen m i < 2 ^ 32 := (Nat.min_le_left _ _).trans_lt h32
    have hlen := hlength piece (by rw [h.queue]; exact List.mem_singleton_self _)
    rw [h.part.index, hm.tiled.pieceSize_eq hbase.saving.metainfo hbase.saving.length h.lt,
      Option.some.injEq] at hlen
    obtain ⟨rfl, hout⟩ := h.unasked hwas
    rw [h.queue, List.flatMap_singleton, h.part.index, ← hlen] at hsent
    rw [h.queue] at hload hload'
    have hasked := requestOf_requests (show i < 2 ^ 32 by omega) hl32
    rw [← hsent] at hasked
    have hcount : (sentMessages (q.wire.drop p.wire.length)).length =
        (blocksOf (pieceLen m i)).length := by
      rw [hsent, sentMessages_requests, List.length_map]
    have hcancels : ∀ a b n, .cancel a b n ∉ sentMessages (q.wire.drop p.wire.length) := by
      intro a b n hmem
      rw [hsent, sentMessages_requests] at hmem
      obtain ⟨c, -, hc⟩ := List.mem_map.1 hmem
      cases hc
    refine ⟨⟨q, hbase.arrive hq htorrent hpeers (hbusy'.trans hbusy.symm) hq'.1 hq'.2.1 hq'.2.2.1
      hopen hknown hcancels, .fetching
      ⟨hcall', ?_, hqueue.trans h.queue, htold.2 h.told, h.lt, ?_, h.part, h.more,
        fun hc => absurd (hqchoked.symm.trans hc) Bool.false_ne_true, fun _ => ?_⟩⟩,
      remaining_arrived hq htorrent (hbusy'.trans hbusy.symm) ?_⟩
    · exact (congrArg FileManager.calls hfm).trans h.calls
    · rw [Missing]
      change s.fm.completedBits.test i = false ∧ s.fm.pendingBits.test i = false
      rw [hfm]
      exact h.missing
    · have hperm := outstanding_arrived hq s (sentMessages (q.wire.drop p.wire.length))
      rw [hout, hasked, List.append_nil] at hperm
      exact hperm
    · rw [hload, hload', hasked, length_infosOf, hcount]
      simp [hwas, hqchoked, h.part.numBlocks]
      omega
  · exact absurd (h.call.symm.trans hcall) (by simp)

omit hm h32 hbase in
/-- The block that arrives is one of the piece that had been outstanding. -/
theorem Fetching.exists_block {i : ℕ} {got : List (ℕ × ℕ)} {piece : Peer.Piece}
    (h : Fetching m orig i got piece p l) {info : PieceBlockInfo} {rest : List Answer}
    (hq : l.toUs = .block info :: rest) : p.peerChoked = false ∧
      ∃ b ∈ blocksOf (pieceLen m i), info = ⟨i, b.1, b.2⟩ ∧
        ∀ s, (infosOf i (got ++ [b]) ++ (l.arrived s rest []).outstanding).Perm
          (infosOf i (blocksOf (pieceLen m i))) := by
  have hmem : info ∈ l.outstanding := by
    rw [outstanding, hq]
    exact List.mem_append_right _ List.mem_cons_self
  have hopen : p.peerChoked = false := by
    by_contra hchoked
    rw [(h.unasked (by simpa using hchoked)).2] at hmem
    cases hmem
  have hasked := h.asked hopen
  obtain ⟨b, hb, rfl⟩ := List.mem_map.1 (hasked.subset (List.mem_append_right _ hmem))
  refine ⟨hopen, b, hb, rfl, fun s => ?_⟩
  rw [infosOf, List.map_append, List.append_assoc]
  exact ((outstanding_arrived hq s []).append_left _).trans hasked

omit hm h32 in
/-- A block of a piece arrives that is not the last. -/
theorem inv_stored {i : ℕ} {got : List (ℕ × ℕ)} {piece piece' : Peer.Piece}
    (h : Fetching m orig i got piece p l) (hopen : p.peerChoked = false) {info : PieceBlockInfo}
    {rest : List Answer} (hq : l.toUs = .block info :: rest) {b : ℕ × ℕ}
    (hpart : Partial i (pieceLen m i) (contentOf m orig i) (got ++ [b]) piece')
    (hmore : got.length + 1 < (blocksOf (pieceLen m i)).length) {wire : List Wire}
    {s : Swarm} (hs : s = { l.swarm with
      world := ⟨l.swarm.world.torrent, [{ p with wire := wire, queue := [piece'] }]⟩ })
    (hperm : (infosOf i (got ++ [b]) ++ (l.arrived s rest []).outstanding).Perm
      (infosOf i (blocksOf (pieceLen m i)))) :
    Inv m orig heap ip D K (l.arrived s rest []) ∧
      (l.arrived s rest []).remaining m + 1 = l.remaining m := by
  have hpeers : s.world.peers = [{ p with wire := wire, queue := [piece'] }] := by rw [hs]
  have htorrent : s.world.torrent = l.swarm.world.torrent := by rw [hs]
  have hcall : s.call = none := by rw [hs]; exact h.call
  have hchoked := hbase.choked
  have htold := h.told
  rw [hq] at hchoked
  simp only [told, hq, List.mem_cons, not_or] at htold
  obtain ⟨hbusy, hload⟩ := busy_of_none h.call hbase.peers
  obtain ⟨hbusy', hload'⟩ := busy_of_none hcall hpeers
  have hsame : busy s = busy l.swarm := by
    rw [hbusy, hbusy', h.queue, List.map_singleton, List.map_singleton, hpart.index, h.part.index]
  refine ⟨⟨_, hbase.arrive hq htorrent hpeers hsame rfl rfl rfl (by simpa using hchoked)
    (fun _ => hbase.bits h.told) fun _ _ _ => List.not_mem_nil, .fetching ⟨hcall, ?_, rfl,
      ⟨htold.1, htold.2.2⟩, h.lt, ?_, hpart, ?_, fun hc => ?_, fun _ => hperm⟩⟩,
    remaining_arrived hq htorrent hsame ?_⟩
  · rw [arrived, hs]
    exact h.calls
  · rw [arrived, hs]
    exact h.missing
  · rwa [List.length_append, List.length_singleton]
  · exact absurd (hopen.symm.trans hc) Bool.false_ne_true
  · rw [hload, hload', h.queue]
    simp [hopen]

omit h32 in
/-- The last block of a piece arrives. -/
theorem inv_handed (ho : orig.length = m.totalSize) {i : ℕ} {got : List (ℕ × ℕ)}
    {piece piece' : Peer.Piece} (h : Fetching m orig i got piece p l)
    (hopen : p.peerChoked = false) {info : PieceBlockInfo} {rest : List Answer}
    (hq : l.toUs = .block info :: rest) {b : ℕ × ℕ}
    (hpart : Partial i (pieceLen m i) (contentOf m orig i) (got ++ [b]) piece')
    (hlast : got.length + 1 = (blocksOf (pieceLen m i)).length) {wire : List Wire}
    {handed : List Peer.Piece} {s : Swarm} (hs : s = { l.swarm with
      world := ⟨l.swarm.world.torrent, [{ p with wire := wire, queue := [], handed := handed }]⟩
      call := some ⟨0, piece', .checking⟩ })
    (hperm : (infosOf i (got ++ [b]) ++ (l.arrived s rest []).outstanding).Perm
      (infosOf i (blocksOf (pieceLen m i)))) :
    Inv m orig heap ip D K (l.arrived s rest []) ∧
      (l.arrived s rest []).remaining m + 1 = l.remaining m := by
  have hpeers : s.world.peers = [{ p with wire := wire, queue := [], handed := handed }] := by
    rw [hs]
  have htorrent : s.world.torrent = l.swarm.world.torrent := by rw [hs]
  have hcall : s.call = some ⟨0, piece', .checking⟩ := by rw [hs]
  have hchoked := hbase.choked
  have htold := h.told
  rw [hq] at hchoked
  simp only [told, hq, List.mem_cons, not_or] at htold
  obtain ⟨hbusy, hload⟩ := busy_of_none h.call hbase.peers
  obtain ⟨hbusy', hload'⟩ := busy_of_call hcall hpeers rfl
  have hsame : busy s = busy l.swarm := by
    rw [hbusy, hbusy', h.queue, List.map_singleton, h.part.index]
    exact congrArg (fun i => [i]) hpart.index
  -- nothing is outstanding, and all blocks are there
  have hlength := hperm.length_eq
  rw [List.length_append, length_infosOf, length_infosOf, List.length_append,
    List.length_singleton] at hlength
  have hnone : (l.arrived s rest []).outstanding = [] :=
    List.eq_nil_of_length_eq_zero (by omega)
  rw [hnone, List.append_nil] at hperm
  have hall : ∀ c ∈ blocksOf (pieceLen m i), c ∈ got ++ [b] := by
    intro c hc
    obtain ⟨c', hc', heq⟩ := List.mem_map.1 (hperm.symm.subset (List.mem_map_of_mem hc))
    rw [PieceBlockInfo.mk.injEq] at heq
    rwa [← Prod.ext heq.2.1 heq.2.2]
  have hend := hm.tiled.piece_end_le h.lt
  have hcontent : (contentOf m orig i).length = pieceLen m i := length_region (by omega)
  refine ⟨⟨_, hbase.arrive hq htorrent hpeers hsame rfl rfl rfl (by simpa using hchoked)
    (fun _ => hbase.bits h.told) fun _ _ _ => List.not_mem_nil, .handing ⟨hcall, rfl, rfl,
      ⟨htold.1, htold.2.2⟩, ?_, ?_, hnone, fun _ => ?_, ?_⟩⟩,
    remaining_arrived hq htorrent hsame ?_⟩
  · exact hpart.index ▸ h.lt
  · rw [hpart.data_eq hall hcontent, hpart.index]
  · rw [hpart.index, arrived, hs]
    exact h.missing
  · rw [arrived, hs]
    exact h.calls
  · rw [hload, hload', h.queue]
    simp [hopen, stageLoad]

/-- A block arrives. -/
theorem inv_block (ho : orig.length = m.totalSize) (hphase : Phase m orig ip p l)
    {info : PieceBlockInfo} {rest : List Answer} (hq : l.toUs = .block info :: rest)
    (hs : l.step sha1 human m orig bits .deliver = some l') :
    Inv m orig heap ip D K l' ∧ l'.remaining m + 1 = l.remaining m := by
  have hmem : info ∈ l.outstanding := by
    rw [outstanding, hq]
    exact List.mem_append_right _ List.mem_cons_self
  obtain ⟨h, -⟩ | h | h := hphase
  · rw [h.outstanding] at hmem
    cases hmem
  rotate_left
  · rw [h.outstanding] at hmem
    cases hmem
  rename_i i got piece
  have hN := hm.count_lt
  have hi := h.lt
  have hpos := hm.tiled.pieceLen_pos hi
  have hend := hm.tiled.piece_end_le hi
  have hl32 : pieceLen m i < 2 ^ 32 := (Nat.min_le_left _ _).trans_lt h32
  have hcontent : (contentOf m orig i).length = pieceLen m i := length_region (by omega)
  obtain ⟨hopen, b, hb, rfl, hperm⟩ := h.exists_block hq
  -- the message is the block of the content
  have hbound := mem_blocksOf_bounds hb
  have hregion : region orig (i * m.pieceLength + b.1) b.2 = region (contentOf m orig i) b.1 b.2 :=
    (region_region (by omega)).symm
  have hadvance : l.advance sha1 human (.message 0 7 (Message.pieceBlock (UInt32.ofNat i)
      (UInt32.ofNat b.1) (region (contentOf m orig i) b.1 b.2)).payload) rest = some l' := by
    simp only [step, hq, Answer.wire, hregion] at hs
    exact hs
  have hdone : l.swarm.fm.pieceDone i = false := by
    rw [pieceDone, h.missing.1, Bool.and_false]
  obtain ⟨piece', hpart, hcases⟩ := block_cases sha1 human
    (s := ⟨l.swarm.world.torrent, p⟩) (show i < 2 ^ 32 by omega) hl32 hpos hcontent h.queue h.part
    hb hdone rfl
  obtain ⟨s, q, -, -, hl', hend⟩ := advance_message hbase hadvance
  split_ifs at hcases with hnum
  · obtain ⟨r, hnone, -⟩ | ⟨k, piece₁, hlast, hqp, hs'⟩ := hend
    · cases hcases.symm.trans hnone
    cases hcases.symm.trans hlast
    have hsent : sentMessages (q.wire.drop p.wire.length) = [] := by
      rw [hqp]
      exact sent_receive ⟨l.swarm.world.torrent, p⟩ _ _
    have hqueue : p.queue.eraseIdx 0 = [] := by rw [h.queue]; rfl
    have hs'' : s = { l.swarm with
        world := ⟨l.swarm.world.torrent,
          [{ p with wire := q.wire, queue := [], handed := q.handed }]⟩
        call := some ⟨0, piece', .checking⟩ } := by
      rw [hs', hqp]
      simp only [handOver, Peer.receive, hqueue]
    rw [hl', hsent]
    exact inv_handed hm hbase ho h hopen hq hpart hnum hs'' (hperm s)
  · obtain ⟨r, -, hr, hrq, hs'⟩ | ⟨k, piece₁, hlast, -⟩ := hend
    rotate_left
    · cases hcases.1.symm.trans hlast
    have hr' := hcases.2 r hr
    have hsent : sentMessages (q.wire.drop p.wire.length) = [] := by
      rw [← hrq, hr']
      exact sent_receive ⟨l.swarm.world.torrent, p⟩ _ _
    have hmore := h.more
    have hs'' : s = { l.swarm with
        world := ⟨l.swarm.world.torrent, [{ p with wire := q.wire, queue := [piece'] }]⟩ } := by
      rw [hs', ← hrq, hr']
      rfl
    rw [hl', hsent]
    exact inv_stored hbase h hopen hq hpart (by omega) hs'' (hperm s)

end Deliver

/-! ### Runs -/

/-- What a download needs: a consistent torrent whose pieces are short enough for a `uint32_t`, the
content, whose pieces pass the test, a Bitfield of all pieces, and no byte behind the bits of the
completed pieces that their count would take in. -/
structure Downloadable (sha1 : Bytes → Sha1sum) (m : TorrentMeta) (orig bits : Bytes)
    (heap : ℤ → UInt8) : Prop where
  consistent : Consistent m
  pieceLength_lt : m.pieceLength < 2 ^ 32
  length_eq : orig.length = m.totalSize
  passes : ∀ i < m.sha1sums.length, Passes sha1 m (i, contentOf m orig i)
  announces : AnnouncesAll m bits
  even : m.sha1sums.length % 2 = 0 ∨ heap m.sha1sums.length = 0

section Runs

variable (hd : Downloadable sha1 m orig bits heap)
include hd

/-- **One step.** The invariant is kept, and one step less is left. -/
theorem inv_step (l : Leech) (a : LeechAction) (l' : Leech) (h : Inv m orig heap ip D K l)
    (hs : l.step sha1 human m orig bits a = some l') :
    Inv m orig heap ip D K l' ∧ l'.remaining m + 1 = l.remaining m := by
  have hm := hd.consistent
  cases a with
  | process => exact inv_process h hs
  | greet => exact inv_greet h hs
  | unchoke => exact inv_unchoke h hs
  | answer info => exact inv_answer h hs
  | check => exact inv_check hd.passes h hs
  | push => exact inv_push hm h hs
  | select => exact inv_select hm hd.pieceLength_lt hd.even h hs
  | work => exact inv_work hm hd.length_eq h hs
  | deliver =>
    obtain ⟨p, hbase, hphase⟩ := h
    cases hq : l.toUs with
    | nil =>
      simp only [step, hq] at hs
      cases hs
    | cons r rest =>
      cases r with
      | bitfield =>
        simp only [step, hq] at hs
        exact inv_bitfield hm hd.pieceLength_lt hbase hd.announces hd.even hphase hq hs
      | unchoke =>
        simp only [step, hq] at hs
        exact inv_unchoked hm hd.pieceLength_lt hbase hphase hq hs
      | block info => exact inv_block hm hd.pieceLength_lt hbase hd.length_eq hphase hq hs

omit hd in
theorem isSome_advance {a : SwarmAction} {toUs : List Answer}
    (h : (l.swarm.step sha1 human a).isSome = true) :
    (l.advance sha1 human a toUs).isSome = true := by
  rw [advance, Option.isSome_map]
  exact h

/-- Where our handler is at work, its next part is possible. -/
theorem exists_step_handing (hbase : Base m orig heap ip D K p l) {c : Call}
    (h : Handing m orig ip c p l) : ∃ a, (l.step sha1 human m orig bits a).isSome = true := by
  have hc := Swarm.callAt_eq_some.2 ⟨h.call, rfl⟩
  have hp : l.swarm.world.peers[c.id]? = some p := by
    rw [hbase.peers, h.id]
    rfl
  cases hstage : c.stage with
  | checking =>
    rw [hstage] at hc
    have hmissing := h.missing (by rw [hstage]; decide)
    obtain ⟨checks, hcheck⟩ := hbase.saving.check hd.passes h.lt hmissing.2 p.ip.toNat
    rw [← h.data] at hcheck
    exact ⟨.check, isSome_advance (by rw [Swarm.check_eq hc hp hcheck]; rfl)⟩
  | pushing =>
    rw [hstage] at hc
    have hcalls := h.calls
    rw [if_pos hstage] at hcalls
    refine ⟨.push, isSome_advance ?_⟩
    rw [Swarm.step, hc, Option.bind_some, Option.isSome_map, FileManager.writePush, hcalls]
    rfl
  | selecting =>
    rw [hstage] at hc
    refine ⟨.select, isSome_advance ?_⟩
    have hsome : (if !l.swarm.world.torrent.isFinished
        then Torrent.requestPiece ⟨l.swarm.world.torrent, p⟩
        else some ⟨l.swarm.world.torrent, p⟩).isSome = true := by
      split_ifs
      · refine isSome_torrent_requestPiece ?_
        change l.swarm.fm.metainfo.pieceLength ≠ 0
        rw [hbase.saving.metainfo]
        exact hd.consistent.pieceLength_pos.ne'
      · rfl
    obtain ⟨r, hr⟩ := Option.isSome_iff_exists.1 hsome
    rw [Swarm.select_eq hc hp hr]
    rfl

/-- Where our handler is not at work, a message may arrive. -/
theorem isSome_deliver (hbase : Base m orig heap ip D K p l) (hcall : l.swarm.call = none)
    {r : Answer} {rest : List Answer} (hq : l.toUs = r :: rest) :
    (l.step sha1 human m orig bits .deliver).isSome = true := by
  simp only [step, hq]
  refine isSome_advance ?_
  have hp : l.swarm.world.peers[0]? = some p := by
    rw [hbase.peers]
    rfl
  have hhandle : (handleMessage sha1 human ⟨l.swarm.world.torrent, p⟩ (r.wire m orig bits).1
      (r.wire m orig bits).2).isSome = true := by
    refine isSome_handleMessage (show l.swarm.fm.metainfo.pieceLength ≠ 0 from ?_) _ _
    rw [hbase.saving.metainfo]
    exact hd.consistent.pieceLength_pos.ne'
  rw [Swarm.step, hcall, hp]
  simp only [Option.isSome_none, Bool.false_eq_true, if_false, Option.bind_some, hbase.connected,
    Bool.not_true]
  cases lastBlock ⟨l.swarm.world.torrent, p⟩ (r.wire m orig bits).1 (r.wire m orig bits).2 with
  | none =>
    simp only [World.step, World.atPeer, hp, Option.bind_some, hbase.connected, if_true,
      Option.isSome_map]
    exact hhandle
  | some _ => rfl

/-- **Progress.** As long as anything is left, a step is possible. -/
theorem exists_step (l : Leech) (h : Inv m orig heap ip D K l) (hne : l.remaining m ≠ 0) :
    ∃ a, (l.step sha1 human m orig bits a).isSome = true := by
  obtain ⟨p, hbase, hphase⟩ := h
  by_contra hstuck
  have hno := not_exists.1 hstuck
  -- the channels and the queue of writes are empty
  have htoSeeder : l.toSeeder = [] := by
    by_contra hmore
    obtain ⟨msg, rest, hq⟩ := List.exists_cons_of_ne_nil hmore
    exact hno .process (by simp [step, hq])
  have hgreeted : l.greeted = true := by
    by_contra hnot
    exact hno .greet (by simp [step, hnot])
  have hunchoked : l.unchoked = true := by
    by_contra hnot
    exact hno .unchoke (by simp [step, hnot])
  have hpending : l.remote.pending = [] := by
    by_contra hmore
    obtain ⟨info, rest, hq⟩ := List.exists_cons_of_ne_nil hmore
    exact hno (.answer info) (by simp [step, hq])
  have hwrites : l.swarm.fm.writeRequests = [] := by
    by_contra hmore
    obtain ⟨w, ws, hq⟩ := List.exists_cons_of_ne_nil hmore
    refine hno .work (isSome_advance ?_)
    rw [Swarm.step, hq, List.head?_cons, Option.bind_some, FileManager.work, hq,
      Option.bind_some, Option.isSome_map, World.onPieceWriteComplete, Option.isSome_map]
    refine FileManager.isSome_pieceSize ?_ _
    change l.swarm.fm.metainfo.pieceLength ≠ 0
    rw [hbase.saving.metainfo]
    exact hd.consistent.pieceLength_pos.ne'
  have hcall : l.swarm.call = none := by
    cases hphase with
    | idle h => exact h.call
    | fetching h => exact h.call
    | handing h => exact absurd (exists_step_handing hd hbase h) hstuck
  have htoUs : l.toUs = [] := by
    by_contra hmore
    obtain ⟨r, rest, hq⟩ := List.exists_cons_of_ne_nil hmore
    exact hno .deliver (isSome_deliver hd hbase hcall hq)
  have htold : l.told := ⟨hgreeted, by rw [htoUs]; exact List.not_mem_nil⟩
  cases hphase with
  | handing h => exact hstuck (exists_step_handing hd hbase h)
  | fetching h =>
    -- all Requests have been answered
    have hopen : p.peerChoked = false := by
      rw [hbase.choked, hunchoked, htoUs]
      rfl
    have hnone : l.outstanding = [] := by
      rw [outstanding, htoSeeder, hpending, htoUs]
      rfl
    have hlength := (h.asked hopen).length_eq
    rw [hnone, List.append_nil, length_infosOf, length_infosOf] at hlength
    exact absurd hlength (Nat.ne_of_lt h.more)
  | idle h hnone =>
    -- nothing is left
    obtain ⟨-, hload⟩ := busy_of_none h.call hbase.peers
    refine hne ?_
    have hrest : Runs.rest (cost m) (fresh l.swarm) m.sha1sums.length = 0 := by
      refine (Runs.rest_eq_zero fun i _ => Nat.succ_ne_zero _).2 fun i hi => ?_
      have hmissing := hnone htold i hi
      rw [Missing, not_and_or, Bool.not_eq_false, Bool.not_eq_false] at hmissing
      rcases hmissing with hmissing | hmissing <;> simp [fresh, hmissing]
    rw [remaining, hrest, traffic, hload, h.queue, htoSeeder, hgreeted, hunchoked, hpending,
      hwrites, htoUs]
    rfl

omit hd in
/-- **The end.** Where nothing is left, all pieces are completed. -/
theorem test_of_remaining (h : Inv m orig heap ip D K l) (hzero : l.remaining m = 0) :
    ∀ i < m.sha1sums.length, l.swarm.fm.completedBits.test i = true := by
  obtain ⟨p, hbase, hphase⟩ := h
  rw [remaining] at hzero
  have hwrites : l.swarm.fm.writeRequests = [] :=
    List.eq_nil_of_length_eq_zero (by omega)
  have hload : load l.swarm = 0 := by omega
  have hrest := (Runs.rest_eq_zero fun i _ => Nat.succ_ne_zero _).1
    (show Runs.rest (cost m) (fresh l.swarm) m.sha1sums.length = 0 by omega)
  have hbusy : busy l.swarm = [] := by
    cases hphase with
    | idle h _ =>
      rw [(busy_of_none h.call hbase.peers).1, h.queue]
      rfl
    | fetching h =>
      rw [(busy_of_none h.call hbase.peers).2, h.queue] at hload
      simp at hload
    | handing h =>
      rw [(busy_of_call h.call hbase.peers h.queue).2] at hload
      cases hstage : ‹Call›.stage <;> simp [hstage, stageLoad] at hload
  intro i hi
  have hfresh := hrest i hi
  have hpending := hbase.saving.pending_eq_false hi (by rw [hwrites]; exact List.not_mem_nil)
  rw [fresh, hpending, hbusy] at hfresh
  simpa using hfresh

omit hd in
/-- A peer that has just been registered: it may have been told which pieces we have. -/
theorem registered (t : Torrent) (ip : UInt32) (heap' : ℤ → UInt8) (stack : ℕ → UInt8) (N : ℕ) :
    ∃ wire, t.sendBitfield stack (Peer.new ip heap' N) = { Peer.new ip heap' N with wire := wire } ∧
      (sentMessages wire).filterMap requestOf = [] ∧
      ∀ i b n, .cancel i b n ∉ sentMessages wire := by
  unfold Torrent.sendBitfield
  split_ifs
  · exact ⟨[], rfl, rfl, fun _ _ _ => List.not_mem_nil⟩
  · refine ⟨_, rfl, rfl, fun i b n hmem => ?_⟩
    cases List.mem_singleton.1 hmem

/-- The number of steps of a download: those for the pieces that are not completed, one for the
Bitfield that we send, if any, and two each for the Bitfield and the UnChoke of the seeder. -/
def steps (m : TorrentMeta) (fm : FileManager) (ip : UInt32) (heap' : ℤ → UInt8)
    (stack : ℕ → UInt8) : ℕ :=
  Runs.rest (cost m) (fun i => !fm.completedBits.test i) m.sha1sums.length +
    (start fm ip heap' stack).toSeeder.length + 4

variable {fm : FileManager}

variable (m orig heap ip D K) in
/-- What holds of a torrent that is not connected, after `K` connections. -/
structure Waiting (t : Torrent) : Prop where
  saving : Saving m orig heap ip.toNat t.fileManager
  calls : t.fileManager.calls = []
  wasted : t.wastedBytes = 0
  misses : t.hashMisses = 0
  downloaded : t.downloadedBytes +
    Runs.rest (pieceLen m) (fun i => !t.fileManager.completedBits.test i) m.sha1sums.length = D
  few : K + 1 < 2 ^ 31
  ranked : ∀ i < m.sha1sums.length, t.fileManager.rank i ≤ ((K : ℤ) : WithBot ℤ)

omit hd in
/-- A connection is made. -/
theorem inv_connect {t : Torrent} (h : Waiting m orig heap ip D K t) (heap' : ℤ → UInt8)
    (stack : ℕ → UInt8) :
    Inv m orig heap ip D K (connect t ip heap' stack) ∧
      (connect t ip heap' stack).remaining m =
        Runs.rest (cost m) (fun i => !t.fileManager.completedBits.test i &&
          !t.fileManager.pendingBits.test i) m.sha1sums.length +
        (connect t ip heap' stack).toSeeder.length + 4 + t.fileManager.writeRequests.length := by
  have hadd : (t.addPeer ip 0).fileManager = t.fileManager ∧
      (t.addPeer ip 0).downloadedBytes = t.downloadedBytes ∧
      (t.addPeer ip 0).wastedBytes = t.wastedBytes ∧
      (t.addPeer ip 0).hashMisses = t.hashMisses := by
    unfold Torrent.addPeer Torrent.insertPeer
    split_ifs <;> exact ⟨rfl, rfl, rfl, rfl⟩
  obtain ⟨wire, hpeer, hrequests, hcancels⟩ := registered (t.addPeer ip 0) ip heap' stack
    (t.addPeer ip 0).fileManager.pieces.length
  generalize hp : ({ Peer.new ip heap' (t.addPeer ip 0).fileManager.pieces.length with
    wire := wire } : Peer) = p at hpeer
  have hstart : connect t ip heap' stack =
      { swarm := { world := ⟨t.addPeer ip 0, [p]⟩ }, toSeeder := sentMessages wire } := by
    have hwire : p.wire = wire := by rw [← hp]
    rw [connect, World.register, hpeer]
    simp only [List.nil_append, Leech.wire, List.head?_cons, Option.map_some, Option.getD_some,
      hwire]
  have hfm : (connect t ip heap' stack).swarm.fm = t.fileManager := by
    rw [hstart]
    exact hadd.1
  have hpeers : (connect t ip heap' stack).swarm.world.peers = [p] := by rw [hstart]
  have hcall : (connect t ip heap' stack).swarm.call = none := by rw [hstart]
  have hqueue : p.queue = [] := by rw [← hp]; rfl
  obtain ⟨hbusy, hload⟩ := busy_of_none hcall hpeers
  rw [hqueue] at hbusy hload
  have hfresh : ∀ i < m.sha1sums.length, fresh (connect t ip heap' stack).swarm i =
      (!t.fileManager.completedBits.test i && !t.fileManager.pendingBits.test i) := by
    intro i hi
    rw [fresh, hfm, hbusy]
    simp
  have hout : (connect t ip heap' stack).outstanding = [] := by
    rw [hstart, outstanding, hrequests]
    rfl
  have huntold : ¬(connect t ip heap' stack).told := by
    rw [hstart]
    exact fun h => Bool.false_ne_true h.1
  refine ⟨⟨p, ⟨?_, hpeers, ?_, ?_, ?_, ?_, ?_, ?_, ⟨h.few, fun i hi => ?_⟩, ?_, ?_, ?_,
    fun h => absurd h huntold, ?_⟩, .idle ⟨hcall, ?_, hqueue, hout⟩ fun h => absurd h huntold⟩, ?_⟩
  · rw [hfm]
    exact h.saving
  · rw [← hp]
    rfl
  · rw [← hp]
    rfl
  · rw [← hp]
    rfl
  · rw [hstart]
    exact hadd.2.2.1.trans h.wasted
  · rw [hstart]
    exact hadd.2.2.2.trans h.misses
  · rw [hfm, hstart]
    change (t.addPeer ip 0).downloadedBytes + _ = _
    rw [hadd.2.1]
    exact h.downloaded
  · rw [hfm]
    have hrank := h.ranked i hi
    exact ⟨hrank.trans (WithBot.coe_le_coe.2 (by omega)), fun _ => hrank⟩
  · rw [hstart]
    exact Nat.zero_le _
  · rw [hstart]
    exact Nat.zero_le _
  · rw [← hp, hstart]
    rfl
  · rw [hstart]
    exact hcancels
  · rw [hfm]
    exact h.calls
  · have htraffic : (connect t ip heap' stack).traffic =
        (connect t ip heap' stack).toSeeder.length + 4 := by
      rw [hstart, traffic, hrequests]
      rfl
    rw [remaining, Runs.rest_congr _ hfresh, htraffic, hload, hfm]
    simp only [List.map_nil, List.sum_nil]
    omega

omit hd in
theorem waiting_of_opened (hopen : Opened m orig heap fm) (ip : UInt32) :
    Waiting m orig heap ip
      (Runs.rest (pieceLen m) (fun i => !fm.completedBits.test i) m.sha1sums.length) 0
      { fileManager := fm } where
  saving := hopen.saving ip.toNat
  calls := hopen.calls
  wasted := rfl
  misses := rfl
  downloaded := Nat.zero_add _
  few := by decide
  ranked i hi := by
    rw [hopen.chosen i hi]
    exact bot_le

omit hd in
theorem inv_start (hopen : Opened m orig heap fm) (ip : UInt32) (heap' : ℤ → UInt8)
    (stack : ℕ → UInt8) :
    Inv m orig heap ip
        (Runs.rest (pieceLen m) (fun i => !fm.completedBits.test i) m.sha1sums.length) 0
        (start fm ip heap' stack) ∧
      (start fm ip heap' stack).remaining m = steps m fm ip heap' stack := by
  obtain ⟨hinv, hremaining⟩ := inv_connect (waiting_of_opened hopen ip) heap' stack
  have hrest : Runs.rest (cost m) (fun i => !fm.completedBits.test i && !fm.pendingBits.test i)
      m.sha1sums.length = Runs.rest (cost m) (fun i => !fm.completedBits.test i)
      m.sha1sums.length :=
    Runs.rest_congr _ fun i hi => by rw [hopen.pending i hi, Bool.not_false, Bool.and_true]
  rw [hrest, hopen.writes, List.length_nil, Nat.add_zero] at hremaining
  exact ⟨hinv, hremaining⟩

/-- What holds when nothing is left: all pieces are completed, every file is the original, and
downloaded was what was to be. -/
theorem stored_of_remaining (h : Inv m orig heap ip D K l) (hzero : l.remaining m = 0) :
    (∀ i < m.sha1sums.length, l.swarm.fm.completedBits.test i = true) ∧
      l.swarm.fm.files.map TorrentFile.info = m.files ∧
      (∀ f ∈ l.swarm.fm.files, f.fp.content = region orig f.info.begin f.info.length) ∧
      l.swarm.world.torrent.downloadedBytes = D := by
  have hall := test_of_remaining h hzero
  obtain ⟨p, hbase, -⟩ := h
  have hnone : Runs.rest (pieceLen m) (fun i => !l.swarm.fm.completedBits.test i)
      m.sha1sums.length = 0 := by
    refine (Runs.rest_eq_zero fun i hi =>
      (hd.consistent.tiled.pieceLen_pos hi).ne').2 fun i hi => ?_
    rw [hall i hi]
    rfl
  have hdownloaded := hbase.downloaded
  rw [hnone] at hdownloaded
  exact ⟨hall, hbase.saving.stored.info,
    fun f hf => hbase.saving.stored.content_eq hd.consistent hd.length_eq hall hf, hdownloaded⟩

/-- Every run comes to the end, where nothing is left. -/
theorem run_spec (hopen : Opened m orig heap fm) (ip : UInt32) (heap' : ℤ → UInt8)
    (stack : ℕ → UInt8) {as : List LeechAction}
    (hr : Runs.run (step sha1 human m orig bits) (start fm ip heap' stack) as = some l) :
    Inv m orig heap ip
        (Runs.rest (pieceLen m) (fun i => !fm.completedBits.test i) m.sha1sums.length) 0 l ∧
      as.length ≤ steps m fm ip heap' stack ∧
      (as.length < steps m fm ip heap' stack →
        ∃ a, (l.step sha1 human m orig bits a).isSome = true) ∧
      (as.length = steps m fm ip heap' stack → l.remaining m = 0) := by
  obtain ⟨hstart, hsteps⟩ := inv_start hopen ip heap' stack
  obtain ⟨hle, hmore, hend⟩ := Runs.step_or_end (inv_step hd) (exists_step hd) hstart hr
  rw [hsteps] at hle hmore hend
  exact ⟨(Runs.length_add_measure (inv_step hd) hstart hr).1, hle, hmore, fun heq => (hend heq).1⟩

/-- **A download from a seeder comes to its end.** From files that hold what they hold, in whatever
order the messages arrive, our handler and the worker are scheduled and the seeder answers: a run
has at most `steps` steps, and if it has fewer it can go on. With the last step all pieces are
completed, every file is the original, and each byte that was missing was downloaded once. The
connection is never given up, and nothing is refused or wasted. -/
theorem leech_completes (hopen : Opened m orig heap fm) (ip : UInt32) (heap' : ℤ → UInt8)
    (stack : ℕ → UInt8) {as : List LeechAction}
    (hr : Runs.run (step sha1 human m orig bits) (start fm ip heap' stack) as = some l) :
    as.length ≤ steps m fm ip heap' stack ∧
    (as.length < steps m fm ip heap' stack →
      ∃ a, (l.step sha1 human m orig bits a).isSome = true) ∧
    (as.length = steps m fm ip heap' stack →
      (∀ i < m.sha1sums.length, l.swarm.fm.completedBits.test i = true) ∧
      l.swarm.fm.files.map TorrentFile.info = m.files ∧
      (∀ f ∈ l.swarm.fm.files, f.fp.content = region orig f.info.begin f.info.length) ∧
      l.swarm.world.torrent.downloadedBytes =
        Runs.rest (pieceLen m) (fun i => !fm.completedBits.test i) m.sha1sums.length) ∧
    (∃ p, l.swarm.world.peers = [p] ∧ p.connected = true ∧ p.errors = []) ∧
    l.swarm.world.torrent.hashMisses = 0 ∧ l.swarm.world.torrent.wastedBytes = 0 := by
  obtain ⟨hinv, hle, hmore, hend⟩ := run_spec hd hopen ip heap' stack hr
  obtain ⟨p, hbase, -⟩ := id hinv
  exact ⟨hle, hmore, fun heq => stored_of_remaining hd hinv (hend heq),
    ⟨p, hbase.peers, hbase.connected, hbase.errors⟩, hbase.misses, hbase.wasted⟩

end Runs

theorem downloadable_threePieces :
    Downloadable threePiecesSha1 threePieces [1, 2, 3, 4, 5] [0xE0] fun _ => 0 where
  consistent := consistent_threePieces
  pieceLength_lt := by decide
  length_eq := rfl
  passes := by
    intro i hi
    match i, hi with
    | 0, _ => exact ⟨fun _ => 1, rfl, by decide⟩
    | 1, _ => exact ⟨fun _ => 3, rfl, by decide⟩
    | 2, _ => exact ⟨fun _ => 5, rfl, by decide⟩
  announces := by
    intro i hi
    match i, hi with
    | 0, _ => decide
    | 1, _ => decide
    | 2, _ => decide
  even := Or.inr rfl

/-- A file manager for three pieces, over two files that hold nothing. -/
def threePiecesOpened : FileManager :=
  register (fun _ => 0) (fun _ => 0) threePieces threePiecesCreated

/-- A download of the three pieces. Two of them wait for the worker in the end. -/
def threePiecesDownload : List LeechAction :=
  [.greet, .deliver, .unchoke, .deliver, .process, .process, .answer ⟨0, 0, 2⟩, .deliver, .check,
    .push, .select, .process, .process, .answer ⟨1, 0, 2⟩, .deliver, .check, .push, .select,
    .process, .work, .process, .answer ⟨2, 0, 1⟩, .deliver, .check, .push, .select, .work, .work]

theorem leech_completes_threePieces : ∃ l,
    Runs.run (step threePiecesSha1 toString threePieces [1, 2, 3, 4, 5] [0xE0])
      (start threePiecesOpened 1 (fun _ => 0) fun _ => 0) threePiecesDownload = some l ∧
    threePiecesDownload.length = steps threePieces threePiecesOpened 1 (fun _ => 0) (fun _ => 0) ∧
    (∀ i < threePieces.sha1sums.length, l.swarm.fm.completedBits.test i = true) ∧
    l.swarm.fm.files.map TorrentFile.info = threePieces.files ∧
    (∀ f ∈ l.swarm.fm.files,
      f.fp.content = region [1, 2, 3, 4, 5] f.info.begin f.info.length) ∧
    l.swarm.world.torrent.downloadedBytes =
      Runs.rest (pieceLen threePieces) (fun i => !threePiecesOpened.completedBits.test i)
        threePieces.sha1sums.length := by
  have hsome : (Runs.run (step threePiecesSha1 toString threePieces [1, 2, 3, 4, 5] [0xE0])
      (start threePiecesOpened 1 (fun _ => 0) fun _ => 0) threePiecesDownload).isSome = true := by
    decide +kernel
  obtain ⟨l, hl⟩ := Option.isSome_iff_exists.1 hsome
  have hlength : threePiecesDownload.length =
      steps threePieces threePiecesOpened 1 (fun _ => 0) (fun _ => 0) := by decide +kernel
  have hopen : Opened threePieces [1, 2, 3, 4, 5] (fun _ => 0) threePiecesOpened :=
    opened_register consistent_threePieces (fun _ => 0) (fun _ => 0) rfl
      (by simp [threePiecesCreated])
  exact ⟨l, hl, hlength, (leech_completes downloadable_threePieces hopen 1 (fun _ => 0)
    (fun _ => 0) hl).2.2.1 hlength⟩

end Leech

end CTorrent
