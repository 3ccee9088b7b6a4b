import CTorrent.FileManager.Read
import CTorrent.Peer.Served
import CTorrent.Peer.Upload

/-!
# No block is uploaded within bounds

`process_read` keeps to the block that it has allocated only if every file that it comes to ends
with the block or before it, and a Request is accepted only if its block ends before its piece does.
Whatever the files hold, the two exclude each other. Either the read fails, and the request stays at
the front of the queue with all that come behind it, or it stores past the end of the block, and
whatever is in the block then is sent.

* `readFile_ok`, `readLoop_ok`: what it takes for `process_read` to hand out a block;
* `processRead_accepted`: no accepted request is handed out within the bounds of its block;
* `ReadsFiles`: reads that come back are reads of the files; `Overran`: one has left its block;
* `uploads_overrun`: over a run, all that is uploaded is uploaded by reads that have.
-/

namespace CTorrent

open Splice

namespace FileManager

/-! ### Reads -/

/-- The loop on one file ends well only if it fills the block up to `maxRead`. -/
theorem readFile_ok {readSize maxRead fuel writePos writePos' : ℕ} {fp : FILE} {block out : Bytes}
    (hfuel : maxRead ≤ writePos + fuel) (hpos : writePos ≤ block.length)
    (h : readFile readSize maxRead fuel fp block writePos = .ok (out, writePos')) :
    out.length = block.length ∧ maxRead ≤ writePos' ∧ writePos' ≤ block.length := by
  induction fuel generalizing fp block writePos with
  | zero =>
    cases h
    exact ⟨rfl, hfuel, hpos⟩
  | succ fuel ih =>
    by_cases hmore : writePos < maxRead
    · rw [readFile_succ hmore] at h
      simp only at h
      generalize region fp.content fp.pos (sub64 readSize writePos) = chunk at h
      split_ifs at h with hover hzero
      -- the count, as an `int`, is at most what was read
      have hcount : (Bitset.toInt32 chunk.length).toNat ≤ chunk.length := by
        rw [Bitset.toInt32] at hzero ⊢
        split_ifs at hzero ⊢ <;> omega
      have hlen : (overwrite block writePos chunk).length = block.length :=
        length_overwrite (Nat.not_lt.1 hover)
      have hrec := ih (by omega) (by omega) h
      rwa [hlen] at hrec
    · rw [readFile_done (Nat.not_lt.1 hmore)] at h
      cases h
      exact ⟨rfl, Nat.not_lt.1 hmore, hpos⟩

/-- **What it takes to hand out a block.** All files end with the block or before it. -/
theorem readLoop_ok {files : List TorrentFile} {b T blockBegin size writePos : ℕ}
    {block out : Bytes} (hl : LaidOut (files.map TorrentFile.info) b T) (hT : T < 2 ^ 62)
    (h62 : blockBegin + size < 2 ^ 62) (hpos : writePos ≤ size) (hblock : block.length = size)
    (hb : b ≤ blockBegin + size) (h : readLoop blockBegin size files block writePos = .ok out) :
    T ≤ blockBegin + size := by
  induction files generalizing b block writePos with
  | nil =>
    have hbT : b = T := hl
    exact hbT ▸ hb
  | cons f files ih =>
    obtain ⟨hbegin, hl'⟩ : f.info.begin = b ∧ LaidOut (files.map TorrentFile.info) _ T := hl
    have hle := hl'.le
    have hfile : (blockBegin + writePos) % 2 ^ 64 = blockBegin + writePos :=
      Nat.mod_eq_of_lt (by omega)
    have hend : (f.info.begin + f.info.length) % 2 ^ 64 = b + f.info.length := by
      rw [hbegin, Nat.mod_eq_of_lt (by omega)]
    have hrest : sub64 size writePos = size - writePos := sub64_of_le (by omega) hpos
    rw [readLoop] at h
    simp only [hfile, hend, hrest] at h
    split_ifs at h with hbefore hskip
    · -- the file ends before the bytes that are missing
      exact ih hl' hpos hblock (by omega) h
    · rw [Nat.mod_eq_of_lt (by omega)] at h
      generalize hr : readFile _ _ _ _ block writePos = r at h
      cases r with
      | error e => cases h
      | ok r =>
        obtain ⟨block', writePos'⟩ := r
        obtain ⟨hlen, hmax, hle'⟩ := readFile_ok (by omega) (by omega) hr
        exact ih hl' (by omega) (by omega) (by omega) h

variable {fm fm' : FileManager}

/-- **Accepted requests are not served.** Whatever the files hold, `process_read` hands out no block
for a request that `requestPieceBlock` accepts. -/
theorem processRead_accepted (hc : Consistent fm.metainfo)
    (hf : fm.files.map TorrentFile.info = fm.metainfo.files) {r : ReadRequest}
    (hi : r.index < fm.metainfo.sha1sums.length)
    (hlt : r.begin + r.size < pieceLen fm.metainfo r.index) (junk : ℕ → UInt8) (block : Bytes) :
    fm.processRead junk r ≠ .ok block := by
  have hend := hc.tiled.piece_end_le hi
  have hT := hc.total_lt
  intro h
  rw [processRead, Nat.mod_eq_of_lt (by omega)] at h
  have hle := readLoop_ok (hf ▸ hc.laidOut) hT (by omega) (Nat.zero_le _) (by simp)
    (Nat.zero_le _) h
  omega

end FileManager

/-! ### The queue of reads -/

/-- A request that `requestPieceBlock` has accepted for 32-bit numbers. -/
def Accepted (fm : FileManager) (r : ReadRequest) : Prop :=
  r.index < fm.pieces.length ∧ r.begin < 2 ^ 32 ∧ r.size < 2 ^ 32 ∧
    ∃ length, fm.pieceLength r.index = some length ∧ toInt64 (r.begin + r.size) < length

theorem FileManager.SameLayout.accepted_iff {fm fm' : FileManager}
    (h : FileManager.SameLayout fm fm') {r : ReadRequest} : Accepted fm' r ↔ Accepted fm r := by
  have hlength : fm'.pieceLength r.index = fm.pieceLength r.index := by
    simp only [FileManager.pieceLength, FileManager.lastPieceLength, h.metainfo, h.length]
  rw [Accepted, Accepted, hlength, h.length]

/-- The files stay, and the queue of reads grows by requests that were accepted. -/
structure Queued (fm fm' : FileManager) : Prop where
  layout : FileManager.SameLayout fm fm'
  files : fm'.files.map TorrentFile.info = fm.files.map TorrentFile.info
  reads : ∃ new, fm'.readRequests = fm.readRequests ++ new ∧ ∀ r ∈ new, Accepted fm r

namespace Queued

variable {fm fm' : FileManager}

theorem of_eq (hlayout : FileManager.SameLayout fm fm') (hfiles : fm'.files = fm.files)
    (hreads : fm'.readRequests = fm.readRequests) : Queued fm fm' :=
  ⟨hlayout, by rw [hfiles], [], by rw [hreads, List.append_nil], by simp⟩

theorem refl (fm : FileManager) : Queued fm fm := .of_eq (.refl fm) rfl rfl

theorem trans {fm'' : FileManager} (h : Queued fm fm') (h' : Queued fm' fm'') : Queued fm fm'' := by
  obtain ⟨new, hnew, hall⟩ := h.reads
  obtain ⟨new', hnew', hall'⟩ := h'.reads
  refine ⟨h.layout.trans h'.layout, h'.files.trans h.files, new ++ new', ?_, fun r hr => ?_⟩
  · rw [hnew', hnew, List.append_assoc]
  · rcases List.mem_append.1 hr with hr | hr
    · exact hall r hr
    · exact h.layout.accepted_iff.1 (hall' r hr)

theorem of_requestPieceBlock {index from_ begin size : ℕ} {ok : Bool} (hb : begin < 2 ^ 32)
    (hs : size < 2 ^ 32) (h : fm.requestPieceBlock index from_ begin size = some (ok, fm')) :
    Queued fm fm' := by
  have hlayout := fm.sameLayout_requestPieceBlock h
  have heligible : ok = true → _ := fun hok => FileManager.eligible_of_request (hok ▸ h)
  unfold FileManager.requestPieceBlock at h
  split_ifs at h
  · cases h
    exact .refl fm
  · obtain ⟨b, -, he⟩ := Option.map_eq_some_iff.1 h
    cases b with
    | false =>
      cases he
      exact .refl fm
    | true =>
      cases he
      obtain ⟨hi, length, hl, hlt⟩ := heligible rfl
      refine ⟨hlayout, rfl, _, rfl, fun r hr => ?_⟩
      rw [List.mem_singleton.1 hr]
      exact ⟨hi, hb, hs, length, hl, hlt⟩

theorem of_writePieceBlock {sha1 : Bytes → Sha1sum} {index from_ : ℕ} {data : Bytes} {ok : Bool}
    (h : fm.writePieceBlock sha1 index from_ data = some (ok, fm')) : Queued fm fm' := by
  have hlayout := fm.sameLayout_writePieceBlock sha1 h
  have hframe : fm'.files = fm.files ∧ fm'.readRequests = fm.readRequests := by
    unfold FileManager.writePieceBlock FileManager.check at h
    split_ifs at h with hin hpending
    · cases h
      exact ⟨rfl, rfl⟩
    all_goals
      rw [Option.map_map] at h
      obtain ⟨b, -, he⟩ := Option.map_eq_some_iff.1 h
      cases b <;> cases he <;> exact ⟨rfl, rfl⟩
  exact .of_eq hlayout hframe.1 hframe.2

end Queued

namespace Peer

variable {sha1 : Bytes → Sha1sum} {human : ℕ → String} {s s' : Session} {payload : Bytes} {n : ℕ}

theorem Selected.queued (h : Selected s s') :
    Queued s.torrent.fileManager s'.torrent.fileManager ∧
      s'.torrent.uploadedBytes = s.torrent.uploadedBytes := by
  have hlayout := h.cases.1
  rcases h with rfl | h
  · exact ⟨.refl _, rfl⟩
  · obtain ⟨pieces, -, htorrent, -⟩ := Torrent.requestPiece_cases h
    rw [htorrent] at hlayout ⊢
    exact ⟨.of_eq hlayout rfl rfl, rfl⟩

theorem queued_finishPiece {piece : Piece} (h : finishPiece sha1 s piece = some s') :
    Queued s.torrent.fileManager s'.torrent.fileManager ∧
      s'.torrent.uploadedBytes = s.torrent.uploadedBytes := by
  unfold finishPiece Torrent.handlePieceCompleted at h
  obtain ⟨⟨ok, s₁⟩, h₁, h₂⟩ := Option.bind_eq_some_iff.1 h
  obtain ⟨⟨ok', fm⟩, hw, hok⟩ := Option.map_eq_some_iff.1 h₁
  have hwrite := Queued.of_writePieceBlock hw
  cases ok' with
  | false =>
    cases hok
    cases h₂
    exact ⟨hwrite, rfl⟩
  | true =>
    cases hok
    simp only [Bool.not_true, Bool.false_eq_true, if_false] at h₂
    split_ifs at h₂
    · obtain ⟨hselected, huploaded⟩ := Selected.queued (Or.inr h₂)
      exact ⟨hwrite.trans hselected, huploaded⟩
    · cases h₂
      exact ⟨hwrite, rfl⟩

/-- A message adds at most an accepted request. -/
theorem Outcome.queued (h : Outcome sha1 s payload n s') :
    Queued s.torrent.fileManager s'.torrent.fileManager ∧
      s'.torrent.uploadedBytes = s.torrent.uploadedBytes := by
  have hinfo : (infoOf payload).begin < 2 ^ 32 ∧ (infoOf payload).length < 2 ^ 32 :=
    ⟨UInt32.toNat_lt _, UInt32.toNat_lt _⟩
  cases h with
  | bitfield h hselect =>
    have hqueued := hselect.queued
    exact hqueued
  | refuse h fm hrequest => exact ⟨.of_requestPieceBlock hinfo.1 hinfo.2 hrequest, rfl⟩
  | grant h fm hrequest => exact ⟨.of_requestPieceBlock hinfo.1 hinfo.2 hrequest, rfl⟩
  | finish h hdone hlast hfinish =>
    have hqueued := queued_finishPiece hfinish
    exact hqueued
  | _ => exact ⟨.refl _, rfl⟩

end Peer

/-! ### Runs -/

/-- A read comes back if `process_read` hands the block out, or if it has stored past the end of the
block, which may hold anything then. Otherwise the file manager keeps its metainfo and the layout of
its files. -/
def ReadsFiles (w : World) : Action → Prop
  | .readComplete block => ∀ r ∈ w.torrent.fileManager.readRequests.head?, ∃ junk,
      w.torrent.fileManager.processRead junk r = .ok block ∨
        w.torrent.fileManager.processRead junk r = .error .overrun
  | .fileManager fm => FileManager.SameLayout w.torrent.fileManager fm ∧
      fm.files.map TorrentFile.info = w.torrent.fileManager.files.map TorrentFile.info
  | _ => True

/-- The read that comes back has stored past the end of its block. -/
def Overran (w : World) : Action → Prop
  | .readComplete _ => ∃ r ∈ w.torrent.fileManager.readRequests.head?, ∃ junk,
      w.torrent.fileManager.processRead junk r = .error .overrun
  | _ => False

/-- The blocks that were sent to the peer at a position. -/
def World.sentTo (w : World) (id : ℕ) : List PieceBlockInfo :=
  (w.peers[id]?).elim [] fun p => sentBlocks p.wire

/-- Nothing is uploaded from `w` to `w'`, and no request leaves the queue of reads. -/
structure Silent (w w' : World) : Prop where
  uploaded : w'.torrent.uploadedBytes = w.torrent.uploadedBytes
  sent : ∀ id, w'.sentTo id = w.sentTo id
  reads : w.torrent.fileManager.readRequests <+: w'.torrent.fileManager.readRequests

/-- Only requests that were accepted are in the queue of reads. -/
structure Unserving (m : TorrentMeta) (w : World) : Prop where
  metainfo : w.torrent.fileManager.metainfo = m
  length : w.torrent.fileManager.pieces.length = m.sha1sums.length
  files : w.torrent.fileManager.files.map TorrentFile.info = m.files
  reads : ∀ r ∈ w.torrent.fileManager.readRequests, Accepted w.torrent.fileManager r

theorem Silent.refl (w : World) : Silent w w := ⟨rfl, fun _ => rfl, List.prefix_rfl⟩

theorem Silent.trans {w w' w'' : World} (h : Silent w w') (h' : Silent w' w'') : Silent w w'' :=
  ⟨h'.uploaded.trans h.uploaded, fun id => (h'.sent id).trans (h.sent id), h.reads.trans h'.reads⟩

section Runs

variable {sha1 : Bytes → Sha1sum} {human : ℕ → String} {m : TorrentMeta} {w w' : World}

/-- An action on one peer that sends it no block. -/
theorem World.sentTo_set {id : ℕ} {p q : Peer} (hp : w.peers[id]? = some p)
    (hpeers : w'.peers = w.peers.set id q) (hq : NoBlocks p.wire q.wire) (j : ℕ) :
    w'.sentTo j = w.sentTo j := by
  unfold sentTo
  rw [hpeers]
  by_cases hj : id = j
  · subst hj
    obtain ⟨new, hwire, hnew⟩ := hq
    rw [List.getElem?_set_self (List.getElem?_eq_some_iff.1 hp).1, hp, Option.elim_some,
      Option.elim_some, hwire, sentBlocks_append, hnew, List.append_nil]
  · rw [List.getElem?_set_ne hj]

/-- A new peer is sent no block. -/
theorem World.sentTo_register (t : Torrent) (ip : UInt32) (heap : ℤ → UInt8) (stack : ℕ → UInt8)
    (j : ℕ) : (w.register t ip heap stack).sentTo j = w.sentTo j := by
  have hnew : sentBlocks (t.sendBitfield stack (Peer.new ip heap t.fileManager.pieces.length)).wire
      = [] := by
    rw [Torrent.sendBitfield]
    split_ifs <;> rfl
  unfold sentTo
  change Option.elim (w.peers ++ [_])[j]? _ _ = _
  rcases Nat.lt_trichotomy j w.peers.length with hlt | rfl | hgt
  · rw [List.getElem?_append_left hlt]
  · rw [List.getElem?_concat_length, List.getElem?_eq_none le_rfl, Option.elim_some, hnew]
    rfl
  · rw [List.getElem?_eq_none (by simpa using hgt), List.getElem?_eq_none hgt.le]

/-- A step in which the queue of reads grows and the peers are sent no block. -/
theorem Unserving.queued (h : Unserving m w)
    (hqueued : Queued w.torrent.fileManager w'.torrent.fileManager)
    (huploaded : w'.torrent.uploadedBytes = w.torrent.uploadedBytes)
    (hsent : ∀ id, w'.sentTo id = w.sentTo id) : Unserving m w' ∧ Silent w w' := by
  obtain ⟨new, hnew, hall⟩ := hqueued.reads
  refine ⟨⟨hqueued.layout.metainfo.trans h.metainfo, hqueued.layout.length.trans h.length,
    hqueued.files.trans h.files, fun r hr => ?_⟩, huploaded, hsent, ⟨new, hnew.symm⟩⟩
  rw [hqueued.layout.accepted_iff]
  rw [hnew] at hr
  exact (List.mem_append.1 hr).elim (h.reads r) (hall r)

theorem insertPeer_frame (t : Torrent) (ip : UInt32) (id : ℕ) :
    Queued t.fileManager (t.insertPeer ip id).fileManager ∧
      (t.insertPeer ip id).uploadedBytes = t.uploadedBytes := by
  unfold Torrent.insertPeer
  split_ifs <;> exact ⟨.refl _, rfl⟩

/-- The block at the front of the queue is not handed out within its bounds. -/
theorem Unserving.overran (hc : Consistent m) (h : Unserving m w) {r : ReadRequest}
    (hr : r ∈ w.torrent.fileManager.readRequests.head?) {block : Bytes}
    (hread : ReadsFiles w (.readComplete block)) : Overran w (.readComplete block) := by
  obtain ⟨junk, hjunk⟩ := hread r hr
  refine ⟨r, hr, junk, hjunk.resolve_left ?_⟩
  obtain ⟨hi, hb, hs, length, hl, hlt⟩ := h.reads r (List.mem_of_mem_head? hr)
  rw [h.length] at hi
  rw [hc.pieceLength_eq h.metainfo h.length hi] at hl
  cases hl
  rw [toInt64_of_lt (by omega)] at hlt
  refine FileManager.processRead_accepted ?_ ?_ ?_ ?_ junk block
  · rw [h.metainfo]
    exact hc
  · rw [h.metainfo, h.files]
  · rwa [h.metainfo]
  · rw [h.metainfo]
    exact_mod_cast hlt

/-- A read that comes back takes its request off the queue and leaves the file manager otherwise. -/
theorem readComplete_frame {block : Bytes}
    (hs : w.step sha1 human (.readComplete block) = some w') :
    ∃ r rs, w.torrent.fileManager.readRequests = r :: rs ∧
      w'.torrent.fileManager = { w.torrent.fileManager with readRequests := rs } := by
  simp only [World.step] at hs
  split at hs
  · cases hs
  · rename_i r rs hreads
    split_ifs at hs
    refine ⟨r, rs, hreads, ?_⟩
    unfold World.onPieceReadComplete at hs
    split at hs
    · cases hs
      rfl
    · obtain ⟨p, -, rfl⟩ := Option.map_eq_some_iff.1 hs
      rfl

/-- A request is taken off the queue of reads. -/
theorem Unserving.dequeue (h : Unserving m w) {r : ReadRequest} {rs : List ReadRequest}
    (hreads : w.torrent.fileManager.readRequests = r :: rs)
    (hfm : w'.torrent.fileManager = { w.torrent.fileManager with readRequests := rs }) :
    Unserving m w' where
  metainfo := by
    rw [hfm]
    exact h.metainfo
  length := by
    rw [hfm]
    exact h.length
  files := by
    rw [hfm]
    exact h.files
  reads q hq := by
    rw [hfm] at hq ⊢
    exact h.reads q (hreads ▸ List.mem_cons_of_mem r hq)

/-- A step that is no read. -/
theorem Unserving.silent (h : Unserving m w) {a : Action} (ha : ReadsFiles w a)
    (hread : ∀ block, a ≠ .readComplete block) (hs : w.step sha1 human a = some w') :
    Unserving m w' ∧ Silent w w' := by
  cases a with
  | connect ip heap stack =>
    cases hs
    obtain ⟨hqueued, huploaded⟩ := insertPeer_frame
      { w.torrent with blacklisted := w.torrent.blacklisted.erase ip } ip w.peers.length
    exact h.queued hqueued huploaded (World.sentTo_register _ ip heap stack)
  | accept ip heap stack =>
    cases hs
    obtain ⟨hqueued, huploaded⟩ := insertPeer_frame w.torrent ip w.peers.length
    exact h.queued hqueued huploaded (World.sentTo_register _ ip heap stack)
  | message id type payload =>
    simp only [World.step] at hs
    obtain ⟨p, s, hp, -, hmessage, rfl⟩ := World.atPeer_eq_some hs
    have houtcome := Peer.handleMessage_outcome hmessage
    obtain ⟨hqueued, huploaded⟩ := houtcome.queued
    obtain ⟨new, hwire, hnew⟩ := houtcome.noBlocks
    refine h.queued hqueued huploaded (World.sentTo_set hp rfl
      ⟨.received type payload :: new, ?_, hnew⟩)
    rw [hwire, Peer.receive, List.append_assoc]
    rfl
  | sendChoke id =>
    simp only [World.step] at hs
    obtain ⟨p, s, hp, -, hsend, rfl⟩ := World.atPeer_eq_some hs
    cases hsend
    exact h.queued (.refl _) rfl (World.sentTo_set hp rfl ((NoBlocks.refl _).append rfl))
  | handleError id errmsg =>
    simp only [World.step] at hs
    obtain ⟨p, s, hp, -, herror, rfl⟩ := World.atPeer_eq_some hs
    cases herror
    exact h.queued (.refl _) rfl (World.sentTo_set hp rfl (.refl _))
  | readComplete block => exact absurd rfl (hread block)
  | fileManager fm =>
    cases hs
    obtain ⟨hlayout, hfiles⟩ := ha
    exact h.queued ⟨⟨hlayout.metainfo, hlayout.length⟩, hfiles, [], by simp, by simp⟩ rfl
      fun _ => rfl

/-- **One step.** It is a read that has left its block, or nothing is uploaded. -/
theorem unserving_step (hc : Consistent m) {a : Action} (h : Unserving m w) (ha : ReadsFiles w a)
    (hs : w.step sha1 human a = some w') : Unserving m w' ∧ (Overran w a ∨ Silent w w') := by
  by_cases hread : ∃ block, a = .readComplete block
  · obtain ⟨block, rfl⟩ := hread
    obtain ⟨r, rs, hreads, hfm⟩ := readComplete_frame hs
    have hfront : r ∈ w.torrent.fileManager.readRequests.head? := by
      rw [hreads]
      rfl
    exact ⟨h.dequeue hreads hfm, .inl (h.overran hc hfront ha)⟩
  · exact (h.silent ha (fun block hblock => hread ⟨block, hblock⟩) hs).imp_right .inr

/-- **All uploads leave their blocks.** Over every run of a consistent torrent, whatever its files
hold and whatever arrives, each step either is a read that comes back after it has stored past the
end of its block, or it sends no block to any peer, counts no byte as uploaded and takes no request
off the queue of reads. So nothing is uploaded before the first such read, and nothing between
two of them. -/
theorem uploads_overrun (hc : Consistent m) (heap heap' : ℤ → UInt8) {files : List TorrentFile}
    (hf : files.map TorrentFile.info = m.files) (first last : List Action)
    (hmeets : Runs.Meets (World.step sha1 human) ReadsFiles
      ⟨{ fileManager := FileManager.register heap heap' m files }, []⟩ (first ++ last))
    (hfirst : Runs.run (World.step sha1 human)
      ⟨{ fileManager := FileManager.register heap heap' m files }, []⟩ first = some w)
    (hlast : Runs.run (World.step sha1 human) w last = some w') :
    Runs.Meets (World.step sha1 human)
        (fun v a => ∀ v', v.step sha1 human a = some v' → Overran v a ∨ Silent v v')
        ⟨{ fileManager := FileManager.register heap heap' m files }, []⟩ (first ++ last) ∧
      (Runs.Meets (World.step sha1 human) (fun v a => ¬ Overran v a) w last → Silent w w') := by
  have hstart : Unserving m ⟨{ fileManager := FileManager.register heap heap' m files }, []⟩ := by
    refine ⟨rfl, List.length_map _, hf, fun r hr => ?_⟩
    cases hr
  have hall : Runs.Meets (World.step sha1 human)
      (fun v a => ∀ v', v.step sha1 human a = some v' → Overran v a ∨ Silent v v')
      ⟨{ fileManager := FileManager.register heap heap' m files }, []⟩ (first ++ last) :=
    Runs.Meets.of_inv (fun v a v' h ha hs => (unserving_step hc h ha hs).1)
      (fun v a h ha v' hs => (unserving_step hc h ha hs).2) hstart hmeets
  refine ⟨hall, fun hbounds => ?_⟩
  exact Runs.inv_run (I := Silent w)
    (fun v a v' h ha hs => h.trans ((ha.1 v' hs).resolve_left ha.2)) (.refl w)
    ((hall.suffix hfirst).and hbounds) hlast

end Runs

/-- We have the piece, and a peer requests its first byte. -/
def twoBytesRequested : List Action :=
  [.fileManager FileManager.twoBytesState, .accept 1 (fun _ => 0) (fun _ => 0), .message 0 2 [],
    .message 0 6 (Message.request 0 0 1).payload]

/-- The file of the torrent of two bytes. -/
def twoBytesDisk : List TorrentFile := [⟨⟨[5, 6], 0⟩, ⟨[97], 0, 0, 2⟩⟩]

/-- The torrent of two bytes before it is scanned. -/
def twoBytesOpened : World where
  torrent := { fileManager :=
    FileManager.register (fun _ => 0) (fun _ => 0) FileManager.twoBytes twoBytesDisk }
  peers := []

/-- The read stores both bytes of the file in the block for one, and then the block is sent. -/
theorem uploads_overrun_twoBytes : ∃ w w',
    Runs.run (World.step (fun _ _ => 0) toString) twoBytesOpened twoBytesRequested = some w ∧
      Runs.run (World.step (fun _ _ => 0) toString) w [.readComplete [5]] = some w' ∧
      w'.torrent.uploadedBytes = 1 ∧
      Runs.Meets (World.step (fun _ _ => 0) toString)
        (fun v a => ∀ v', v.step (fun _ _ => 0) toString a = some v' → Overran v a ∨ Silent v v')
        twoBytesOpened (twoBytesRequested ++ [.readComplete [5]]) := by
  have hrun : (Runs.run (World.step (fun _ _ => 0) toString) twoBytesOpened
      twoBytesRequested).map (fun w => (w.torrent.fileManager.readRequests.map
        (w.torrent.fileManager.processRead fun _ => 0),
        (Runs.run (World.step (fun _ _ => 0) toString) w [.readComplete [5]]).map
          fun w' => w'.torrent.uploadedBytes)) = some ([.error .overrun], some 1) := by
    decide +kernel
  obtain ⟨w, hw, heq⟩ := Option.map_eq_some_iff.1 hrun
  obtain ⟨hread, hlast⟩ := Prod.mk.inj heq
  obtain ⟨w', hw', hone⟩ := Option.map_eq_some_iff.1 hlast
  have hmeets : Runs.Meets (World.step (fun _ _ => 0) toString) ReadsFiles twoBytesOpened
      (twoBytesRequested ++ [.readComplete [5]]) := by
    refine .append ?_ fun v hv => ⟨fun r hr => ⟨fun _ => 0, Or.inr ?_⟩, fun _ _ => trivial⟩
    · exact ⟨⟨⟨rfl, rfl⟩, rfl⟩, fun _ _ => ⟨trivial, fun _ _ => ⟨trivial, fun _ _ =>
        ⟨trivial, fun _ _ => trivial⟩⟩⟩⟩
    · cases hw.symm.trans hv
      have hmem := List.mem_map_of_mem (f := w.torrent.fileManager.processRead fun _ => 0)
        (List.mem_of_mem_head? hr)
      rw [hread] at hmem
      exact List.mem_singleton.1 hmem
  exact ⟨w, w', hw, hw', hone, (uploads_overrun FileManager.consistent_twoBytes _ _ rfl
    twoBytesRequested _ hmeets hw hw').1⟩

end CTorrent
