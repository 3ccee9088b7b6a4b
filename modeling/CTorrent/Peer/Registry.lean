import CTorrent.Lib.Runs
import CTorrent.Peer.World

/-!
# Which connections are registered

`m_peers` maps an address to an object. Objects are known by a number and keep their address, which
several of them may share. `insert` refuses an object whose address has an entry, and `removePeer`
erases the entry of the address, whichever object it points to.

* `Registry`, `RegistryAction`, `Registry.step`: handshakes, errors, `disconnectPeers`;
* `Keyed`: what the map is at all times;
* `registered_removePeer`: whom an error unregisters;
* `stays_iff`: the runs in which objects stay registered until they fail themselves.
-/

namespace CTorrent

/-- `disconnectPeers`, up to the calls of `disconnect`. -/
def Torrent.disconnectPeers (t : Torrent) : Torrent := { t with peers := [] }

/-- A torrent, and the objects whose connections were closed. -/
structure Registry where
  torrent : Torrent
  closed : List ℕ := []

/-- What happens to an object, or to all. -/
inductive RegistryAction where
  /-- The handshake of a connection that we made is complete. -/
  | addPeer (id : ℕ)
  /-- The handshake of a connection that we accepted is complete. -/
  | handleNewPeer (id : ℕ)
  /-- The connection fails, before or after its handshake. -/
  | handleError (id : ℕ)
  | disconnectPeers
  deriving DecidableEq

namespace Registry

variable (ip : ℕ → UInt32) (r : Registry)

/-- One action; the object `id` has the address `ip id`. -/
def step : RegistryAction → Option Registry
  | .addPeer id => some { r with torrent := r.torrent.addPeer (ip id) id }
  | .handleNewPeer id => some { r with torrent := r.torrent.handleNewPeer (ip id) id }
  | .handleError id => some ⟨r.torrent.removePeer (ip id), r.closed ++ [id]⟩
  | .disconnectPeers =>
      some ⟨r.torrent.disconnectPeers, r.closed ++ r.torrent.peers.map Prod.snd⟩

/-- The object is in `m_peers`. -/
def Registered (id : ℕ) : Prop := id ∈ r.torrent.peers.map Prod.snd

instance (id : ℕ) : Decidable (r.Registered id) := inferInstanceAs (Decidable (id ∈ _))

/-- An object that is in `m_peers` stays there, unless `removePeer` is called for this object or all
are disconnected. -/
def Stays (r : Registry) (a : RegistryAction) (r' : Registry) : Prop :=
  ∀ id, r.Registered id → a ≠ .handleError id → a ≠ .disconnectPeers → r'.Registered id

/-- An object that fails does not find another one under its address. -/
def Owns : RegistryAction → Prop
  | .handleError id => ∀ id', r.torrent.findPeer (ip id) = some id' → id' = id
  | _ => True

end Registry

/-! ### The map -/

/-- The entries have different addresses, and are found under the address of their object. -/
structure Torrent.Keyed (ip : ℕ → UInt32) (t : Torrent) : Prop where
  nodup : (t.peers.map Prod.fst).Nodup
  key : ∀ e ∈ t.peers, e.1 = ip e.2

namespace Torrent

variable {ip : ℕ → UInt32} {t : Torrent} {id id' : ℕ}

theorem Keyed.findPeer_eq_some (h : t.Keyed ip) :
    t.findPeer (ip id) = some id' ↔ (ip id, id') ∈ t.peers := by
  unfold findPeer
  rw [Option.map_eq_some_iff]
  constructor
  · rintro ⟨e, he, rfl⟩
    have hkey : e.1 = ip id := by simpa using List.find?_some he
    rw [← hkey]
    exact List.mem_of_find?_eq_some he
  · intro hmem
    refine ⟨(ip id, id'), ?_, rfl⟩
    obtain ⟨before, behind, heq⟩ := List.append_of_mem hmem
    have hnd := h.nodup
    rw [heq, List.map_append, List.map_cons, List.nodup_middle, List.nodup_cons] at hnd
    rw [List.find?_eq_some_iff_append]
    refine ⟨by simp, before, behind, heq, fun e he => ?_⟩
    simp only [Bool.not_eq_true', decide_eq_false_iff_not]
    intro hkey
    exact hnd.1 (List.mem_append_left _ (List.mem_map.2 ⟨e, he, hkey⟩))

theorem Keyed.insertPeer (h : t.Keyed ip) (id : ℕ) : (t.insertPeer (ip id) id).Keyed ip := by
  unfold Torrent.insertPeer
  split_ifs with hfound
  · exact h
  · refine ⟨?_, ?_⟩
    · have hnew : ip id ∉ t.peers.map Prod.fst := by
        intro hmem
        obtain ⟨e, he, hkey⟩ := List.mem_map.1 hmem
        refine hfound ?_
        have hentry : (ip id, e.2) ∈ t.peers := by
          rw [← hkey]
          exact he
        rw [h.findPeer_eq_some.2 hentry]
        rfl
      rw [List.map_append, List.nodup_append_comm]
      exact List.nodup_cons.2 ⟨hnew, h.nodup⟩
    · intro e he
      rcases List.mem_append.1 he with he | he
      · exact h.key e he
      · rw [List.mem_singleton.1 he]

theorem Keyed.removePeer (h : t.Keyed ip) (id : ℕ) : (t.removePeer (ip id)).Keyed ip where
  nodup := h.nodup.sublist (List.filter_sublist.map Prod.fst)
  key := fun e he => h.key e (List.mem_filter.1 he).1

end Torrent

namespace Registry

variable {ip : ℕ → UInt32} {r r' : Registry} {id : ℕ}

theorem keyed_step (r : Registry) (a : RegistryAction) (r' : Registry) (h : r.torrent.Keyed ip)
    (hs : r.step ip a = some r') : r'.torrent.Keyed ip := by
  cases a with
  | addPeer id =>
    cases hs
    exact Torrent.Keyed.insertPeer (t := { r.torrent with
      blacklisted := r.torrent.blacklisted.erase (ip id) }) ⟨h.nodup, h.key⟩ id
  | handleNewPeer id =>
    cases hs
    exact h.insertPeer id
  | handleError id =>
    cases hs
    exact h.removePeer id
  | disconnectPeers =>
    cases hs
    exact ⟨List.nodup_nil, fun e he => by cases he⟩

/-! ### Who stays -/

theorem registered_insertPeer {t : Torrent} (h : id ∈ t.peers.map Prod.snd) (ip' : UInt32)
    (id' : ℕ) : id ∈ (t.insertPeer ip' id').peers.map Prod.snd := by
  unfold Torrent.insertPeer
  split_ifs
  · exact h
  · rw [List.map_append]
    exact List.mem_append_left _ h

/-- **Whom an error unregisters.** The objects that stay are those with another address. -/
theorem registered_removePeer {t : Torrent} (h : t.Keyed ip) (id' : ℕ) :
    id ∈ (t.removePeer (ip id')).peers.map Prod.snd ↔
      id ∈ t.peers.map Prod.snd ∧ ip id ≠ ip id' := by
  simp only [Torrent.removePeer, List.mem_map, List.mem_filter, decide_eq_true_eq]
  constructor
  · rintro ⟨e, ⟨he, hne⟩, rfl⟩
    exact ⟨⟨e, he, rfl⟩, h.key e he ▸ hne⟩
  · rintro ⟨⟨e, he, rfl⟩, hne⟩
    exact ⟨e, ⟨he, (h.key e he).trans_ne hne⟩, rfl⟩

/-- An action keeps all others registered exactly if it finds no other under its address. -/
theorem owns_iff_stays {a : RegistryAction} (h : r.torrent.Keyed ip) (hs : r.step ip a = some r') :
    r.Owns ip a ↔ r.Stays a r' := by
  cases a with
  | addPeer id =>
    cases hs
    refine iff_of_true trivial fun id' hid' _ _ => ?_
    exact registered_insertPeer (t := { r.torrent with
      blacklisted := r.torrent.blacklisted.erase (ip id) }) hid' _ _
  | handleNewPeer id =>
    cases hs
    exact iff_of_true trivial fun id' hid' _ _ => registered_insertPeer hid' _ _
  | disconnectPeers => exact iff_of_true trivial fun _ _ _ hne => absurd rfl hne
  | handleError id =>
    cases hs
    constructor
    · intro howns id' hid' hne _
      refine (registered_removePeer h id).2 ⟨hid', fun hkey => hne ?_⟩
      obtain ⟨e, he, rfl⟩ := List.mem_map.1 hid'
      have hentry : (ip id, e.2) ∈ r.torrent.peers := by
        rw [← hkey, ← h.key e he]
        exact he
      rw [howns e.2 (h.findPeer_eq_some.2 hentry)]
    · intro hstays id' hfound
      by_contra hne
      have hentry := h.findPeer_eq_some.1 hfound
      have hregistered : r.Registered id' := List.mem_map.2 ⟨_, hentry, rfl⟩
      have hstayed := hstays id' hregistered (by simpa using Ne.symm hne) (by simp)
      exact ((registered_removePeer h id).1 hstayed).2 (h.key _ hentry).symm

/-- What every action keeps registered, a run keeps registered. -/
theorem registered_run {as : List RegistryAction}
    (hstays : Runs.Meets (step ip) (fun r a => ∀ r', r.step ip a = some r' → r.Stays a r') r as)
    (hrun : Runs.run (step ip) r as = some r') (hid : r.Registered id)
    (herror : .handleError id ∉ as) (hall : .disconnectPeers ∉ as) : r'.Registered id := by
  induction as generalizing r with
  | nil =>
    cases hrun
    exact hid
  | cons a as ih =>
    obtain ⟨r₁, hs, hrun⟩ := Runs.run_cons_eq_some.1 hrun
    rw [List.mem_cons, not_or] at herror hall
    refine ih (hstays.2 r₁ hs) hrun ?_ herror.2 hall.2
    exact hstays.1 r₁ hs id hid (Ne.symm herror.1) (Ne.symm hall.1)

/-- A torrent that knows nobody. -/
def start (fm : FileManager) : Registry := ⟨{ fileManager := fm }, []⟩

theorem keyed_start (fm : FileManager) : (start fm).torrent.Keyed ip :=
  ⟨List.nodup_nil, fun e he => by cases he⟩

/-- **Who stays registered.** In a run, the objects in `m_peers` stay there until `removePeer` is
called for them or all are disconnected, exactly if no object ever fails while another one is
registered under its address. Whoever is registered at some point of such a run and neither fails
nor is disconnected is registered at its end. -/
theorem stays_iff (ip : ℕ → UInt32) (fm : FileManager) (as : List RegistryAction) :
    (Runs.Meets (step ip) (fun r a => ∀ r', r.step ip a = some r' → r.Stays a r') (start fm) as ↔
        Runs.Meets (step ip) (Owns ip) (start fm) as) ∧
      (Runs.Meets (step ip) (Owns ip) (start fm) as → ∀ bs cs, as = bs ++ cs →
        ∀ r r' id, Runs.run (step ip) (start fm) bs = some r → Runs.run (step ip) r cs = some r' →
          r.Registered id → .handleError id ∉ cs → .disconnectPeers ∉ cs → r'.Registered id) := by
  have htotal : ∀ (r : Registry) (a : RegistryAction), (r.step ip a).isSome = true := by
    intro r a
    cases a <;> rfl
  have hiff := Runs.meets_congr (C := fun r a => ∀ r', r.step ip a = some r' → r.Stays a r')
    (D := Owns ip) keyed_step (fun r a r' h hs => ?_) (keyed_start fm)
    (Runs.isSome_run htotal (start fm) as)
  · refine ⟨hiff, ?_⟩
    rintro howns bs cs rfl r r' id hbs hcs hid herror hall
    exact registered_run ((hiff.2 howns).suffix hbs) hcs hid herror hall
  · rw [owns_iff_stays h hs]
    constructor
    · exact fun hall => hall r' hs
    · intro hstays r'' hs''
      cases hs.symm.trans hs''
      exact hstays

/-- An object fails before its handshake, and another one that is registered for the same address
is erased. -/
theorem not_stays_sameAddress : ∃ r r',
    Runs.run (step fun _ => 1) (start (onePiece 2).fileManager) [.handleNewPeer 0] = some r ∧
      r.step (fun _ => 1) (.handleError 1) = some r' ∧ ¬r.Stays (.handleError 1) r' := by
  refine ⟨_, _, rfl, rfl, fun h => ?_⟩
  have hid := h 0 (by decide) (by decide) (by decide)
  exact absurd hid (by decide)

end Registry

end CTorrent
