import WgAndroid.Manager.Loading
import WgAndroid.Manager.Steps
import WgAndroid.Manager.TunnelComparator

/-!
# The tunnel list and the config store

While a call works on a tunnel, the tunnel is out of the list, so the list alone does not agree
with the store. What every step keeps is ownership: each constructed tunnel is in one place at most,
the list or one call, and the stored names are exactly the names of the tunnels in these places
together with the names that calls have stored and not yet given to a tunnel.

Results:
1. `owned_invariant`: issuing calls on listed tunnels and resuming calls keep ownership.
2. `tunnelMap_agrees_with_store`: when all calls have finished, list and store hold the same names.
3. `tunnelMap_disagrees_after_two_deletes`: not so when a tunnel is deleted twice at the same time.
-/

namespace WgAndroid.TunnelManager

open Interleaving

/-! ## Ownership -/

/-- The tunnel that a suspended call has taken out of the list. -/
def Coroutine.held : Coroutine → List ObservableTunnel
  | .deleteDown r | .deleteStore r | .deleteRestart r | .deletePutBack r => [r.tunnel]
  | .renameDown r _ | .renameStore r _ | .renameChange r _ | .renameRestart r _ | .renameQuery r
  | .renameQueried r _ | .renameFinish r _ => [r.tunnel]
  | _ => []

/-- The stored name that a suspended call answers for. Between storing a name and giving it to the
tunnel it is not the name of a tunnel. -/
def Coroutine.owns (nameOf : ObservableTunnel → JString) : Coroutine → List JString
  | .createAdd name _ => [name]
  | .renameChange _ name => [name]
  | c => c.held.map nameOf

/-- All the places that a tunnel can be in. -/
def places (w : World) (pool : List Coroutine) : List ObservableTunnel :=
  w.tunnelMap ++ pool.flatMap Coroutine.held

/-- All the names that the list and the calls answer for. -/
def ownedNames (w : World) (pool : List Coroutine) : List JString :=
  w.names ++ pool.flatMap (Coroutine.owns w.name)

structure Owned (w : World) (pool : List Coroutine) : Prop where
  nodup : (places w pool).Nodup
  constructed : ∀ t ∈ places w pool, t < w.next
  ledger : w.store.keys.Perm (ownedNames w pool)

/-- A suspended call that holds the tunnel and answers for the name that it carries. -/
structure Coroutine.Keeps (c : Coroutine) (t : ObservableTunnel) : Prop where
  held : c.held = [t]
  owns : ∀ nameOf, c.owns nameOf = [nameOf t]

variable {cmp : Comparator JString} {w w' : World} {c c' : Coroutine} {ts ts' : List Coroutine}
  {t : ObservableTunnel}

theorem Owned.perm (h : Owned w ts) (hp : ts.Perm ts') : Owned w ts' := by
  have hplaces : (places w ts).Perm (places w ts') := (hp.flatMap_right _).append_left _
  have hnames : (ownedNames w ts).Perm (ownedNames w ts') := (hp.flatMap_right _).append_left _
  exact ⟨hplaces.nodup h.nodup, fun t ht => h.constructed t (hplaces.mem_iff.mpr ht),
    h.ledger.trans hnames⟩

/-- A step that leaves list, store and names alone, and the call with what it had. -/
theorem Owned.frame {ps : List Coroutine} (h : Owned w (c :: ts))
    (htunnelMap : w'.tunnelMap = w.tunnelMap) (hname : w'.name = w.name) (hnext : w'.next = w.next)
    (hstore : w'.store = w.store) (hheld : ps.flatMap Coroutine.held = c.held)
    (howns : ps.flatMap (Coroutine.owns w.name) = c.owns w.name) : Owned w' (ps ++ ts) := by
  have hplaces : places w' (ps ++ ts) = places w (c :: ts) := by
    rw [places, places, htunnelMap, List.flatMap_append, hheld, List.flatMap_cons]
  have hnames : ownedNames w' (ps ++ ts) = ownedNames w (c :: ts) := by
    rw [ownedNames, ownedNames, World.names, World.names, htunnelMap, hname, List.flatMap_append,
      howns, List.flatMap_cons]
  exact ⟨hplaces ▸ h.nodup, by rw [hplaces, hnext]; exact h.constructed,
    by rw [hstore, hnames]; exact h.ledger⟩

theorem Owned.nodup_names (h : Owned w ts) : (ownedNames w ts).Nodup :=
  h.ledger.nodup w.store.keys_nodup

theorem Owned.next_not_mem (h : Owned w ts) : w.next ∉ places w ts := fun hmem =>
  lt_irrefl _ (h.constructed _ hmem)

/-! ## Taking a tunnel out and putting it back -/

/-- The tunnel goes from the list to the call, and its name with it. -/
theorem Owned.takeOut (h : Owned w ts) (ht : t ∈ w.tunnelMap) (hc : c.Keeps t) :
    Owned (takeOut w t).2 (c :: ts) := by
  have herase : w.tunnelMap.Perm (t :: w.tunnelMap.erase t) := List.perm_cons_erase ht
  have hplaces : (places (TunnelManager.takeOut w t).2 (c :: ts)).Perm (places w ts) := by
    rw [places, List.flatMap_cons, hc.held]
    exact List.perm_middle.trans (herase.symm.append_right _)
  have hnames : (ownedNames (TunnelManager.takeOut w t).2 (c :: ts)).Perm (ownedNames w ts) := by
    rw [ownedNames, List.flatMap_cons, hc.owns]
    exact List.perm_middle.trans ((herase.map w.name).symm.append_right _)
  exact ⟨hplaces.symm.nodup h.nodup, fun u hu => h.constructed u (hplaces.mem_iff.mp hu),
    h.ledger.trans hnames.symm⟩

/-- The list has no tunnel of the name, so it takes the tunnel back. -/
theorem Owned.add (cmp : Comparator JString) (h : Owned w (c :: ts)) (hc : c.Keeps t) :
    ∃ tunnelMap, SortedKeyedList.add cmp w.name w.tunnelMap t = .ok (true, tunnelMap) ∧
      tunnelMap.Perm (t :: w.tunnelMap) := by
  refine SortedKeyedList.add_of_new cmp fun u hu heq => ?_
  have hnodup := h.nodup_names
  rw [ownedNames, List.flatMap_cons, hc.owns] at hnodup
  exact List.disjoint_of_nodup_append hnodup (List.mem_map_of_mem hu) (heq ▸ List.mem_cons_self)

theorem Owned.putBack_eq {r : Removed} (h : Owned w (c :: ts)) (hc : c.Keeps r.tunnel)
    (cmp : Comparator JString) (result : Result) :
    ∃ tunnelMap, (putBack cmp w r result).1 =
        { w with
          tunnelMap := tunnelMap
          lastUsedTunnel := if r.wasLastUsed then some r.tunnel else w.lastUsedTunnel } ∧
      tunnelMap.Perm (r.tunnel :: w.tunnelMap) := by
  obtain ⟨tunnelMap, hadd, hp⟩ := h.add cmp hc
  exact ⟨tunnelMap, by rw [TunnelManager.putBack, hadd], hp⟩

theorem Owned.putBack {r : Removed} {result : Result} (h : Owned w (c :: ts)) (hc : c.Keeps r.tunnel) :
    Owned (putBack cmp w r result).1 ts := by
  obtain ⟨tunnelMap, heq, hp⟩ := h.putBack_eq hc cmp result
  have hplaces : (tunnelMap ++ ts.flatMap Coroutine.held).Perm (places w (c :: ts)) := by
    rw [places, List.flatMap_cons, hc.held]
    exact (hp.append_right _).trans List.perm_middle.symm
  have hnames : (tunnelMap.map w.name ++ ts.flatMap (Coroutine.owns w.name)).Perm
      (ownedNames w (c :: ts)) := by
    rw [ownedNames, List.flatMap_cons, hc.owns]
    exact ((hp.map w.name).append_right _).trans List.perm_middle.symm
  rw [heq]
  exact ⟨hplaces.symm.nodup h.nodup, fun u hu => h.constructed u (hplaces.mem_iff.mp hu),
    h.ledger.trans hnames.symm⟩

/-! ## Names -/

theorem owns_congr {f g : ObservableTunnel → JString} (h : ∀ u ∈ c.held, f u = g u) :
    c.owns f = c.owns g := by
  cases c <;> first
    | rfl
    | exact congrArg (fun name => [name]) (h _ List.mem_cons_self)

/-- Names of tunnels that are in no place do not count. -/
theorem ownedNames_congr (htunnelMap : w'.tunnelMap = w.tunnelMap)
    (hname : ∀ u ∈ places w ts, w'.name u = w.name u) : ownedNames w' ts = ownedNames w ts := by
  have hlist : w'.names = w.names := by
    rw [World.names, World.names, htunnelMap]
    exact List.map_congr_left fun u hu => hname u (List.mem_append_left _ hu)
  have hcalls : ts.flatMap (Coroutine.owns w'.name) = ts.flatMap (Coroutine.owns w.name) := by
    refine List.flatMap_congr fun c hc => owns_congr fun u hu => ?_
    exact hname u (List.mem_append_right _ (List.mem_flatMap.mpr ⟨c, hc, hu⟩))
  rw [ownedNames, ownedNames, hlist, hcalls]

/-- A name that is stored is the call's, until the new tunnel carries it. -/
theorem Owned.stored {name : JString} {config : Config} {store : ConfigStore}
    (h : Owned w (.createStore name (some config) :: ts))
    (hstore : w.store.create name config = some store) :
    Owned { w with store := store } (.createAdd name config :: ts) := by
  refine ⟨h.nodup, h.constructed, ?_⟩
  have hledger : (name :: w.store.keys).Perm (name :: ownedNames w ts) := h.ledger.cons _
  rw [← ConfigStore.keys_create hstore] at hledger
  exact hledger.trans List.perm_middle.symm

/-- The new tunnel carries the name that the call stored. -/
theorem Owned.created {name : JString} {config : Config} (cmp : Comparator JString)
    (h : Owned w (.createAdd name config :: ts)) :
    ∃ tunnelMap, w.addToList cmp name (some config) .down =
        .ok (w.next, { w.construct name (some config) .down with tunnelMap := tunnelMap }) ∧
      tunnelMap.Perm (w.next :: w.tunnelMap) ∧
      Owned { w.construct name (some config) .down with tunnelMap := tunnelMap } ts := by
  have hnext : w.next ∉ places w ts := h.next_not_mem
  have hfresh : name ∉ w.names := fun hmem =>
    List.disjoint_of_nodup_append h.nodup_names hmem List.mem_cons_self
  obtain ⟨tunnelMap, hadd, hp⟩ := World.addToList_of_new cmp
    (fun hmem => hnext (List.mem_append_left _ hmem)) hfresh
  refine ⟨tunnelMap, hadd, hp, ?_, ?_, ?_⟩
  · have hnodup : (w.next :: places w ts).Nodup := List.nodup_cons.mpr ⟨hnext, h.nodup⟩
    exact (hp.append_right _).symm.nodup hnodup
  · intro u hu
    rcases List.mem_cons.mp ((hp.append_right _).mem_iff.mp hu) with rfl | hu
    · exact Nat.lt_succ_self _
    · exact Nat.lt_succ_of_lt (h.constructed u hu)
  · -- the names of the tunnels in their places are those of before
    have hrest : ownedNames (w.onNameChanged w.next name) ts = ownedNames w ts :=
      ownedNames_congr rfl fun u hu => Function.update_of_ne (ne_of_mem_of_not_mem hu hnext) _ _
    have hnames : (ownedNames { w.construct name (some config) .down with tunnelMap := tunnelMap } ts).Perm
        (name :: ownedNames w ts) := by
      refine ((hp.map _).append_right _).trans ?_
      rw [← hrest]
      exact .of_eq (congrArg (· :: _) (Function.update_self ..))
    exact (h.ledger.trans List.perm_middle).trans hnames.symm

theorem Owned.deleted {r : Removed} {store : ConfigStore} (h : Owned w (.deleteStore r :: ts))
    (hstore : w.store.delete (w.name r.tunnel) = some store) : Owned { w with store := store } ts := by
  have hsub : (places w ts).Sublist (places w (.deleteStore r :: ts)) :=
    (List.sublist_cons_self _ _).append_left _
  refine ⟨h.nodup.sublist hsub, fun u hu => h.constructed u (hsub.subset hu), ?_⟩
  have hledger := (ConfigStore.keys_delete hstore).symm.trans (h.ledger.trans List.perm_middle)
  exact hledger.cons_inv

theorem Owned.renamed {r : Removed} {name : JString} {store : ConfigStore}
    (h : Owned w (.renameStore r name :: ts))
    (hstore : w.store.rename (w.name r.tunnel) name = some store) :
    Owned { w with store := store } (.renameChange r name :: ts) := by
  obtain ⟨rest, hold, hnew⟩ := ConfigStore.keys_rename hstore
  have hrest : rest.Perm (ownedNames w ts) :=
    (hold.symm.trans (h.ledger.trans List.perm_middle)).cons_inv
  refine ⟨h.nodup, h.constructed, ?_⟩
  show store.keys.Perm _
  rw [hnew]
  exact (hrest.cons _).trans List.perm_middle.symm

/-- The stored name becomes the name of the tunnel. -/
theorem Owned.changed {r : Removed} {name : JString} (h : Owned w (.renameChange r name :: ts))
    (hc : c.Keeps r.tunnel) : Owned (w.onNameChanged r.tunnel name) (c :: ts) := by
  have hplaces : places (w.onNameChanged r.tunnel name) (c :: ts) = places w (.renameChange r name :: ts) := by
    rw [places, places, List.flatMap_cons, hc.held]
    rfl
  have hnodup : (r.tunnel :: places w ts).Nodup := List.perm_middle.nodup h.nodup
  have hnot : r.tunnel ∉ places w ts := (List.nodup_cons.mp hnodup).1
  have hname : ∀ u ∈ places w ts, (w.onNameChanged r.tunnel name).name u = w.name u := fun u hu =>
    Function.update_of_ne (ne_of_mem_of_not_mem hu hnot) _ _
  refine ⟨hplaces ▸ h.nodup, hplaces ▸ h.constructed, ?_⟩
  have hnames : (ownedNames (w.onNameChanged r.tunnel name) (c :: ts)).Perm (name :: ownedNames w ts) := by
    rw [ownedNames, List.flatMap_cons, hc.owns]
    refine List.perm_middle.trans ?_
    have hrest : ownedNames (w.onNameChanged r.tunnel name) ts = ownedNames w ts :=
      ownedNames_congr rfl hname
    rw [← hrest]
    exact .of_eq (congrArg (· :: _) (Function.update_self ..))
  exact (h.ledger.trans List.perm_middle).trans hnames.symm

/-! ## Every step keeps ownership -/

/-- The tunnel that the call is to take out of the list is in the list. A new name that is refused
takes no tunnel out. -/
def Call.OnListed (cmp : Comparator JString) (w : World) : Call → Prop
  | .delete t => t ∈ w.tunnelMap
  | .setTunnelName t name => rejects cmp w name = none → t ∈ w.tunnelMap
  | _ => True

/-- The backend answers when the failure path of `setTunnelName` asks for the tunnel's state. -/
def Coroutine.Answered : Coroutine → Outcome → Prop
  | .renameQuery _, .throws => False
  | _, _ => True

/-- Tunnels are deleted and renamed while they are in the list, and `getState` does not throw. -/
def onListed (cmp : Comparator JString) : Discipline World Call Coroutine Outcome where
  start w _ call := call.OnListed cmp w
  resume _ c o := c.Answered o

theorem Owned.start {call : Call} {ps : List Coroutine} (h : Owned w ts) (hcall : call.OnListed cmp w)
    (hstart : Started cmp w call w' ps) : Owned w' (ps ++ ts) := by
  cases hstart with
  | createRejected | create | renameRejected | state | config =>
    exact ⟨h.nodup, h.constructed, h.ledger⟩
  | deleteUp => exact h.takeOut hcall ⟨rfl, fun _ => rfl⟩
  | delete => exact h.takeOut hcall ⟨rfl, fun _ => rfl⟩
  | renameUp hname => exact h.takeOut (hcall hname) ⟨rfl, fun _ => rfl⟩
  | rename hname => exact h.takeOut (hcall hname) ⟨rfl, fun _ => rfl⟩

theorem Owned.resume {o : Outcome} {ps : List Coroutine} (h : Owned w (c :: ts)) (hc : c.Answered o)
    (hstep : Transition cmp w c o w' ps) : Owned w' (ps ++ ts) := by
  cases hstep with
  | createStored hstore => exact h.stored hstore
  | created hadd =>
    obtain ⟨tunnelMap, hadd', -, howned⟩ := h.created cmp
    cases hadd.symm.trans hadd'
    exact howned
  | createRefused hadd =>
    obtain ⟨tunnelMap, hadd', -⟩ := h.created cmp
    cases hadd.symm.trans hadd'
  | deleted hstore => exact h.deleted hstore
  | renameStored hstore => exact h.renamed hstore
  | renamedUp => exact h.changed ⟨rfl, fun _ => rfl⟩
  | @renamed r name =>
    -- the tunnel is put back with its new name, as after a restart
    have hchanged : Owned (w.onNameChanged r.tunnel name) (.renameFinish r name :: ts) :=
      h.changed ⟨rfl, fun _ => rfl⟩
    exact hchanged.putBack ⟨rfl, fun _ => rfl⟩
  | deletePutBack => exact h.putBack ⟨rfl, fun _ => rfl⟩
  | renameFinished => exact h.putBack ⟨rfl, fun _ => rfl⟩
  | @renameRestored r state =>
    have hshown : Owned (w.onStateChanged r.tunnel state) ([.renameQueried r state] ++ ts) :=
      h.frame rfl rfl rfl rfl rfl rfl
    exact hshown.putBack ⟨rfl, fun _ => rfl⟩
  | renameQueryFailed => exact hc.elim
  | @stateFinished s newState =>
    cases newState with
    | none => exact h.frame rfl rfl rfl rfl rfl rfl
    | some newState => exact h.frame rfl rfl rfl rfl rfl rfl
  | _ => exact h.frame rfl rfl rfl rfl rfl rfl

/-- Issuing calls on listed tunnels and resuming calls keep ownership. -/
theorem owned_invariant (cmp : Comparator JString) : Invariant (system cmp) (onListed cmp) Owned where
  perm hp h := h.perm hp
  start h hcall := h.start hcall (start_started cmp _ _)
  resume h hc hp := h.resume hc (resume_transition hp)

theorem Settled.owned (h : Settled w) : Owned w [] where
  nodup := by rw [places, List.flatMap_nil, List.append_nil]; exact h.nodup
  constructed t ht := h.constructed t (by rwa [places, List.flatMap_nil, List.append_nil] at ht)
  ledger := by rw [ownedNames, List.flatMap_nil, List.append_nil]; exact h.stored

/-- When all calls have finished, list and store hold the same names. -/
theorem tunnelMap_agrees_with_store {store : ConfigStore} {running : List JString}
    {lastUsedName : Option JString} {es : List (Event Call Outcome)} {m : Machine World Coroutine}
    (hload : load cmp store running lastUsedName = .ok w)
    (hobeys : Obeys (system cmp) (onListed cmp) ⟨w, []⟩ es)
    (hrun : run (system cmp) ⟨w, []⟩ es = some m) (hdone : m.pool = []) :
    m.shared.tunnelMap.Nodup ∧ ∀ name, name ∈ m.shared.names ↔ name ∈ m.shared.store.keys := by
  have howned := (owned_invariant cmp).run (settled_of_load hload).owned hobeys hrun
  -- with an empty pool, the list is the only place and the only owner
  rw [hdone] at howned
  obtain ⟨hnodup, -, hledger⟩ := howned
  rw [places, List.flatMap_nil, List.append_nil] at hnodup
  rw [ownedNames, List.flatMap_nil, List.append_nil] at hledger
  exact ⟨hnodup, fun name => hledger.mem_iff.symm⟩

/-! ## Runs on a small store -/

instance (cmp : Comparator JString) (w : World) (ts : List Coroutine) :
    (call : Call) → Decidable ((onListed cmp).start w ts call)
  | .delete t => inferInstanceAs (Decidable (t ∈ w.tunnelMap))
  | .setTunnelName t name =>
    inferInstanceAs (Decidable (rejects cmp w name = none → t ∈ w.tunnelMap))
  | .create .. | .setTunnelState .. | .getTunnelConfig .. => isTrue trivial

instance (cmp : Comparator JString) (w : World) :
    (c : Coroutine) → (o : Outcome) → Decidable ((onListed cmp).resume w c o)
  | .renameQuery _, .throws => isFalse id
  | .renameQuery _, .main | .renameQuery _, .returns _ => isTrue trivial
  | .createStore .., _ | .createAdd .., _ | .deleteDown _, _ | .deleteStore _, _
  | .deleteRestart _, _ | .deletePutBack _, _ | .renameDown .., _ | .renameStore .., _
  | .renameChange .., _ | .renameRestart .., _ | .renameQueried .., _ | .renameFinish .., _
  | .stateConfig _, _ | .stateLoad _, _ | .stateLoaded .., _ | .stateSet .., _ | .stateFinish .., _
  | .configLoad _, _ | .configLoaded .., _ => isTrue trivial

theorem sampleKey_length : (List.replicate 32 (1 : UInt8)).length = 32 := rfl

theorem sample_exclusive : (.empty : LinkedSet JString).elems = [] ∨ (.empty : LinkedSet JString).elems = [] :=
  .inl rfl

/-- An interface with a key and nothing else. -/
def sampleConfig : Config where
  interfaze :=
    { addresses := .empty
      dnsServers := .empty
      dnsSearchDomains := .empty
      excludedApplications := .empty
      includedApplications := .empty
      privateKey := ⟨List.replicate 32 1, sampleKey_length⟩
      listenPort := none
      mtu := none
      listenPort_range := port_range_none
      mtu_range := int_range_none
      exclusive := sample_exclusive }
  peers := []

/-- A store with one tunnel, which gets the reference 0 when it is loaded. -/
def sampleStore : ConfigStore := AList.singleton (text "wg0") sampleConfig

/-- A tunnel is renamed while another one is created. -/
def renameAndCreate : List (Event Call Outcome) :=
  [.start (.create (text "wg1") (some sampleConfig)), .start (.setTunnelName 0 (text "home")),
    .resume 0 (.returns []), .resume 1 (.returns []), .resume 1 .main, .resume 0 .main]

theorem tunnelMap_agrees_after_renameAndCreate :
    ∃ w m, load (TunnelComparator.comparator []) sampleStore [] none = .ok w ∧
      run (system (TunnelComparator.comparator [])) ⟨w, []⟩ renameAndCreate = some m ∧
      m.shared.names = [text "home", text "wg1"] ∧
      m.shared.tunnelMap.Nodup ∧ ∀ name, name ∈ m.shared.names ↔ name ∈ m.shared.store.keys := by
  have hok : (load (TunnelComparator.comparator []) sampleStore [] none).map (fun w =>
      decide (Obeys (system (TunnelComparator.comparator []))
        (onListed (TunnelComparator.comparator [])) ⟨w, []⟩ renameAndCreate) &&
      (run (system (TunnelComparator.comparator [])) ⟨w, []⟩ renameAndCreate).any fun m =>
        decide (m.pool.length = 0 ∧ m.shared.names = [text "home", text "wg1"])) = .ok true := by
    decide +kernel
  obtain ⟨w, hload, hboth⟩ := Checked.map_eq_ok hok
  obtain ⟨hobeys, hany⟩ := Bool.and_eq_true_iff.mp hboth
  obtain ⟨m, hrun, hm⟩ := (Option.any_eq_true _ _).mp hany
  obtain ⟨hpool, hnames⟩ := of_decide_eq_true hm
  exact ⟨w, m, hload, hrun, hnames, tunnelMap_agrees_with_store hload (of_decide_eq_true hobeys) hrun
    (List.eq_nil_of_length_eq_zero hpool)⟩

/-- The tunnel is deleted twice, the second time before the first call is done. -/
def twoDeletes : List (Event Call Outcome) :=
  [.start (.delete 0), .start (.delete 0), .resume 1 (.returns []), .resume 0 .throws,
    .resume 0 .main]

/-- The second call cannot delete the file and puts the tunnel back into the list. -/
theorem tunnelMap_disagrees_after_two_deletes :
    ∃ w m, load (TunnelComparator.comparator []) sampleStore [] none = .ok w ∧
      run (system (TunnelComparator.comparator [])) ⟨w, []⟩ twoDeletes = some m ∧ m.pool = [] ∧
      text "wg0" ∈ m.shared.names ∧ text "wg0" ∉ m.shared.store.keys := by
  have hok : (load (TunnelComparator.comparator []) sampleStore [] none).map (fun w =>
      (run (system (TunnelComparator.comparator [])) ⟨w, []⟩ twoDeletes).any fun m =>
        decide (m.pool.length = 0 ∧ text "wg0" ∈ m.shared.names ∧ text "wg0" ∉ m.shared.store.keys)) =
      .ok true := by decide +kernel
  obtain ⟨w, hload, hany⟩ := Checked.map_eq_ok hok
  obtain ⟨m, hrun, hm⟩ := (Option.any_eq_true _ _).mp hany
  obtain ⟨hpool, hnames, hkeys⟩ := of_decide_eq_true hm
  exact ⟨w, m, hload, hrun, List.eq_nil_of_length_eq_zero hpool, hnames, hkeys⟩

end WgAndroid.TunnelManager
