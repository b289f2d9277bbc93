import WgAndroid.Manager.TunnelManager

/-!
# Loading the tunnels

What the manager, the store and the backend have to do with each other when no call is in flight,
and that loading the stored tunnels at the start of the app brings this about.

Results:
1. `load_settled`: loading never throws, and leaves the manager settled.
-/

namespace WgAndroid.TunnelManager

/-- The manager at rest: the list holds one tunnel for each stored name, shown states are those of
the backend, and running and last used tunnels are in the list. -/
structure Settled (w : World) : Prop where
  nodup : w.tunnelMap.Nodup
  constructed : ∀ t ∈ w.tunnelMap, t < w.next
  stored : w.store.keys.Perm w.names
  state_eq : ∀ t, t < w.next → w.state t = .of (w.running t)
  running_mem : ∀ t, w.running t = true → t ∈ w.tunnelMap
  lastUsed_mem : ∀ t ∈ w.lastUsedTunnel, t ∈ w.tunnelMap

/-- The state of the loop of `onTunnelsLoaded` after the names `pre`. -/
structure LoadedUpTo (store : ConfigStore) (running pre : List JString) (w : World) : Prop where
  next_eq : w.next = pre.length
  list : w.tunnelMap.Perm (List.range pre.length)
  name_eq : ∀ t, t < pre.length → pre[t]? = some (w.name t)
  state_eq : ∀ t, t < pre.length → w.state t = .of (running.contains (w.name t))
  store_eq : w.store = store
  running_eq : w.running = (boot store running).running

variable {store : ConfigStore} {running pre rest : List JString} {w w' : World} {name : JString}

theorem loadedUpTo_boot : LoadedUpTo store running [] (boot store running) where
  next_eq := rfl
  list := .refl _
  name_eq t ht := by cases ht
  state_eq t ht := by cases ht
  store_eq := rfl
  running_eq := rfl

/-- The names of the loaded tunnels, in the order in which they were made. -/
theorem LoadedUpTo.map_name (h : LoadedUpTo store running pre w) :
    (List.range pre.length).map w.name = pre := by
  refine List.ext_getElem? fun t => ?_
  rw [List.getElem?_map]
  rcases Nat.lt_or_ge t pre.length with ht | ht
  · rw [List.getElem?_range ht, h.name_eq t ht]
    rfl
  · rw [List.getElem?_eq_none ht, List.getElem?_eq_none (by rwa [List.length_range])]
    rfl

theorem LoadedUpTo.names_perm (h : LoadedUpTo store running pre w) : w.names.Perm pre :=
  (h.list.map w.name).trans (.of_eq h.map_name)

/-- One round of the loop: the name is new, so the list takes its tunnel. -/
theorem LoadedUpTo.loadTunnel (cmp : Comparator JString) (h : LoadedUpTo store running pre w)
    (hname : name ∉ pre) :
    ∃ w', loadTunnel cmp running w name = .ok w' ∧ LoadedUpTo store running (pre ++ [name]) w' := by
  have hlist : ∀ t ∈ w.tunnelMap, t < pre.length := fun t ht =>
    List.mem_range.mp (h.list.mem_iff.mp ht)
  have hnext : w.next ∉ w.tunnelMap := fun hmem => (hlist _ hmem).ne h.next_eq
  obtain ⟨tunnelMap, hadd, hp⟩ := World.addToList_of_new cmp hnext
    (fun hmem => hname (h.names_perm.mem_iff.mp hmem))
  refine ⟨_, congrArg (Except.map Prod.snd) hadd, ?_⟩
  have hlength : (pre ++ [name]).length = pre.length + 1 := by rw [List.length_append]; rfl
  -- the fields of the tunnels made before are as they were
  have hold : ∀ {α : Type} {f : ObservableTunnel → α} {a : α}, ∀ t, t < pre.length →
      Function.update f w.next a t = f t := fun t ht =>
    Function.update_of_ne (by rw [h.next_eq]; exact ht.ne) _ _
  refine ⟨?_, ?_, ?_, ?_, h.store_eq, h.running_eq⟩
  · rw [hlength]
    exact congrArg (· + 1) h.next_eq
  · rw [hlength, List.range_succ, ← h.next_eq]
    exact (hp.trans (h.next_eq ▸ h.list.cons _)).trans (List.perm_append_singleton _ _).symm
  · intro t ht
    show _ = some (Function.update w.name _ _ t)
    rcases Nat.lt_succ_iff_lt_or_eq.mp (hlength ▸ ht) with ht | rfl
    · rw [List.getElem?_append_left ht, h.name_eq t ht, hold t ht]
    · rw [List.getElem?_concat_length, ← h.next_eq, Function.update_self]
  · intro t ht
    show Function.update w.state _ _ t = .of (running.contains (Function.update w.name _ _ t))
    rcases Nat.lt_succ_iff_lt_or_eq.mp (hlength ▸ ht) with ht | rfl
    · rw [hold t ht, hold t ht]
      exact h.state_eq t ht
    · rw [← h.next_eq, Function.update_self, Function.update_self]

theorem LoadedUpTo.foldlM (cmp : Comparator JString) (h : LoadedUpTo store running pre w)
    (hnodup : (pre ++ rest).Nodup) :
    ∃ w', rest.foldlM (TunnelManager.loadTunnel cmp running) w = .ok w' ∧
      LoadedUpTo store running (pre ++ rest) w' := by
  induction rest generalizing pre w with
  | nil => exact ⟨w, rfl, by rwa [List.append_nil]⟩
  | cons name rest ih =>
    have hname : name ∉ pre := fun hmem =>
      List.disjoint_of_nodup_append hnodup hmem List.mem_cons_self
    obtain ⟨w₁, hload, h₁⟩ := h.loadTunnel cmp hname
    obtain ⟨w₂, hfold, h₂⟩ := ih h₁ (by rwa [List.append_assoc])
    refine ⟨w₂, ?_, by rwa [List.append_assoc] at h₂⟩
    rw [List.foldlM_cons, hload]
    exact hfold

theorem LoadedUpTo.running_iff (h : LoadedUpTo store running store.keys w) {t : ObservableTunnel}
    (ht : t < store.keys.length) : w.running t = running.contains (w.name t) := by
  rw [h.running_eq]
  show store.keys[t]?.any running.contains = _
  rw [h.name_eq t ht]
  rfl

theorem LoadedUpTo.settled (h : LoadedUpTo store running store.keys w)
    {lastUsed : Option ObservableTunnel} (hlast : ∀ t ∈ lastUsed, t ∈ w.tunnelMap) :
    Settled { w with lastUsedTunnel := lastUsed } where
  nodup := h.list.symm.nodup List.nodup_range
  constructed t ht := by
    show t < w.next
    rw [h.next_eq]
    exact List.mem_range.mp (h.list.mem_iff.mp ht)
  stored := by
    show w.store.keys.Perm w.names
    rw [h.store_eq]
    exact h.names_perm.symm
  state_eq t ht := by
    have ht' : t < store.keys.length := h.next_eq ▸ ht
    show w.state t = .of (w.running t)
    rw [h.state_eq t ht', h.running_iff ht']
  running_mem t hrun := by
    -- the backend runs only tunnels that were made for a stored name
    have ht : t < store.keys.length := by
      by_contra hge
      have hnone : store.keys[t]? = none := List.getElem?_eq_none (Nat.le_of_not_lt hge)
      have hrun' : (boot store running).running t = true := h.running_eq ▸ hrun
      simp [boot, hnone] at hrun'
    exact h.list.mem_iff.mpr (List.mem_range.mpr ht)
  lastUsed_mem := hlast

/-- Loading goes through all stored names, then looks up the last used one. -/
theorem load_eq (cmp : Comparator JString) (store : ConfigStore) (running : List JString)
    (lastUsedName : Option JString) :
    ∃ w, LoadedUpTo store running store.keys w ∧ load cmp store running lastUsedName =
      .ok { w with lastUsedTunnel := lastUsedName.bind (SortedKeyedList.get? cmp w.name w.tunnelMap) } := by
  have hboot : LoadedUpTo store running [] (boot store running) := loadedUpTo_boot
  have hnodup : ([] ++ store.keys).Nodup := store.keys_nodup
  obtain ⟨w, hfold, h⟩ := hboot.foldlM cmp hnodup
  exact ⟨w, h, by rw [load, onTunnelsLoaded, hfold]; rfl⟩

/-- Loading never throws, and leaves the manager settled. -/
theorem load_settled (cmp : Comparator JString) (store : ConfigStore) (running : List JString)
    (lastUsedName : Option JString) :
    ∃ w, load cmp store running lastUsedName = .ok w ∧ Settled w := by
  obtain ⟨w, h, hload⟩ := load_eq cmp store running lastUsedName
  refine ⟨_, hload, h.settled fun t ht => ?_⟩
  obtain ⟨name, -, hget⟩ := Option.bind_eq_some_iff.mp ht
  exact SortedKeyedList.get?_mem hget

theorem settled_of_load {cmp : Comparator JString} {lastUsedName : Option JString}
    (h : load cmp store running lastUsedName = .ok w) : Settled w := by
  obtain ⟨w', hload, hsettled⟩ := load_settled cmp store running lastUsedName
  cases h.symm.trans hload
  exact hsettled

/-- What loading takes over from the store and from the backend. -/
theorem boot_of_load {cmp : Comparator JString} {lastUsedName : Option JString}
    (h : load cmp store running lastUsedName = .ok w) :
    w.store = store ∧ w.running = (boot store running).running := by
  obtain ⟨w', hloaded, hload⟩ := load_eq cmp store running lastUsedName
  cases h.symm.trans hload
  exact ⟨hloaded.store_eq, hloaded.running_eq⟩

end WgAndroid.TunnelManager
