import WgAndroid.Manager.SavedState

/-!
# Calls whose operations fail halfway

`setTunnelState` on a backend whose `setState` may throw when the tunnel has already changed, and
`setTunnelConfig`, which updates three copies of the config one after the other.

Results:
1. `complete_setTunnelState`: on a backend that does all or nothing, `setTunnelState` is the call of the
   manager.
2. `setTunnelState_shows_iff`: the tunnel is shown as the backend has it exactly if the backend returned
   or has it as it was shown before the call.
3. `setTunnelConfig_atomic_iff`: the copies stay in step exactly if the backend threw, the config was
   saved, or the backend had nothing to change.
-/

namespace WgAndroid

namespace TunnelManager

open Interleaving

/-! ## Setting the state -/

/-- What the backend's `setState` does to the tunnel it is called on: whether the tunnel runs in the
end, which states it was told by `onStateChange`, and the state that is returned; `none` is a throw.
What is returned is the state of the tunnel. -/
structure Behaviour where
  running : Bool
  reported : List TunnelState
  result : Option TunnelState
  result_eq : ∀ state ∈ result, state = .of running

/-- The tunnel has the state that it was told last. -/
def World.behave (w : World) (t : ObservableTunnel) (b : Behaviour) : World :=
  { w with
    running := Function.update w.running t b.running
    state := Function.update w.state t (b.reported.getLastD (w.state t)) }

/-- `getConfigAsync`: the cached config, or the stored one, which is cached then. -/
def getConfigAsync (w : World) (t : ObservableTunnel) (loadThrows : Bool) : World × Option Config :=
  match w.config t with
  | some config => (w, some config)
  | none =>
    match if loadThrows then none else w.store.lookup (w.name t) with
    | some config => (w.onConfigChanged t config, some config)
    | none => (w, none)

/-- The state and the preference after `setTunnelState`, and whether it returned. -/
def setTunnelState (backend : World → ObservableTunnel → TunnelState → Config → Behaviour)
    (loadThrows : Bool) (w : World) (t : ObservableTunnel) (state : TunnelState) : Persisted × Bool :=
  let s : Switch := ⟨t, state, w.state t⟩
  match getConfigAsync w t loadThrows with
  | (w, none) => (saveState (switched w s none).1, false)
  | (w, some config) =>
    let b := backend w t state config
    (saveState (switched (w.behave t b) s b.result).1, b.result.isSome)

variable {cmp : Comparator JString} {w w' : World} {t : ObservableTunnel} {state : TunnelState}
  {backend : World → ObservableTunnel → TunnelState → Config → Behaviour} {loadThrows : Bool}

@[simp] theorem World.behave_running {b : Behaviour} : (w.behave t b).running t = b.running :=
  Function.update_self ..

/-- The last lines of `setTunnelState`: the state that is shown in the end, and what they leave. -/
theorem switched_world (w : World) (s : Switch) (newState : Option TunnelState) :
    (switched w s newState).1.state s.tunnel = newState.getD s.originalState ∧
    (switched w s newState).1.running = w.running ∧
    (switched w s newState).1.tunnelMap = w.tunnelMap ∧ (switched w s newState).1.name = w.name := by
  cases newState <;> exact ⟨Function.update_self .., rfl, rfl, rfl⟩

/-- Names in the list are unique: the name of a listed tunnel is saved if that tunnel is up. -/
theorem World.name_mem_upNames (hmem : t ∈ w.tunnelMap) (hnames : w.names.Nodup) :
    w.name t ∈ w.upNames ↔ w.state t = .up := by
  rw [mem_upNames]
  constructor
  · rintro ⟨u, hu, hup, hname⟩
    rwa [List.inj_on_of_nodup_map hnames hu hmem hname] at hup
  · exact fun hup => ⟨t, hmem, hup, rfl⟩

/-- The end of `setTunnelState`, from whatever state the backend left. -/
theorem saved_switched_iff {s : Switch} {newState : Option TunnelState} {p : Persisted}
    (hp : p = saveState (switched w s newState).1) (hmem : s.tunnel ∈ w.tunnelMap) (hnames : w.names.Nodup) :
    (p.world.state s.tunnel = .of (p.world.running s.tunnel) ∧
      (w.name s.tunnel ∈ UserKnobs.value p.runningTunnels ↔ p.world.running s.tunnel = true)) ↔
    newState.getD s.originalState = .of (p.world.running s.tunnel) := by
  obtain ⟨hstate, -, hlist, hname⟩ := switched_world w s newState
  have hup := World.name_mem_upNames (w := (switched w s newState).1) (hlist ▸ hmem)
    (by rwa [World.names, hlist, hname])
  subst hp
  simp only [saveState]
  rw [UserKnobs.value_edited, ← hname, hup, hstate]
  refine and_iff_left_of_imp fun hshown => ?_
  rw [hshown]
  cases (switched w s newState).1.running s.tunnel <;> decide

theorem getConfigAsync_world {config : Option Config}
    (h : getConfigAsync w t loadThrows = (w', config)) :
    w'.state = w.state ∧ w'.tunnelMap = w.tunnelMap ∧ w'.name = w.name := by
  rw [getConfigAsync] at h
  split at h
  · cases h
    exact ⟨rfl, rfl, rfl⟩
  · split at h <;> cases h <;> exact ⟨rfl, rfl, rfl⟩

/-- After `setTunnelState` the tunnel is shown and saved as the backend has it exactly if the call
returned, or if the backend has it as it was shown before the call. -/
theorem setTunnelState_shows_iff {p : Persisted} {returned : Bool} (hmem : t ∈ w.tunnelMap)
    (hnames : w.names.Nodup) (h : setTunnelState backend loadThrows w t state = (p, returned)) :
    (p.world.state t = .of (p.world.running t) ∧
      (w.name t ∈ UserKnobs.value p.runningTunnels ↔ p.world.running t = true)) ↔
    returned = true ∨ w.state t = .of (p.world.running t) := by
  simp only [setTunnelState] at h
  split at h
  · next w' hconfig =>
    obtain ⟨-, hlist, hname⟩ := getConfigAsync_world hconfig
    cases h
    have hnames' : w'.names.Nodup := by rwa [World.names, hlist, hname]
    rw [← hname]
    refine (saved_switched_iff (s := ⟨t, state, w.state t⟩) rfl (hlist ▸ hmem) hnames').trans ?_
    exact (or_iff_right Bool.false_ne_true).symm
  · next w' config hconfig =>
    obtain ⟨-, hlist, hname⟩ := getConfigAsync_world hconfig
    cases h
    have hnames' : (w'.behave t (backend w' t state config)).names.Nodup := by
      show (w'.tunnelMap.map w'.name).Nodup
      rwa [hlist, hname]
    rw [← hname]
    refine (saved_switched_iff (s := ⟨t, state, w.state t⟩) rfl (hlist ▸ hmem) hnames').trans ?_
    obtain ⟨-, hrunning, -⟩ := switched_world (w'.behave t (backend w' t state config))
      ⟨t, state, w.state t⟩ (backend w' t state config).result
    cases hresult : (backend w' t state config).result with
    | none => exact (or_iff_right Bool.false_ne_true).symm
    | some newState =>
      -- what the backend returns is the state of the tunnel
      refine iff_of_true ?_ (.inl rfl)
      rw [← hresult]
      simp only [saveState]
      rw [hrunning, hresult, World.behave_running]
      exact (backend w' t state config).result_eq newState hresult

/-- A backend that brings the tunnel up or down, reports the change and returns, or throws and changes
nothing. -/
def allOrNothing (throws : Bool) (w : World) (t : ObservableTunnel) (state : TunnelState) (_ : Config) :
    Behaviour :=
  if throws then ⟨w.running t, [], none, fun _ h => by cases h⟩
  else
    ⟨w.goal t state, if w.running t = w.goal t state then [] else [.of (w.goal t state)],
      some (.of (w.goal t state)), fun _ h => (Option.some.inj h).symm⟩

theorem switch_nil (w : World) (t : ObservableTunnel) (state : TunnelState) (config : Config) :
    w.switch t (w.goal t state) [] = w.behave t (allOrNothing false w t state config) := by
  have hrunning : (fun u => if u = t then w.goal t state else w.running u && !List.contains [] u) =
      Function.update w.running t (w.goal t state) := by
    funext u
    rw [Function.update_apply]
    split <;> simp
  have hstate : (fun u => if u = t then if w.running t = w.goal t state then w.state t
        else .of (w.goal t state)
      else if w.running u && List.contains [] u then .down else w.state u) =
      Function.update w.state t
        ((if w.running t = w.goal t state then [] else [.of (w.goal t state)]).getLastD (w.state t)) := by
    funext u
    rw [Function.update_apply]
    split
    · split <;> rfl
    · simp
  simp only [World.switch, World.behave, allOrNothing, Bool.false_eq_true, if_false, hrunning, hstate]

/-- On a backend that does all or nothing to this tunnel alone, `setTunnelState` is the call of the
manager; here with the config in memory. -/
theorem complete_setTunnelState {config : Config} (hconfig : w.config t = some config) (throws : Bool)
    (preference : UserKnobs.StringSet) :
    complete cmp ⟨w, preference⟩ (.setTunnelState t state)
        [.main, if throws then .throws else .returns [], .main] =
      some (setTunnelState (allOrNothing throws) loadThrows w t state).1 := by
  have hget : getConfigAsync w t loadThrows = (w, some config) := by rw [getConfigAsync, hconfig]
  let s : Switch := ⟨t, state, w.state t⟩
  let b := allOrNothing throws w t state config
  have hset : setTunnelState (allOrNothing throws) loadThrows w t state =
      (saveState (switched (w.behave t b) s b.result).1, b.result.isSome) := by
    rw [setTunnelState, hget]
  have hconfigured : (persistent cmp).resume ⟨w, preference⟩ (.stateConfig s) .main =
      some (⟨w, preference⟩, .suspended (.stateSet s config)) := by
    simp [persistent, resume, resumeState, s, hconfig]
  have hswitched : (persistent cmp).resume ⟨w, preference⟩ (.stateSet s config)
      (if throws then .throws else .returns []) =
      some (⟨w.behave t b, preference⟩, .suspended (.stateFinish s b.result)) := by
    cases throws with
    | true =>
      have hsame : w.behave t b = w := by simp [b, allOrNothing, World.behave]
      rw [hsame]
      rfl
    | false =>
      have hset : w.backendSetState t state (some config) [] =
          some (w.behave t b, .of (w.goal t state)) := by
        simp [World.backendSetState, switch_nil w t state config, b]
      show Option.map _ (Option.bind (w.backendSetState t state (some config) []) _) = _
      rw [hset]
      rfl
  have hfinished : (persistent cmp).resume ⟨w.behave t b, preference⟩ (.stateFinish s b.result) .main =
      some (saveState (switched (w.behave t b) s b.result).1, (switched (w.behave t b) s b.result).2) := rfl
  have hrun : run (persistent cmp) ⟨⟨w, preference⟩, []⟩ (alone (.setTunnelState t state)
      [.main, if throws then .throws else .returns [], .main]) =
      some ⟨saveState (switched (w.behave t b) s b.result).1, []⟩ := by
    show run (persistent cmp) ⟨⟨w, preference⟩, [.stateConfig s]⟩ _ = _
    simp only [List.map_cons, List.map_nil]
    rw [run_resume_alone hconfigured, Progress.pool_suspended, run_resume_alone hswitched,
      Progress.pool_suspended, run_resume_alone hfinished, switched_pool, run_nil]
  rw [hset, complete, hrun]
  rfl

/-- The tunnel is brought up by a backend that does it or throws. -/
theorem setTunnelState_shows_bringUp :
    ∃ w p, load (TunnelComparator.comparator []) sampleStore [] none = .ok w ∧
      setTunnelState (allOrNothing false) false w 0 .up = (p, true) ∧
      p.world.state 0 = .of (p.world.running 0) ∧
      (w.name 0 ∈ UserKnobs.value p.runningTunnels ↔ p.world.running 0 = true) := by
  have hok : (load (TunnelComparator.comparator []) sampleStore [] none).map (fun w =>
      decide (0 ∈ w.tunnelMap ∧ w.names.Nodup ∧
        (setTunnelState (allOrNothing false) false w 0 .up).2 = true)) = .ok true := by decide +kernel
  obtain ⟨w, hload, hw⟩ := Checked.map_eq_ok hok
  obtain ⟨hmem, hnames, hreturned⟩ := of_decide_eq_true hw
  have hset : setTunnelState (allOrNothing false) false w 0 .up =
      ((setTunnelState (allOrNothing false) false w 0 .up).1, true) := Prod.ext rfl hreturned
  exact ⟨w, _, hload, hset, (setTunnelState_shows_iff hmem hnames hset).mpr (.inl rfl)⟩

/-- A backend that takes the tunnel down, reports it, and throws. -/
def downThenThrows (_ : World) (_ : ObservableTunnel) (_ : TunnelState) (_ : Config) : Behaviour :=
  ⟨false, [.down], none, fun _ h => by cases h⟩

/-- The tunnel is down and was told so; the state of before the call is shown and saved. -/
theorem setTunnelState_shows_up_when_down :
    ∃ w, load (TunnelComparator.comparator []) sampleStore [text "wg0"] none = .ok w ∧
      let p := (setTunnelState downThenThrows false w 0 .down).1
      p.world.running 0 = false ∧ p.world.state 0 = .up ∧
      UserKnobs.value p.runningTunnels = {text "wg0"} := by
  have hok : (load (TunnelComparator.comparator []) sampleStore [text "wg0"] none).map (fun w =>
      let p := (setTunnelState downThenThrows false w 0 .down).1
      decide (p.world.running 0 = false ∧ p.world.state 0 = .up ∧
        UserKnobs.value p.runningTunnels = {text "wg0"})) = .ok true := by decide +kernel
  obtain ⟨w, hload, hw⟩ := Checked.map_eq_ok hok
  exact ⟨w, hload, of_decide_eq_true hw⟩

/-! ## Setting the config -/

/-- The manager with the configs that the backend runs its tunnels with. -/
structure Configured where
  world : World
  current : ObservableTunnel → Option Config
  running_eq : ∀ t, world.running t = (current t).isSome

/-- The config that the tunnel runs with when it has been set to the state. -/
def World.goalConfig (w : World) (t : ObservableTunnel) (state : TunnelState) (config : Config) :
    Option Config :=
  if w.goal t state then some config else none

theorem switch_running_eq (c : Configured) (t : ObservableTunnel) (state : TunnelState) (config : Config)
    (stopped : List ObservableTunnel) (u : ObservableTunnel) :
    (c.world.switch t (c.world.goal t state) stopped).running u =
      (if u = t then c.world.goalConfig t state config
        else if u ∈ stopped then none else c.current u).isSome := by
  simp only [World.switch, World.goalConfig, c.running_eq]
  split
  · cases c.world.goal t state <;> rfl
  · by_cases hstopped : u ∈ stopped <;> simp [hstopped]

/-- A backend `setState` that succeeds. -/
def Configured.setState (c : Configured) (t : ObservableTunnel) (state : TunnelState) (config : Config)
    (stopped : List ObservableTunnel) : Configured where
  world := c.world.switch t (c.world.goal t state) stopped
  current u :=
    if u = t then c.world.goalConfig t state config else if u ∈ stopped then none else c.current u
  running_eq := switch_running_eq c t state config stopped

end TunnelManager

/-- `save` of the config store: the file must be there. -/
def ConfigStore.save (store : ConfigStore) (name : JString) (config : Config) : Option ConfigStore :=
  if name ∈ store then some (store.insert name config) else none

namespace TunnelManager

/-- The state after `setTunnelConfig`, and whether it returned. The backend's `setState` throws if
`stopped` is `none`, and else stops the given tunnels. -/
def setTunnelConfig (c : Configured) (t : ObservableTunnel) (config : Config)
    (stopped : Option (List ObservableTunnel)) (saveThrows : Bool) : Configured × Bool :=
  match stopped with
  | none => (c, false)
  | some stopped =>
    let c := c.setState t (c.world.state t) config stopped
    match if saveThrows then none else c.world.store.save (c.world.name t) config with
    | none => (c, false)
    | some store =>
      ({ c with world := { c.world with store := store }.onConfigChanged t config }, true)

/-- The backend runs no other configs than before when it sets the tunnel. -/
def Configured.Unmoved (c : Configured) (t : ObservableTunnel) (config : Config)
    (stopped : List ObservableTunnel) : Prop :=
  c.current t = c.world.goalConfig t (c.world.state t) config ∧
    ∀ u ∈ stopped, u ≠ t → c.current u = none

/-- The call did everything or nothing. -/
structure Atomic (c : Configured) (t : ObservableTunnel) (config : Config) (c' : Configured)
    (returned : Bool) : Prop where
  all : returned = true → (c.world.state t = .up → c'.current t = some config) ∧
    c'.world.store.lookup (c.world.name t) = some config ∧ c'.world.config t = some config
  nothing : returned = false →
    c'.current = c.current ∧ c'.world.store = c.world.store ∧ c'.world.config = c.world.config

theorem setState_current_eq_iff {c : Configured} {config : Config} {stopped : List ObservableTunnel} :
    (c.setState t (c.world.state t) config stopped).current = c.current ↔ c.Unmoved t config stopped := by
  simp only [Configured.setState, Configured.Unmoved, funext_iff]
  constructor
  · intro h
    refine ⟨by simpa using (h t).symm, fun u hu hne => ?_⟩
    simpa [hne, hu] using (h u).symm
  · rintro ⟨htunnel, hothers⟩ u
    split
    · next heq => rw [heq, htunnel]
    · next hne =>
      split
      · next hu => exact (hothers u hu hne).symm
      · rfl

/-- `setTunnelConfig` does everything or nothing exactly if it returned, the backend threw, or the
backend runs what it ran before. -/
theorem setTunnelConfig_atomic_iff (c : Configured) (t : ObservableTunnel) (config : Config)
    (stopped : Option (List ObservableTunnel)) (saveThrows : Bool) :
    let (c', returned) := setTunnelConfig c t config stopped saveThrows
    Atomic c t config c' returned ↔ returned = true ∨ ∀ us ∈ stopped, c.Unmoved t config us := by
  obtain ⟨⟨c', returned⟩, h⟩ : ∃ r, setTunnelConfig c t config stopped saveThrows = r := ⟨_, rfl⟩
  rw [h]
  simp only [setTunnelConfig] at h
  show Atomic c t config c' returned ↔ _
  split at h
  · cases h
    exact iff_of_true ⟨(fun h => by cases h), fun _ => ⟨rfl, rfl, rfl⟩⟩ (.inr fun _ h => by cases h)
  · next us =>
    split at h
    · cases h
      rw [or_iff_right Bool.false_ne_true]
      constructor
      · intro h us' hus
        cases hus
        exact setState_current_eq_iff.mp (h.nothing rfl).1
      · intro h
        exact ⟨(fun h => by cases h), fun _ => ⟨setState_current_eq_iff.mpr (h us rfl), rfl, rfl⟩⟩
    · next store hstore =>
      cases h
      refine iff_of_true ⟨fun _ => ⟨fun hup => ?_, ?_, Function.update_self ..⟩, ?_⟩ (.inl rfl)
      · show (if t = t then c.world.goalConfig t (c.world.state t) config else _) = _
        rw [if_pos rfl, hup]
        rfl
      · split at hstore
        · cases hstore
        · rw [ConfigStore.save] at hstore
          split at hstore
          · cases hstore
            exact AList.lookup_insert _
          · cases hstore
      · rintro ⟨⟩

/-- The sample config with another key. -/
def otherConfig : Config :=
  { sampleConfig with
    interfaze := { sampleConfig.interfaze with privateKey := ⟨List.replicate 32 2, List.length_replicate⟩ } }

/-- The tunnel `wg0`, which is up. -/
def sampleConfigured : Configured where
  world :=
    { name := fun _ => text "wg0"
      config := fun _ => some sampleConfig
      state := fun t => .of (t == 0)
      next := 1
      tunnelMap := [0]
      lastUsedTunnel := none
      store := sampleStore
      running := fun t => t == 0 }
  current t := if t = 0 then some sampleConfig else none
  running_eq t := by cases t <;> rfl

/-- The backend runs the new config and the file cannot be written: the stored config and the one in
memory are the old one. -/
theorem setTunnelConfig_torn :
    let (c, returned) := setTunnelConfig sampleConfigured 0 otherConfig (some []) true
    returned = false ∧ c.current 0 = some otherConfig ∧ sampleConfigured.current 0 = some sampleConfig ∧
    c.world.store.lookup (text "wg0") = some sampleConfig ∧ c.world.config 0 = some sampleConfig ∧
    otherConfig ≠ sampleConfig := by
  have hne : otherConfig ≠ sampleConfig := fun h =>
    absurd (congrArg (fun config => config.interfaze.privateKey.bytes) h) (by decide)
  exact ⟨rfl, rfl, rfl, rfl, rfl, hne⟩

end TunnelManager

end WgAndroid
