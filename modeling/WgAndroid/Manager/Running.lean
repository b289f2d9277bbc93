import WgAndroid.Manager.Ownership

/-!
# Running tunnels

`delete` looks at the state of its tunnel once, at its start, and `setTunnelState` switches the
tunnel after a suspension. A tunnel that is being brought up while it is deleted ends up running and
in no list. When at most one call at a time works on a tunnel, what a call read at its start stays
good: a tunnel that is not the call's own can only be stopped.

Results:
1. `watched_invariant`: with one call at a time on a tunnel, running tunnels are shown as up and are
   in the list or in the hands of a call.
2. `running_mem_tunnelMap`: when all calls have finished, every running tunnel is in the list.
3. `running_orphan_after_delete`: not so when a tunnel is deleted while it is being brought up.
-/

namespace WgAndroid.TunnelManager

open Interleaving

/-! ## Calls at work on a tunnel -/

/-- The tunnel that a suspended `delete`, `setTunnelName` or `setTunnelState` works on. -/
def Coroutine.busy : Coroutine → List ObservableTunnel
  | .stateConfig s | .stateLoad s | .stateLoaded s _ | .stateSet s _ | .stateFinish s _ => [s.tunnel]
  | c => c.held

/-- What a suspended call relies on: `delete` removes the file of a stopped tunnel, and a state that
is still to be shown is up if the tunnel runs. -/
def Coroutine.Expects (w : World) : Coroutine → Prop
  | .deleteStore r => w.running r.tunnel = false
  | .renameQueried r state => w.running r.tunnel = true → state = .up
  | .stateConfig s | .stateLoad s | .stateLoaded s _ | .stateSet s _ =>
    w.running s.tunnel = true → s.originalState = .up
  | .stateFinish s newState => w.running s.tunnel = true → newState.getD s.originalState = .up
  | _ => True

structure Watched (w : World) (pool : List Coroutine) : Prop where
  exclusive : (pool.flatMap Coroutine.busy).Nodup
  within : ∀ c ∈ pool, ∀ t ∈ c.busy, t ∈ c.held ∨ t ∈ w.tunnelMap
  shown : ∀ t, w.running t = true → w.state t = .up
  placed : ∀ t, w.running t = true → t ∈ places w pool
  expects : ∀ c ∈ pool, c.Expects w

variable {cmp : Comparator JString} {w w' : World} {c c' : Coroutine} {ts ts' ps : List Coroutine}
  {t : ObservableTunnel}

/-- A tunnel that runs less does not disappoint a call. -/
theorem Coroutine.Expects.mono (h : c.Expects w)
    (hrun : ∀ t ∈ c.busy, w'.running t = true → w.running t = true) : c.Expects w' := by
  cases c with
  | deleteStore r =>
    cases hr : w'.running r.tunnel with
    | false => exact hr
    | true => exact absurd (hrun _ List.mem_cons_self hr) (by rw [h]; decide)
  | renameQueried | stateConfig | stateLoad | stateLoaded | stateSet | stateFinish =>
    exact fun hr => h (hrun _ List.mem_cons_self hr)
  | _ => trivial

theorem Watched.perm (h : Watched w ts) (hp : ts.Perm ts') : Watched w ts' where
  exclusive := (hp.flatMap_right _).nodup h.exclusive
  within c hc := h.within c (hp.mem_iff.mpr hc)
  shown := h.shown
  placed t ht := ((hp.flatMap_right _).append_left _).mem_iff.mp (h.placed t ht)
  expects c hc := h.expects c (hp.mem_iff.mpr hc)

/-- The other calls do not work on the tunnel. -/
theorem Watched.not_mem_busy (h : Watched w (c :: ts)) (hc' : c' ∈ ts) (ht : t ∈ c'.busy) :
    t ∉ c.busy := by
  intro htc
  have hnodup := h.exclusive
  rw [List.flatMap_cons] at hnodup
  exact List.disjoint_of_nodup_append hnodup htc (List.mem_flatMap.mpr ⟨c', hc', ht⟩)

/-- One step of the call `c`. The other calls keep what they rely on, because the tunnels that are
not the call's own stay in the list and are at most stopped. -/
theorem Watched.advance (h : Watched w (c :: ts))
    (hbusy : (ps.flatMap Coroutine.busy).Sublist c.busy)
    (hwithin : ∀ p ∈ ps, ∀ t ∈ p.busy, t ∈ p.held ∨ t ∈ w'.tunnelMap)
    (hlist : ∀ t, t ∉ c.busy → t ∈ w.tunnelMap → t ∈ w'.tunnelMap)
    (hrun : ∀ t, t ∉ c.busy → w'.running t = true → w.running t = true)
    (hshown : ∀ t, w'.running t = true → w'.state t = .up)
    (hplaced : ∀ t, w'.running t = true → t ∈ places w' (ps ++ ts))
    (hexpects : ∀ p ∈ ps, p.Expects w') : Watched w' (ps ++ ts) := by
  refine ⟨?_, ?_, hshown, hplaced, ?_⟩
  · have hexclusive := h.exclusive
    rw [List.flatMap_cons] at hexclusive
    rw [List.flatMap_append]
    exact hexclusive.sublist (hbusy.append_right _)
  · intro p hp t ht
    rcases List.mem_append.mp hp with hp | hp
    · exact hwithin p hp t ht
    · rcases h.within p (List.mem_cons_of_mem _ hp) t ht with hheld | hmem
      · exact .inl hheld
      · exact .inr (hlist t (h.not_mem_busy hp ht) hmem)
  · intro p hp
    rcases List.mem_append.mp hp with hp | hp
    · exact hexpects p hp
    · exact (h.expects p (List.mem_cons_of_mem _ hp)).mono fun t ht =>
        hrun t (h.not_mem_busy hp ht)

/-! ## The kinds of steps -/

/-- A step that leaves list and running tunnels alone, and the call at work on what it had. -/
theorem Watched.stay (h : Watched w (c :: ts)) (htunnelMap : w'.tunnelMap = w.tunnelMap)
    (hrunning : w'.running = w.running) (hshown : ∀ t, w'.running t = true → w'.state t = .up)
    (hheld : c'.held = c.held) (hbusy : c'.busy = c.busy) (hexpects : c'.Expects w') :
    Watched w' ([c'] ++ ts) := by
  have hcall : ∀ {P : Coroutine → Prop}, P c' → ∀ p ∈ [c'], P p := fun hP p hp => by
    rwa [List.mem_singleton.mp hp]
  refine h.advance ?_ (hcall ?_) ?_ ?_ hshown ?_ (hcall hexpects)
  · rw [List.flatMap_singleton, hbusy]
  · rw [hbusy, hheld, htunnelMap]
    exact h.within c List.mem_cons_self
  · rw [htunnelMap]
    exact fun _ _ => id
  · rw [hrunning]
    exact fun _ _ => id
  · intro t ht
    have hplaces : places w' ([c'] ++ ts) = places w (c :: ts) := by
      rw [places, places, htunnelMap, List.flatMap_append, List.flatMap_singleton, hheld,
        List.flatMap_cons]
    rw [hplaces]
    exact h.placed t (hrunning ▸ ht)

/-- The last step of a call. The tunnels that it had in its hands are in the list or stopped. -/
theorem Watched.finish (h : Watched w (c :: ts))
    (hlist : ∀ t, t ∈ w.tunnelMap → t ∈ w'.tunnelMap) (hrunning : w'.running = w.running)
    (hshown : ∀ t, w'.running t = true → w'.state t = .up)
    (hheld : ∀ t ∈ c.held, w.running t = true → t ∈ w'.tunnelMap) : Watched w' ([] ++ ts) := by
  refine h.advance (List.nil_sublist _) nofun (fun t _ => hlist t) ?_ hshown ?_ nofun
  · rw [hrunning]
    exact fun _ _ => id
  · intro t ht
    rw [hrunning] at ht
    have hplaced := h.placed t ht
    rw [places, List.flatMap_cons] at hplaced
    rcases List.mem_append.mp hplaced with hmem | hmem
    · exact List.mem_append_left _ (hlist t hmem)
    · rcases List.mem_append.mp hmem with hmem | hmem
      · exact List.mem_append_left _ (hheld t hmem ht)
      · exact List.mem_append_right _ hmem

theorem switch_running_of_ne {up : Bool} {stopped : List ObservableTunnel} {u : ObservableTunnel}
    (hne : u ≠ t) (h : (w.switch t up stopped).running u = true) :
    w.running u = true ∧ (w.switch t up stopped).state u = w.state u := by
  simp only [World.switch, if_neg hne, Bool.and_eq_true, Bool.not_eq_true'] at h ⊢
  exact ⟨h.1, if_neg fun hand => absurd (h.2.symm.trans hand.2) (by decide)⟩

/-- The backend reports what it changes, so running tunnels are shown as up after it, too. -/
theorem switch_shown {up : Bool} {stopped : List ObservableTunnel}
    (h : ∀ u, w.running u = true → w.state u = .up) {u : ObservableTunnel}
    (hu : (w.switch t up stopped).running u = true) : (w.switch t up stopped).state u = .up := by
  by_cases hne : u = t
  · subst hne
    simp only [World.switch, if_true] at hu ⊢
    subst hu
    split
    · next hrun => exact h u hrun
    · rfl
  · obtain ⟨hrun, hstate⟩ := switch_running_of_ne hne hu
    rw [hstate]
    exact h u hrun

/-- The backend switches the call's own tunnel. -/
theorem Watched.switch {up : Bool} {stopped : List ObservableTunnel} (h : Watched w (c :: ts))
    (hc : c.busy = [t]) (hheld : c'.held = c.held) (hbusy : c'.busy = c.busy)
    (hexpects : c'.Expects (w.switch t up stopped)) :
    Watched (w.switch t up stopped) ([c'] ++ ts) := by
  have hcall : ∀ {P : Coroutine → Prop}, P c' → ∀ p ∈ [c'], P p := fun hP p hp => by
    rwa [List.mem_singleton.mp hp]
  have hplaces : places (w.switch t up stopped) ([c'] ++ ts) = places w (c :: ts) := by
    rw [places, places, List.flatMap_append, List.flatMap_singleton, hheld, List.flatMap_cons]
    rfl
  refine h.advance ?_ (hcall ?_) (fun _ _ => id) ?_ (fun _ => switch_shown h.shown) ?_ (hcall hexpects)
  · rw [List.flatMap_singleton, hbusy]
  · rw [hbusy, hheld]
    exact h.within c List.mem_cons_self
  · intro u hu hrun
    rw [hc, List.mem_singleton] at hu
    exact (switch_running_of_ne hu hrun).1
  · intro u hrun
    rw [hplaces]
    by_cases hne : u = t
    · -- the call's own tunnel is in its hands or in the list
      subst hne
      rcases h.within c List.mem_cons_self u (hc ▸ List.mem_cons_self) with hmem | hmem
      · rw [places, List.flatMap_cons]
        exact List.mem_append_right _ (List.mem_append_left _ hmem)
      · exact List.mem_append_left _ hmem
    · exact h.placed u (switch_running_of_ne hne hrun).1

theorem onStateChanged_shown {state : TunnelState} (h : ∀ u, w.running u = true → w.state u = .up)
    (hstate : w.running t = true → state = .up) {u : ObservableTunnel} (hu : w.running u = true) :
    (w.onStateChanged t state).state u = .up := by
  by_cases hne : u = t
  · subst hne
    exact (Function.update_self ..).trans (hstate hu)
  · exact (Function.update_of_ne hne ..).trans (h u hu)

/-- The call puts its tunnel back into the list. -/
theorem Watched.putBack {r : Removed} {result : Result} (h : Watched w (c :: ts))
    (howned : Owned w (c :: ts)) (hc : c.Keeps r.tunnel) : Watched (putBack cmp w r result).1 ts := by
  obtain ⟨tunnelMap, heq, hp⟩ := howned.putBack_eq hc cmp result
  rw [heq]
  refine h.finish ?_ rfl h.shown ?_
  · exact fun t ht => hp.mem_iff.mpr (List.mem_cons_of_mem _ ht)
  · intro t ht _
    rw [hc.held, List.mem_singleton] at ht
    rw [ht]
    exact hp.mem_iff.mpr List.mem_cons_self

/-- A new call. What it takes out of the list is in its hands, and no other call works on it. -/
theorem Watched.issue (h : Watched w ts) (hrunning : w'.running = w.running)
    (hstate : w'.state = w.state) (hbusy : ∀ t ∈ c.busy, t ∉ ts.flatMap Coroutine.busy)
    (hnodup : c.busy.Nodup) (hwithin : ∀ t ∈ c.busy, t ∈ c.held ∨ t ∈ w'.tunnelMap)
    (hlist : ∀ t ∈ w.tunnelMap, t ∈ w'.tunnelMap ∨ t ∈ c.held ∧ t ∈ c.busy)
    (hexpects : c.Expects w') : Watched w' ([c] ++ ts) := by
  refine ⟨?_, ?_, ?_, ?_, ?_⟩
  · rw [List.flatMap_append, List.flatMap_singleton]
    exact hnodup.append (List.Nodup.sublist (List.Sublist.refl _) h.exclusive) fun t => hbusy t
  · intro p hp t ht
    rcases List.mem_cons.mp hp with rfl | hp
    · exact hwithin t ht
    · rcases h.within p hp t ht with hheld | hmem
      · exact .inl hheld
      · rcases hlist t hmem with hmem | ⟨-, hown⟩
        · exact .inr hmem
        · exact absurd (List.mem_flatMap.mpr ⟨p, hp, ht⟩) (hbusy t hown)
  · rw [hrunning, hstate]
    exact h.shown
  · intro t ht
    rw [hrunning] at ht
    rcases List.mem_append.mp (h.placed t ht) with hmem | hmem
    · rcases hlist t hmem with hmem | ⟨hheld, -⟩
      · exact List.mem_append_left _ hmem
      · exact List.mem_append_right _ (List.mem_append_left _ hheld)
    · exact List.mem_append_right _ (List.mem_append_right _ hmem)
  · intro p hp
    rcases List.mem_cons.mp hp with rfl | hp
    · exact hexpects
    · exact (h.expects p hp).mono fun t _ ht => hrunning ▸ ht

theorem Watched.takeOut (h : Watched w ts) (hidle : t ∉ ts.flatMap Coroutine.busy)
    (hheld : c.held = [t]) (hbusy : c.busy = [t]) (hexpects : c.Expects (takeOut w t).2) :
    Watched (takeOut w t).2 ([c] ++ ts) := by
  refine h.issue rfl rfl ?_ ?_ ?_ ?_ hexpects
  · intro u hu
    rw [hbusy, List.mem_singleton] at hu
    rwa [hu]
  · rw [hbusy]
    exact List.nodup_singleton t
  · rw [hbusy, hheld]
    exact fun u hu => .inl hu
  · intro u hu
    rw [hbusy, hheld, List.mem_singleton]
    by_cases hne : u = t
    · exact .inr ⟨hne, hne⟩
    · exact .inl ((List.mem_erase_of_ne hne).mpr hu)

/-! ## Every step keeps running tunnels in sight -/

/-- The tunnel is in the list and no call works on it. -/
def Idle (w : World) (pool : List Coroutine) (t : ObservableTunnel) : Prop :=
  t ∈ w.tunnelMap ∧ t ∉ pool.flatMap Coroutine.busy

/-- The tunnel that the call is to work on is idle. -/
def Call.OnIdle (cmp : Comparator JString) (w : World) (pool : List Coroutine) : Call → Prop
  | .delete t => Idle w pool t
  | .setTunnelName t name => rejects cmp w name = none → Idle w pool t
  | .setTunnelState t _ => Idle w pool t
  | _ => True

/-- At most one call at a time works on a tunnel, and it is issued while the tunnel is in the list;
`getState` does not throw. -/
def onIdle (cmp : Comparator JString) : Discipline World Call Coroutine Outcome where
  start w pool call := call.OnIdle cmp w pool
  resume _ c o := c.Answered o

theorem Call.OnIdle.onListed {pool : List Coroutine} {call : Call} (h : call.OnIdle cmp w pool) :
    call.OnListed cmp w := by
  cases call with
  | delete t => exact h.1
  | setTunnelName t name => exact fun hname => (h hname).1
  | _ => trivial

theorem Watched.start {call : Call} (h : Watched w ts) (hcall : call.OnIdle cmp w ts)
    (hstart : Started cmp w call w' ps) : Watched w' (ps ++ ts) := by
  cases hstart with
  | createRejected | renameRejected => exact ⟨h.exclusive, h.within, h.shown, h.placed, h.expects⟩
  | create | config => exact h.issue rfl rfl nofun List.nodup_nil nofun (fun _ => .inl) trivial
  | deleteUp => exact h.takeOut hcall.2 rfl rfl trivial
  | @delete t hdown =>
    -- a tunnel that is not shown as up does not run
    refine h.takeOut hcall.2 rfl rfl ?_
    cases hrun : w.running t with
    | false => exact hrun
    | true => exact absurd (h.shown t hrun) hdown
  | renameUp hname => exact h.takeOut (hcall hname).2 rfl rfl trivial
  | rename hname => exact h.takeOut (hcall hname).2 rfl rfl trivial
  | @state t state =>
    refine h.issue rfl rfl ?_ (List.nodup_singleton t) ?_ (fun _ => .inl) (h.shown t)
    · intro u hu
      rw [List.mem_singleton.mp hu]
      exact hcall.2
    · intro u hu
      rw [List.mem_singleton.mp hu]
      exact .inr hcall.1

theorem Watched.created {name : JString} {config : Config} (h : Watched w (.createAdd name config :: ts))
    (howned : Owned w (.createAdd name config :: ts)) {tunnelMap : List ObservableTunnel}
    (hp : tunnelMap.Perm (w.next :: w.tunnelMap)) :
    Watched { w.construct name (some config) .down with tunnelMap := tunnelMap } ([] ++ ts) := by
  refine h.finish (fun t ht => hp.mem_iff.mpr (List.mem_cons_of_mem _ ht)) rfl ?_ nofun
  intro t ht
  -- a running tunnel was constructed before
  have hne : t ≠ w.next := fun heq => howned.next_not_mem (heq ▸ h.placed t ht)
  exact (Function.update_of_ne hne ..).trans (h.shown t ht)

theorem Watched.switched {s : Switch} {newState : Option TunnelState}
    (h : Watched w (.stateFinish s newState :: ts)) : Watched (switched w s newState).1 ([] ++ ts) := by
  have hexpects := h.expects _ List.mem_cons_self
  cases newState with
  | none => exact h.finish (fun _ => id) rfl (fun _ => onStateChanged_shown h.shown hexpects) nofun
  | some newState =>
    exact h.finish (fun _ => id) rfl (fun _ => onStateChanged_shown h.shown hexpects) nofun

theorem Watched.resume {o : Outcome} (howned : Owned w (c :: ts)) (h : Watched w (c :: ts))
    (hc : c.Answered o) (hstep : Transition cmp w c o w' ps) : Watched w' (ps ++ ts) := by
  have hexpects := h.expects _ List.mem_cons_self
  cases hstep with
  | createFailed | configLoadFailed | configCached => exact h.finish (fun _ => id) rfl h.shown nofun
  | created hadd =>
    obtain ⟨tunnelMap, hadd', hp, -⟩ := howned.created cmp
    cases hadd.symm.trans hadd'
    exact h.created howned hp
  | createRefused hadd =>
    obtain ⟨tunnelMap, hadd', -⟩ := howned.created cmp
    cases hadd.symm.trans hadd'
  | deleteStopped => exact h.switch rfl rfl rfl (if_pos rfl)
  | deleteRestarted | renameStopped | renameRestarted => exact h.switch rfl rfl rfl trivial
  | stateSwitched =>
    refine h.switch rfl rfl rfl fun hrun => ?_
    have hgoal := (if_pos rfl).symm.trans hrun
    exact congrArg TunnelState.of hgoal
  | @deleted r =>
    refine h.finish (fun _ => id) rfl h.shown fun t ht hrun => ?_
    rw [List.mem_singleton.mp ht, hexpects] at hrun
    cases hrun
  | deletePutBack => exact h.putBack howned ⟨rfl, fun _ => rfl⟩
  | renameFinished => exact h.putBack howned ⟨rfl, fun _ => rfl⟩
  | @renamed r name =>
    have hchanged : Watched (w.onNameChanged r.tunnel name) ([.renameFinish r name] ++ ts) :=
      h.stay rfl rfl h.shown rfl rfl trivial
    exact hchanged.putBack (howned.changed ⟨rfl, fun _ => rfl⟩) ⟨rfl, fun _ => rfl⟩
  | @renameRestored r state =>
    have hchanged : Watched (w.onStateChanged r.tunnel state) ([.renameQuery r] ++ ts) :=
      h.stay rfl rfl (fun _ => onStateChanged_shown h.shown hexpects) rfl rfl trivial
    have howned' : Owned (w.onStateChanged r.tunnel state) ([.renameQuery r] ++ ts) :=
      howned.frame rfl rfl rfl rfl rfl rfl
    exact hchanged.putBack howned' ⟨rfl, fun _ => rfl⟩
  | renameQueryFailed => exact hc.elim
  | @renameQueried r =>
    exact h.stay rfl rfl h.shown rfl rfl fun hrun => congrArg TunnelState.of hrun
  | stateFinished => exact h.switched
  | stateConfigured | stateUnconfigured | stateLoaded | stateLoadFailed | stateSwitchFailed |
    stateCached => exact h.stay rfl rfl h.shown rfl rfl hexpects
  | _ => exact h.stay rfl rfl h.shown rfl rfl trivial

/-- With one call at a time on a tunnel, running tunnels are shown as up and are in the list or in
the hands of a call. -/
theorem watched_invariant (cmp : Comparator JString) :
    Invariant (system cmp) (onIdle cmp) fun w ts => Owned w ts ∧ Watched w ts := by
  have howned : Invariant (system cmp) (onIdle cmp) Owned :=
    (owned_invariant cmp).mono (fun h => Call.OnIdle.onListed h) id
  refine howned.and (fun hp h => Watched.perm h hp) ?_ ?_
  · exact fun _ h hcall => h.start hcall (start_started cmp _ _)
  · exact fun howned h hc hp => h.resume howned hc (resume_transition hp)

theorem Settled.watched (h : Settled w) : Watched w [] where
  exclusive := List.nodup_nil
  within := List.forall_mem_nil _
  shown t ht := by rw [h.state_eq t (h.constructed t (h.running_mem t ht)), ht]; rfl
  placed t ht := List.mem_append_left _ (h.running_mem t ht)
  expects := List.forall_mem_nil _

/-- When all calls have finished, every running tunnel is in the list. -/
theorem running_mem_tunnelMap {store : ConfigStore} {running : List JString}
    {lastUsedName : Option JString} {es : List (Event Call Outcome)} {m : Machine World Coroutine}
    (hload : load cmp store running lastUsedName = .ok w)
    (hobeys : Obeys (system cmp) (onIdle cmp) ⟨w, []⟩ es)
    (hrun : run (system cmp) ⟨w, []⟩ es = some m) (hdone : m.pool = []) :
    ∀ t, m.shared.running t = true → t ∈ m.shared.tunnelMap := by
  have hsettled := settled_of_load hload
  obtain ⟨-, hwatched⟩ :=
    (watched_invariant cmp).run ⟨hsettled.owned, hsettled.watched⟩ hobeys hrun
  intro t ht
  have hplaced := hwatched.placed t ht
  rwa [hdone, places, List.flatMap_nil, List.append_nil] at hplaced

/-! ## Runs on a small store -/

instance (w : World) (pool : List Coroutine) (t : ObservableTunnel) : Decidable (Idle w pool t) :=
  inferInstanceAs (Decidable (t ∈ w.tunnelMap ∧ t ∉ pool.flatMap Coroutine.busy))

instance (cmp : Comparator JString) (w : World) (ts : List Coroutine) :
    (call : Call) → Decidable ((onIdle cmp).start w ts call)
  | .delete t | .setTunnelState t _ => inferInstanceAs (Decidable (Idle w ts t))
  | .setTunnelName t name => inferInstanceAs (Decidable (rejects cmp w name = none → Idle w ts t))
  | .create .. | .getTunnelConfig .. => isTrue trivial

instance (cmp : Comparator JString) (w : World) (c : Coroutine) (o : Outcome) :
    Decidable ((onIdle cmp).resume w c o) :=
  inferInstanceAs (Decidable ((onListed cmp).resume w c o))

/-- The tunnel is brought up and then renamed, and another one is created meanwhile. -/
def bringUpAndRename : List (Event Call Outcome) :=
  [.start (.setTunnelState 0 .up), .resume 0 .main, .resume 0 (.returns []), .resume 0 .main,
    .start (.create (text "wg1") (some sampleConfig)), .resume 1 (.returns []), .resume 0 .main,
    .start (.setTunnelName 0 (text "home")), .resume 0 (.returns []), .resume 1 (.returns []),
    .resume 1 (.returns []), .resume 0 .main, .resume 1 .main, .resume 0 (.returns []),
    .resume 0 .main]

theorem running_mem_after_bringUpAndRename :
    ∃ w m, load (TunnelComparator.comparator []) sampleStore [] none = .ok w ∧
      run (system (TunnelComparator.comparator [])) ⟨w, []⟩ bringUpAndRename = some m ∧
      m.shared.running 0 = true ∧ ∀ t, m.shared.running t = true → t ∈ m.shared.tunnelMap := by
  have hok : (load (TunnelComparator.comparator []) sampleStore [] none).map (fun w =>
      decide (Obeys (system (TunnelComparator.comparator []))
        (onIdle (TunnelComparator.comparator [])) ⟨w, []⟩ bringUpAndRename) &&
      (run (system (TunnelComparator.comparator [])) ⟨w, []⟩ bringUpAndRename).any fun m =>
        decide (m.pool.length = 0 ∧ m.shared.running 0 = true)) = .ok true := by
    decide +kernel
  obtain ⟨w, hload, hboth⟩ := Checked.map_eq_ok hok
  obtain ⟨hobeys, hany⟩ := Bool.and_eq_true_iff.mp hboth
  obtain ⟨m, hrun, hm⟩ := (Option.any_eq_true _ _).mp hany
  obtain ⟨hpool, hup⟩ := of_decide_eq_true hm
  exact ⟨w, m, hload, hrun, hup, running_mem_tunnelMap hload (of_decide_eq_true hobeys) hrun
    (List.eq_nil_of_length_eq_zero hpool)⟩

/-- The tunnel is deleted after `setTunnelState` has read its config and before it calls the
backend. -/
def deleteWhileUp : List (Event Call Outcome) :=
  [.start (.setTunnelState 0 .up), .resume 0 .main, .resume 0 (.returns []), .resume 0 .main,
    .start (.delete 0), .resume 0 (.returns []), .resume 0 (.returns []), .resume 0 .main]

/-- `delete` saw a tunnel that was down; it is brought up when it is already gone. -/
theorem running_orphan_after_delete :
    ∃ w m, load (TunnelComparator.comparator []) sampleStore [] none = .ok w ∧
      run (system (TunnelComparator.comparator [])) ⟨w, []⟩ deleteWhileUp = some m ∧ m.pool = [] ∧
      m.shared.running 0 = true ∧ 0 ∉ m.shared.tunnelMap := by
  have hok : (load (TunnelComparator.comparator []) sampleStore [] none).map (fun w =>
      (run (system (TunnelComparator.comparator [])) ⟨w, []⟩ deleteWhileUp).any fun m =>
        decide (m.pool.length = 0 ∧ m.shared.running 0 = true ∧ 0 ∉ m.shared.tunnelMap)) =
      .ok true := by decide +kernel
  obtain ⟨w, hload, hany⟩ := Checked.map_eq_ok hok
  obtain ⟨m, hrun, hm⟩ := (Option.any_eq_true _ _).mp hany
  obtain ⟨hpool, hup, hlist⟩ := of_decide_eq_true hm
  exact ⟨w, m, hload, hrun, List.eq_nil_of_length_eq_zero hpool, hup, hlist⟩

end WgAndroid.TunnelManager
