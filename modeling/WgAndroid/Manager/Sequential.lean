import WgAndroid.Manager.Running

/-!
# Calls one after the other

What a call of the manager leaves behind when it runs alone, whatever its backend and store calls
do. A call that throws has put its tunnel back, under the name that it carries, with two exceptions:
the tunnel was not in the list to begin with, or the backend could not even tell the tunnel's state.

Results:
1. `told_invariant`: between the steps of a call that runs alone, shown states are those of the
   backend, and the last used tunnel is in the list.
2. `call_restores`: after each call, list, store and backend agree.
3. `rename_loses_tunnel`: not so when the failure path of `setTunnelName` fails, nor when a deleted
   tunnel is deleted again.
-/

namespace WgAndroid.TunnelManager

open Interleaving

/-! ## States and the last used tunnel -/

/-- A state that is still to be shown is the state of the backend. -/
def Coroutine.Knows (w : World) : Coroutine → Prop
  | .renameQueried r state => state = .of (w.running r.tunnel)
  | .stateConfig s | .stateLoad s | .stateLoaded s _ | .stateSet s _ =>
    s.originalState = .of (w.running s.tunnel)
  | .stateFinish s newState => newState.getD s.originalState = .of (w.running s.tunnel)
  | _ => True

structure Told (w : World) (pool : List Coroutine) : Prop where
  single : pool.length ≤ 1
  shown : ∀ t, t < w.next → w.state t = .of (w.running t)
  lastUsed : ∀ t ∈ w.lastUsedTunnel, t ∈ w.tunnelMap
  knows : ∀ c ∈ pool, c.Knows w

variable {cmp : Comparator JString} {w w' : World} {c c' : Coroutine} {ts ts' ps : List Coroutine}
  {t : ObservableTunnel}

theorem Told.perm (h : Told w ts) (hp : ts.Perm ts') : Told w ts' where
  single := hp.length_eq ▸ h.single
  shown := h.shown
  lastUsed := h.lastUsed
  knows c hc := h.knows c (hp.mem_iff.mpr hc)

/-- The call runs alone. -/
theorem Told.eq_nil (h : Told w (c :: ts)) : ts = [] :=
  List.eq_nil_of_length_eq_zero (Nat.le_zero.mp (Nat.le_of_succ_le_succ h.single))

theorem Told.stay (h : Told w (c :: ts)) (hnext : w'.next = w.next)
    (hshown : ∀ t, t < w.next → w'.state t = .of (w'.running t))
    (hlast : w'.lastUsedTunnel = w.lastUsedTunnel) (htunnelMap : w'.tunnelMap = w.tunnelMap)
    (hknows : c'.Knows w') : Told w' ([c'] ++ ts) := by
  obtain rfl := h.eq_nil
  refine ⟨Nat.le_refl _, hnext ▸ hshown, ?_, fun p hp => ?_⟩
  · rw [hlast, htunnelMap]
    exact h.lastUsed
  · rwa [List.mem_singleton.mp hp]

theorem Told.finish (h : Told w (c :: ts))
    (hshown : ∀ t, t < w'.next → w'.state t = .of (w'.running t))
    (hlast : ∀ t ∈ w'.lastUsedTunnel, t ∈ w'.tunnelMap) : Told w' ([] ++ ts) := by
  obtain rfl := h.eq_nil
  exact ⟨Nat.zero_le _, hshown, hlast, List.forall_mem_nil _⟩

/-- The backend reports every change, so shown states stay those of the backend. -/
theorem switch_told {up : Bool} {stopped : List ObservableTunnel}
    (h : ∀ u, u < w.next → w.state u = .of (w.running u)) {u : ObservableTunnel} (hu : u < w.next) :
    (w.switch t up stopped).state u = .of ((w.switch t up stopped).running u) := by
  by_cases hne : u = t
  · subst hne
    simp only [World.switch, if_true]
    split
    · next hrun => rw [h u hu, hrun]
    · rfl
  · simp only [World.switch, if_neg hne]
    cases hrun : w.running u <;> cases hstop : stopped.contains u <;> simp [h u hu, hrun]

theorem onStateChanged_told {state : TunnelState} (h : ∀ u, u < w.next → w.state u = .of (w.running u))
    (hstate : state = .of (w.running t)) {u : ObservableTunnel} (hu : u < w.next) :
    (w.onStateChanged t state).state u = .of (w.running u) := by
  by_cases hne : u = t
  · subst hne
    exact (Function.update_self ..).trans hstate
  · exact (Function.update_of_ne hne ..).trans (h u hu)

theorem Told.putBack {r : Removed} {result : Result} (h : Told w (c :: ts))
    (howned : Owned w (c :: ts)) (hc : c.Keeps r.tunnel) :
    Told (putBack cmp w r result).1 ([] ++ ts) := by
  obtain ⟨tunnelMap, heq, hp⟩ := howned.putBack_eq hc cmp result
  rw [heq]
  refine h.finish h.shown fun t ht => hp.mem_iff.mpr ?_
  change t ∈ (if r.wasLastUsed then some r.tunnel else w.lastUsedTunnel) at ht
  split at ht
  · cases ht
    exact List.mem_cons_self
  · exact List.mem_cons_of_mem _ (h.lastUsed t ht)

/-! ## Every step of a call that runs alone -/

/-- The tunnel that the call is issued on. -/
def Call.tunnel : Call → Option ObservableTunnel
  | .create .. => none
  | .delete t | .setTunnelName t _ | .setTunnelState t _ | .getTunnelConfig t => some t

/-- Each call runs to its end before the next one and is issued on a tunnel in the list; `getState`
does not throw. -/
def inTurn : Discipline World Call Coroutine Outcome where
  start w pool call := pool = [] ∧ ∀ t ∈ call.tunnel, t ∈ w.tunnelMap
  resume _ c o := c.Answered o

theorem onIdle_of_inTurn {call : Call} (h : inTurn.start w ts call) : call.OnIdle cmp w ts := by
  obtain ⟨rfl, hlisted⟩ := h
  cases call with
  | create | getTunnelConfig => trivial
  | delete | setTunnelState => exact ⟨hlisted _ rfl, List.not_mem_nil⟩
  | setTunnelName => exact fun _ => ⟨hlisted _ rfl, List.not_mem_nil⟩

theorem takeOut_lastUsed (h : ∀ u ∈ w.lastUsedTunnel, u ∈ w.tunnelMap) {u : ObservableTunnel}
    (hu : u ∈ (takeOut w t).2.lastUsedTunnel) : u ∈ (takeOut w t).2.tunnelMap := by
  change u ∈ (if decide (w.lastUsedTunnel = some t) then none else w.lastUsedTunnel) at hu
  split at hu
  · cases hu
  · next hlast =>
    have hne : u ≠ t := fun heq => hlast (decide_eq_true (heq ▸ hu))
    exact (List.mem_erase_of_ne hne).mpr (h u hu)

theorem Told.start {call : Call} (h : Told w ts) (howned : Owned w ts) (hcall : inTurn.start w ts call)
    (hstart : Started cmp w call w' ps) : Told w' (ps ++ ts) := by
  obtain ⟨rfl, hlisted⟩ := hcall
  have hknows : ∀ {p : Coroutine}, p.Knows w' → ∀ q ∈ [p] ++ [], q.Knows w' := fun hp q hq => by
    rwa [List.mem_singleton.mp hq]
  cases hstart with
  | createRejected | renameRejected => exact h
  | create | config => exact ⟨Nat.le_refl _, h.shown, h.lastUsed, hknows trivial⟩
  | deleteUp | delete | renameUp | rename =>
    exact ⟨Nat.le_refl _, h.shown, fun _ => takeOut_lastUsed h.lastUsed, hknows trivial⟩
  | @state t state =>
    have ht : t < w.next := howned.constructed t (List.mem_append_left _ (hlisted t rfl))
    exact ⟨Nat.le_refl _, h.shown, h.lastUsed, hknows (h.shown t ht)⟩

theorem Told.created {name : JString} {config : Config} (h : Told w (.createAdd name config :: ts))
    (howned : Owned w (.createAdd name config :: ts)) (hwatched : Watched w (.createAdd name config :: ts))
    {tunnelMap : List ObservableTunnel} (hp : tunnelMap.Perm (w.next :: w.tunnelMap)) :
    Told { w.construct name (some config) .down with tunnelMap := tunnelMap } ([] ++ ts) := by
  refine h.finish ?_ fun t ht => hp.mem_iff.mpr (List.mem_cons_of_mem _ (h.lastUsed t ht))
  intro t ht
  rcases Nat.lt_succ_iff_lt_or_eq.mp ht with ht | rfl
  · exact (Function.update_of_ne ht.ne ..).trans (h.shown t ht)
  · -- the backend cannot run a tunnel before it is constructed
    have hrun : w.running w.next = false :=
      Bool.eq_false_of_not_eq_true fun hrun => howned.next_not_mem (hwatched.placed _ hrun)
    exact (Function.update_self ..).trans (congrArg TunnelState.of hrun).symm

theorem Told.switched {s : Switch} {newState : Option TunnelState}
    (h : Told w (.stateFinish s newState :: ts)) (hwatched : Watched w (.stateFinish s newState :: ts)) :
    Told (switched w s newState).1 ([] ++ ts) := by
  have hknows := h.knows _ List.mem_cons_self
  cases newState with
  | none => exact h.finish (fun _ => onStateChanged_told h.shown hknows) h.lastUsed
  | some newState =>
    refine h.finish (fun _ => onStateChanged_told h.shown hknows) fun t ht => ?_
    change t ∈ (if newState = .up then some s.tunnel else w.lastUsedTunnel) at ht
    split at ht
    · cases ht
      exact (hwatched.within _ List.mem_cons_self s.tunnel List.mem_cons_self).resolve_left
        List.not_mem_nil
    · exact h.lastUsed t ht

theorem Told.resume {o : Outcome} (howned : Owned w (c :: ts)) (hwatched : Watched w (c :: ts))
    (h : Told w (c :: ts)) (hstep : Transition cmp w c o w' ps) : Told w' (ps ++ ts) := by
  have hknows := h.knows _ List.mem_cons_self
  cases hstep with
  | createFailed | configLoadFailed | configCached | deleted | renameQueryFailed =>
    exact h.finish h.shown h.lastUsed
  | created hadd =>
    obtain ⟨tunnelMap, hadd', hp, -⟩ := howned.created cmp
    cases hadd.symm.trans hadd'
    exact h.created howned hwatched hp
  | createRefused hadd =>
    obtain ⟨tunnelMap, hadd', -⟩ := howned.created cmp
    cases hadd.symm.trans hadd'
  | deleteStopped | deleteRestarted | renameStopped | renameRestarted =>
    exact h.stay rfl (fun _ => switch_told h.shown) rfl rfl trivial
  | stateSwitched =>
    exact h.stay rfl (fun _ => switch_told h.shown) rfl rfl (congrArg TunnelState.of (if_pos rfl).symm)
  | deletePutBack => exact h.putBack howned ⟨rfl, fun _ => rfl⟩
  | renameFinished => exact h.putBack howned ⟨rfl, fun _ => rfl⟩
  | @renamed r name =>
    have hchanged : Told (w.onNameChanged r.tunnel name) ([.renameFinish r name] ++ ts) :=
      h.stay rfl h.shown rfl rfl trivial
    exact hchanged.putBack (howned.changed ⟨rfl, fun _ => rfl⟩) ⟨rfl, fun _ => rfl⟩
  | @renameRestored r state =>
    have hchanged : Told (w.onStateChanged r.tunnel state) ([.renameQuery r] ++ ts) :=
      h.stay rfl (fun _ => onStateChanged_told h.shown hknows) rfl rfl trivial
    have howned' : Owned (w.onStateChanged r.tunnel state) ([.renameQuery r] ++ ts) :=
      howned.frame rfl rfl rfl rfl rfl rfl
    exact hchanged.putBack howned' ⟨rfl, fun _ => rfl⟩
  | renameQueried => exact h.stay rfl h.shown rfl rfl rfl
  | stateFinished => exact h.switched hwatched
  | stateConfigured | stateUnconfigured | stateLoaded | stateLoadFailed | stateSwitchFailed |
    stateCached => exact h.stay rfl h.shown rfl rfl hknows
  | _ => exact h.stay rfl h.shown rfl rfl trivial

/-- What holds between the steps of a call that runs alone. -/
def Restored (w : World) (ts : List Coroutine) : Prop := (Owned w ts ∧ Watched w ts) ∧ Told w ts

theorem told_invariant (cmp : Comparator JString) : Invariant (system cmp) inTurn Restored := by
  have hwatched : Invariant (system cmp) inTurn fun w ts => Owned w ts ∧ Watched w ts :=
    (watched_invariant cmp).mono onIdle_of_inTurn id
  refine hwatched.and (fun hp h => Told.perm h hp) ?_ ?_
  · exact fun h htold hcall => htold.start h.1 hcall (start_started cmp _ _)
  · exact fun h htold _ hp => htold.resume h.1 h.2 (resume_transition hp)

theorem Settled.restored (h : Settled w) : Restored w [] :=
  ⟨⟨h.owned, h.watched⟩, ⟨Nat.zero_le _, h.state_eq, h.lastUsed_mem, List.forall_mem_nil _⟩⟩

theorem Restored.settled (h : Restored w []) : Settled w := by
  obtain ⟨⟨howned, hwatched⟩, htold⟩ := h
  have hplaces : places w [] = w.tunnelMap := List.append_nil _
  have hnames : ownedNames w [] = w.names := List.append_nil _
  exact ⟨hplaces ▸ howned.nodup, hplaces ▸ howned.constructed, hnames ▸ howned.ledger, htold.shown,
    hplaces ▸ hwatched.placed, htold.lastUsed⟩

/-! ## The tunnel that a call touches -/

/-- A tunnel that the call touches: the one it is issued on, or the one it constructs. -/
def Call.Touches (w : World) (call : Call) (t : ObservableTunnel) : Prop :=
  call.tunnel = some t ∨ call.tunnel = none ∧ t = w.next

/-- While the call runs, the tunnel is not yet constructed or in its place; at the end it may be
gone, with its name. -/
def Traced (t : ObservableTunnel) (w : World) (pool : List Coroutine) : Prop :=
  w.next ≤ t ∨ t ∈ places w pool ∨ pool = [] ∧ w.name t ∉ w.store.keys

theorem Traced.perm (h : Traced t w ts) (hp : ts.Perm ts') : Traced t w ts' := by
  rcases h with hnext | hplaced | ⟨rfl, hgone⟩
  · exact .inl hnext
  · exact .inr (.inl (((hp.flatMap_right _).append_left _).mem_iff.mp hplaced))
  · exact .inr (.inr ⟨hp.nil_eq.symm, hgone⟩)

theorem Traced.kept (h : Traced t w (c :: ts)) (hnext : w'.next = w.next)
    (hplaces : ∀ u ∈ places w (c :: ts), u ∈ places w' (ps ++ ts)) : Traced t w' (ps ++ ts) := by
  rcases h with hlt | hplaced | ⟨hnil, -⟩
  · exact .inl (hnext ▸ hlt)
  · exact .inr (.inl (hplaces t hplaced))
  · cases hnil

theorem Traced.frame (h : Traced t w (c :: ts)) (hnext : w'.next = w.next)
    (htunnelMap : w'.tunnelMap = w.tunnelMap) (hheld : ps.flatMap Coroutine.held = c.held) :
    Traced t w' (ps ++ ts) := by
  refine h.kept hnext fun u hu => ?_
  rw [places, List.flatMap_append, hheld, htunnelMap]
  rwa [places, List.flatMap_cons] at hu

theorem Traced.putBack {r : Removed} {result : Result} (h : Traced t w (c :: ts))
    (howned : Owned w (c :: ts)) (hc : c.Keeps r.tunnel) :
    Traced t (putBack cmp w r result).1 ([] ++ ts) := by
  obtain ⟨tunnelMap, heq, hp⟩ := howned.putBack_eq hc cmp result
  rw [heq]
  refine h.kept rfl fun u hu => ?_
  rw [places, List.flatMap_cons, hc.held] at hu
  exact (hp.append_right _).mem_iff.mpr (List.perm_middle.mem_iff.mp hu)

theorem Traced.created {name : JString} {config : Config} {tunnelMap : List ObservableTunnel}
    (h : Traced t w (.createAdd name config :: ts)) (hp : tunnelMap.Perm (w.next :: w.tunnelMap)) :
    Traced t { w.construct name (some config) .down with tunnelMap := tunnelMap } ([] ++ ts) := by
  have hplaces : (places { w.construct name (some config) .down with tunnelMap := tunnelMap }
      ([] ++ ts)).Perm (w.next :: places w (.createAdd name config :: ts)) := hp.append_right _
  rcases h with hle | hplaced | ⟨hnil, -⟩
  · rcases Nat.eq_or_lt_of_le hle with rfl | hlt
    · exact .inr (.inl (hplaces.mem_iff.mpr List.mem_cons_self))
    · exact .inl hlt
  · exact .inr (.inl (hplaces.mem_iff.mpr (List.mem_cons_of_mem _ hplaced)))
  · cases hnil

/-- The deleted tunnel is gone, and its name with it. -/
theorem Traced.deleted {r : Removed} {store : ConfigStore} (h : Traced t w [.deleteStore r])
    (hstore : w.store.delete (w.name r.tunnel) = some store) :
    Traced t { w with store := store } [] := by
  rcases h with hle | hplaced | ⟨hnil, -⟩
  · exact .inl hle
  · rcases List.mem_append.mp hplaced with hmem | hmem
    · exact .inr (.inl (List.mem_append_left _ hmem))
    · have hgone : w.name r.tunnel ∉ store.keys :=
        (List.nodup_cons.mp ((ConfigStore.keys_delete hstore).nodup w.store.keys_nodup)).1
      rw [List.mem_singleton.mp hmem]
      exact .inr (.inr ⟨rfl, hgone⟩)
  · cases hnil

theorem Traced.resume {o : Outcome} (hrest : Restored w (c :: ts)) (h : Traced t w (c :: ts))
    (hc : c.Answered o) (hstep : Transition cmp w c o w' ps) : Traced t w' (ps ++ ts) := by
  obtain ⟨⟨howned, -⟩, htold⟩ := hrest
  obtain rfl := htold.eq_nil
  cases hstep with
  | created hadd =>
    obtain ⟨tunnelMap, hadd', hp, -⟩ := howned.created cmp
    cases hadd.symm.trans hadd'
    exact h.created hp
  | createRefused hadd =>
    obtain ⟨tunnelMap, hadd', -⟩ := howned.created cmp
    cases hadd.symm.trans hadd'
  | deleted hstore => exact h.deleted hstore
  | deletePutBack => exact h.putBack howned ⟨rfl, fun _ => rfl⟩
  | renameFinished => exact h.putBack howned ⟨rfl, fun _ => rfl⟩
  | @renamed r name =>
    have hchanged : Traced t (w.onNameChanged r.tunnel name) ([.renameFinish r name] ++ []) :=
      h.frame rfl rfl rfl
    exact hchanged.putBack (howned.changed ⟨rfl, fun _ => rfl⟩) ⟨rfl, fun _ => rfl⟩
  | @renameRestored r state =>
    have hchanged : Traced t (w.onStateChanged r.tunnel state) ([.renameQuery r] ++ []) :=
      h.frame rfl rfl rfl
    have howned' : Owned (w.onStateChanged r.tunnel state) ([.renameQuery r] ++ []) :=
      howned.frame rfl rfl rfl rfl rfl rfl
    exact hchanged.putBack howned' ⟨rfl, fun _ => rfl⟩
  | renameQueryFailed => exact hc.elim
  | @stateFinished s newState =>
    cases newState with
    | none => exact h.frame rfl rfl rfl
    | some newState => exact h.frame rfl rfl rfl
  | _ => exact h.frame rfl rfl rfl

theorem Traced.start {call : Call} (htouch : call.Touches w t)
    (hlisted : ∀ u ∈ call.tunnel, u ∈ w.tunnelMap) (hstart : Started cmp w call w' ps) :
    Traced t w' (ps ++ []) := by
  rcases htouch with ht | ⟨hnone, rfl⟩
  · have hmem : t ∈ w.tunnelMap := hlisted t ht
    cases hstart with
    | createRejected | create => cases ht
    | renameRejected | state | config => exact .inr (.inl (List.mem_append_left _ hmem))
    | deleteUp | delete | renameUp | rename =>
      -- the tunnel is in the hands of the call
      cases ht
      exact .inr (.inl (List.mem_append_right _ List.mem_cons_self))
  · cases hstart with
    | createRejected | create => exact .inl (Nat.le_refl _)
    | _ => cases hnone

/-- The outcomes that come back to a call that runs alone. -/
def answered : Discipline World Call Coroutine Outcome where
  start _ _ _ := False
  resume _ c o := c.Answered o

theorem traced_invariant (cmp : Comparator JString) (t : ObservableTunnel) :
    Invariant (system cmp) answered fun w ts => Restored w ts ∧ Traced t w ts := by
  have hrest : Invariant (system cmp) answered Restored :=
    (told_invariant cmp).mono False.elim id
  refine hrest.and (fun hp h => Traced.perm h hp) (fun _ _ h => h.elim) ?_
  exact fun hrest h hc hp => h.resume hrest hc (resume_transition hp)

/-- After each call, whether it returned or threw, list, store and backend agree: the names in the
list are those in the store, the tunnel that the call touched is in the list if its name is stored,
it is shown as the backend has it, and the last used tunnel is in the list. -/
theorem call_restores {store : ConfigStore} {running : List JString} {lastUsedName : Option JString}
    {es : List (Event Call Outcome)} {call : Call} {os : List Outcome} {m m' : Machine World Coroutine}
    (hload : load cmp store running lastUsedName = .ok w)
    (hobeys : Obeys (system cmp) inTurn ⟨w, []⟩ es)
    (hrun : run (system cmp) ⟨w, []⟩ es = some m) (hdone : m.pool = [])
    (hobeys' : Obeys (system cmp) inTurn m (alone call os))
    (hrun' : run (system cmp) m (alone call os) = some m') (hdone' : m'.pool = []) :
    m'.shared.names.Nodup ∧
    (∀ name, name ∈ m'.shared.names ↔ name ∈ m'.shared.store.keys) ∧
    (∀ t, call.Touches m.shared t → t < m'.shared.next →
      (m'.shared.name t ∈ m'.shared.store.keys → t ∈ m'.shared.tunnelMap) ∧
      m'.shared.state t = .of (m'.shared.running t)) ∧
    ∀ t ∈ m'.shared.lastUsedTunnel, t ∈ m'.shared.tunnelMap := by
  have hrest : Restored m.shared m.pool :=
    (told_invariant cmp).run (settled_of_load hload).restored hobeys hrun
  have hrest' : Restored m'.shared m'.pool := (told_invariant cmp).run hrest hobeys' hrun'
  rw [hdone'] at hrest'
  have hsettled := hrest'.settled
  refine ⟨hsettled.stored.nodup m'.shared.store.keys_nodup, fun name => hsettled.stored.mem_iff.symm,
    fun t htouch ht => ⟨fun hname => ?_, hsettled.state_eq t ht⟩, hsettled.lastUsed_mem⟩
  -- the tunnel is traced from the start of the call to its end
  obtain ⟨shared, pool⟩ := m
  obtain rfl : pool = [] := hdone
  rw [alone, run_cons, Option.bind_eq_some_iff] at hrun'
  obtain ⟨m₁, hstep, hrun₁⟩ := hrun'
  obtain ⟨hallows, hrest₁⟩ := hobeys'
  have htraced : Traced t m₁.shared m₁.pool := by
    cases hstep
    exact Traced.start htouch hallows.2 (start_started cmp _ _)
  have hrestored₁ : Restored m₁.shared m₁.pool := (told_invariant cmp).step hrest hallows hstep
  obtain ⟨-, htraced'⟩ := (traced_invariant cmp t).run ⟨hrestored₁, htraced⟩
    (obeys_resumes (hrest₁ m₁ hstep) id) hrun₁
  rw [hdone'] at htraced'
  rcases htraced' with hle | hplaced | ⟨-, hgone⟩
  · exact absurd ht (Nat.not_lt_of_le hle)
  · rwa [places, List.flatMap_nil, List.append_nil] at hplaced
  · exact absurd hname hgone

/-! ## Calls on a small store -/

instance (w : World) (ts : List Coroutine) (call : Call) : Decidable (inTurn.start w ts call) :=
  inferInstanceAs (Decidable (ts = [] ∧ ∀ t ∈ call.tunnel, t ∈ w.tunnelMap))

instance (w : World) (c : Coroutine) (o : Outcome) : Decidable (inTurn.resume w c o) :=
  inferInstanceAs (Decidable ((onListed (TunnelComparator.comparator [])).resume w c o))

/-- The tunnel is brought up. -/
def bringUp : List (Event Call Outcome) :=
  alone (.setTunnelState 0 .up) [.main, .returns [], .main, .returns [], .main]

/-- The renamed tunnel cannot be restarted. -/
def restartFails : List Outcome := [.returns [], .returns [], .main, .throws, .returns [], .main]

theorem rename_restores_after_bringUp :
    ∃ w m m', load (TunnelComparator.comparator []) sampleStore [] none = .ok w ∧
      run (system (TunnelComparator.comparator [])) ⟨w, []⟩ bringUp = some m ∧
      run (system (TunnelComparator.comparator [])) m
        (alone (.setTunnelName 0 (text "home")) restartFails) = some m' ∧
      m'.shared.names = [text "home"] ∧ m'.shared.names.Nodup ∧
      (∀ name, name ∈ m'.shared.names ↔ name ∈ m'.shared.store.keys) ∧
      (∀ t, (Call.setTunnelName 0 (text "home")).Touches m.shared t → t < m'.shared.next →
        (m'.shared.name t ∈ m'.shared.store.keys → t ∈ m'.shared.tunnelMap) ∧
        m'.shared.state t = .of (m'.shared.running t)) ∧
      ∀ t ∈ m'.shared.lastUsedTunnel, t ∈ m'.shared.tunnelMap := by
  have hok : (load (TunnelComparator.comparator []) sampleStore [] none).map (fun w =>
      decide (Obeys (system (TunnelComparator.comparator [])) inTurn ⟨w, []⟩ bringUp) &&
      (run (system (TunnelComparator.comparator [])) ⟨w, []⟩ bringUp).any fun m =>
        decide (m.pool = [] ∧ Obeys (system (TunnelComparator.comparator [])) inTurn m
          (alone (.setTunnelName 0 (text "home")) restartFails)) &&
        (run (system (TunnelComparator.comparator [])) m
          (alone (.setTunnelName 0 (text "home")) restartFails)).any fun m' =>
            decide (m'.pool = [] ∧ m'.shared.names = [text "home"])) = .ok true := by
    decide +kernel
  obtain ⟨w, hload, hboth⟩ := Checked.map_eq_ok hok
  obtain ⟨hobeys, hany⟩ := Bool.and_eq_true_iff.mp hboth
  obtain ⟨m, hrun, hm⟩ := (Option.any_eq_true _ _).mp hany
  obtain ⟨hm, hany'⟩ := Bool.and_eq_true_iff.mp hm
  obtain ⟨hpool, hobeys'⟩ := of_decide_eq_true hm
  obtain ⟨m', hrun', hm'⟩ := (Option.any_eq_true _ _).mp hany'
  obtain ⟨hpool', hnames⟩ := of_decide_eq_true hm'
  exact ⟨w, m, m', hload, hrun, hrun', hnames,
    call_restores hload (of_decide_eq_true hobeys) hrun hpool hobeys' hrun' hpool'⟩

/-- When the store cannot rename the file and the backend cannot tell the state, the tunnel stays
out of the list. A second `delete` of a tunnel puts it back without its file. -/
theorem rename_loses_tunnel :
    ∃ w m m', load (TunnelComparator.comparator []) sampleStore [] none = .ok w ∧
      run (system (TunnelComparator.comparator [])) ⟨w, []⟩
        (alone (.setTunnelName 0 (text "home")) [.throws, .throws]) = some m ∧ m.pool = [] ∧
      text "wg0" ∈ m.shared.store.keys ∧ text "wg0" ∉ m.shared.names ∧
      run (system (TunnelComparator.comparator [])) ⟨w, []⟩
        (alone (.delete 0) [.returns []] ++ alone (.delete 0) [.throws, .main]) = some m' ∧
      m'.pool = [] ∧ text "wg0" ∈ m'.shared.names ∧ text "wg0" ∉ m'.shared.store.keys := by
  have hok : (load (TunnelComparator.comparator []) sampleStore [] none).map (fun w =>
      ((run (system (TunnelComparator.comparator [])) ⟨w, []⟩
        (alone (.setTunnelName 0 (text "home")) [.throws, .throws])).any fun m =>
          decide (m.pool = [] ∧ text "wg0" ∈ m.shared.store.keys ∧ text "wg0" ∉ m.shared.names)) &&
      (run (system (TunnelComparator.comparator [])) ⟨w, []⟩
        (alone (.delete 0) [.returns []] ++ alone (.delete 0) [.throws, .main])).any fun m =>
          decide (m.pool = [] ∧ text "wg0" ∈ m.shared.names ∧ text "wg0" ∉ m.shared.store.keys)) =
      .ok true := by decide +kernel
  obtain ⟨w, hload, hboth⟩ := Checked.map_eq_ok hok
  obtain ⟨hany, hany'⟩ := Bool.and_eq_true_iff.mp hboth
  obtain ⟨m, hrun, hm⟩ := (Option.any_eq_true _ _).mp hany
  obtain ⟨m', hrun', hm'⟩ := (Option.any_eq_true _ _).mp hany'
  obtain ⟨hpool, hkeys, hnames⟩ := of_decide_eq_true hm
  exact ⟨w, m, m', hload, hrun, hpool, hkeys, hnames, hrun', of_decide_eq_true hm'⟩

end WgAndroid.TunnelManager
