import WgAndroid.Manager.TunnelManager

/-!
# The steps of the tunnel manager

The code of the manager's calls as a relation: what issuing a call and what resuming it can do to
the state and to the pool of suspended calls. Every invariant is proved over this relation.

Results:
1. `start_started`: what issuing a call can do.
2. `resume_transition`: what one step of a suspended call can do.
-/

namespace WgAndroid.TunnelManager

open Interleaving

/-- One step of a suspended call: the state after it, and what the call leaves in the pool. -/
inductive Transition (cmp : Comparator JString) (w : World) :
    Coroutine → Outcome → World → List Coroutine → Prop where
  | createStored {name config store stopped} : w.store.create name config = some store →
      Transition cmp w (.createStore name (some config)) (.returns stopped) { w with store := store }
        [.createAdd name config]
  | createFailed {name config} : Transition cmp w (.createStore name config) .throws w []
  | created {name config t w'} : w.addToList cmp name (some config) .down = .ok (t, w') →
      Transition cmp w (.createAdd name config) .main w' []
  | createRefused {name config e} : w.addToList cmp name (some config) .down = .error e →
      Transition cmp w (.createAdd name config) .main w []
  | deleteStopped {r stopped} :
      Transition cmp w (.deleteDown r) (.returns stopped) (w.switch r.tunnel false stopped)
        [.deleteStore r]
  | deleteStopFailed {r} : Transition cmp w (.deleteDown r) .throws w [.deletePutBack r]
  | deleted {r store stopped} : w.store.delete (w.name r.tunnel) = some store →
      Transition cmp w (.deleteStore r) (.returns stopped) { w with store := store } []
  | deleteFailedUp {r} : r.originalState = .up →
      Transition cmp w (.deleteStore r) .throws w [.deleteRestart r]
  | deleteFailed {r} : r.originalState ≠ .up →
      Transition cmp w (.deleteStore r) .throws w [.deletePutBack r]
  | deleteRestarted {r stopped} :
      Transition cmp w (.deleteRestart r) (.returns stopped) (w.switch r.tunnel true stopped)
        [.deletePutBack r]
  | deleteRestartFailed {r} : Transition cmp w (.deleteRestart r) .throws w [.deletePutBack r]
  | deletePutBack {r} :
      Transition cmp w (.deletePutBack r) .main (putBack cmp w r (.error .operation)).1 []
  | renameStopped {r name stopped} :
      Transition cmp w (.renameDown r name) (.returns stopped) (w.switch r.tunnel false stopped)
        [.renameStore r name]
  | renameStopFailed {r name} : Transition cmp w (.renameDown r name) .throws w [.renameQuery r]
  | renameStored {r name store stopped} : w.store.rename (w.name r.tunnel) name = some store →
      Transition cmp w (.renameStore r name) (.returns stopped) { w with store := store }
        [.renameChange r name]
  | renameStoreFailed {r name} : Transition cmp w (.renameStore r name) .throws w [.renameQuery r]
  | renamedUp {r name} : r.originalState = .up →
      Transition cmp w (.renameChange r name) .main (w.onNameChanged r.tunnel name)
        [.renameRestart r name]
  | renamed {r name} : r.originalState ≠ .up →
      Transition cmp w (.renameChange r name) .main
        (putBack cmp (w.onNameChanged r.tunnel name) r (.ok (.name name))).1 []
  | renameRestarted {r name stopped} :
      Transition cmp w (.renameRestart r name) (.returns stopped) (w.switch r.tunnel true stopped)
        [.renameFinish r name]
  | renameRestartFailed {r name} :
      Transition cmp w (.renameRestart r name) .throws w [.renameQuery r]
  | renameQueried {r stopped} :
      Transition cmp w (.renameQuery r) (.returns stopped) w
        [.renameQueried r (.of (w.running r.tunnel))]
  | renameQueryFailed {r} : Transition cmp w (.renameQuery r) .throws w []
  | renameRestored {r state} :
      Transition cmp w (.renameQueried r state) .main
        (putBack cmp (w.onStateChanged r.tunnel state) r (.error .operation)).1 []
  | renameFinished {r name} :
      Transition cmp w (.renameFinish r name) .main (putBack cmp w r (.ok (.name name))).1 []
  | stateConfigured {s config} : w.config s.tunnel = some config →
      Transition cmp w (.stateConfig s) .main w [.stateSet s config]
  | stateUnconfigured {s} : w.config s.tunnel = none →
      Transition cmp w (.stateConfig s) .main w [.stateLoad s]
  | stateLoaded {s config stopped} : w.store.lookup (w.name s.tunnel) = some config →
      Transition cmp w (.stateLoad s) (.returns stopped) w [.stateLoaded s config]
  | stateLoadFailed {s} : Transition cmp w (.stateLoad s) .throws w [.stateFinish s none]
  | stateCached {s config} :
      Transition cmp w (.stateLoaded s config) .main (w.onConfigChanged s.tunnel config)
        [.stateSet s config]
  | stateSwitched {s config stopped} :
      Transition cmp w (.stateSet s config) (.returns stopped)
        (w.switch s.tunnel (w.goal s.tunnel s.state) stopped)
        [.stateFinish s (some (.of (w.goal s.tunnel s.state)))]
  | stateSwitchFailed {s config} :
      Transition cmp w (.stateSet s config) .throws w [.stateFinish s none]
  | stateFinished {s newState} :
      Transition cmp w (.stateFinish s newState) .main (switched w s newState).1 []
  | configLoaded {t config stopped} : w.store.lookup (w.name t) = some config →
      Transition cmp w (.configLoad t) (.returns stopped) w [.configLoaded t config]
  | configLoadFailed {t} : Transition cmp w (.configLoad t) .throws w []
  | configCached {t config} :
      Transition cmp w (.configLoaded t config) .main (w.onConfigChanged t config) []

variable {cmp : Comparator JString} {w : World} {c : Coroutine} {o : Outcome} {p : Piece}

theorem backendSetState_eq_some {t : ObservableTunnel} {state : TunnelState} {config : Option Config}
    {stopped : List ObservableTunnel} {q : World × TunnelState}
    (h : w.backendSetState t state config stopped = some q) :
    q = (w.switch t (w.goal t state) stopped, .of (w.goal t state)) := by
  rw [World.backendSetState] at h
  split at h
  · cases h
  · exact (Option.some.inj h).symm

/-- A call that puts its tunnel back is finished. -/
@[simp] theorem putBack_pool {r : Removed} {result : Result} : (putBack cmp w r result).2.pool = [] := by
  rw [putBack]
  split <;> rfl

@[simp] theorem switched_pool {s : Switch} {newState : Option TunnelState} :
    (switched w s newState).2.pool = [] := by
  cases newState <;> rfl

theorem resumeCreate_transition (h : resumeCreate cmp w c o = some p) :
    Transition cmp w c o p.1 p.2.pool := by
  revert h
  fun_cases resumeCreate cmp w c o with
  | case1 name config stopped =>
    simp only [Option.bind_eq_bind, Option.bind_eq_some_iff]
    rintro ⟨config, rfl, store, hstore, h⟩
    cases h
    exact .createStored hstore
  | case2 name config =>
    rintro ⟨⟩
    exact .createFailed
  | case3 name config t w' hadd =>
    rintro ⟨⟩
    exact .created hadd
  | case4 name config e hadd =>
    rintro ⟨⟩
    exact .createRefused hadd
  | case5 => rintro ⟨⟩

theorem resumeDelete_transition (h : resumeDelete cmp w c o = some p) :
    Transition cmp w c o p.1 p.2.pool := by
  revert h
  fun_cases resumeDelete cmp w c o with
  | case1 r stopped =>
    simp only [Option.bind_eq_bind, Option.bind_eq_some_iff]
    rintro ⟨q, hq, h⟩
    cases h
    rw [backendSetState_eq_some hq]
    exact .deleteStopped
  | case2 r =>
    rintro ⟨⟩
    exact .deleteStopFailed
  | case3 r stopped =>
    simp only [Option.bind_eq_bind, Option.bind_eq_some_iff]
    rintro ⟨store, hstore, h⟩
    cases h
    exact .deleted hstore
  | case4 r =>
    rintro ⟨⟩
    split
    · next hup => exact .deleteFailedUp hup
    · next hup => exact .deleteFailed hup
  | case5 r stopped =>
    simp only [Option.bind_eq_bind, Option.bind_eq_some_iff]
    rintro ⟨q, hq, h⟩
    cases h
    rw [backendSetState_eq_some hq]
    exact .deleteRestarted
  | case6 r =>
    rintro ⟨⟩
    exact .deleteRestartFailed
  | case7 r =>
    rintro ⟨⟩
    rw [putBack_pool]
    exact .deletePutBack
  | case8 => rintro ⟨⟩

theorem resumeName_transition (h : resumeName cmp w c o = some p) :
    Transition cmp w c o p.1 p.2.pool := by
  revert h
  fun_cases resumeName cmp w c o with
  | case1 r name stopped =>
    simp only [Option.bind_eq_bind, Option.bind_eq_some_iff]
    rintro ⟨q, hq, h⟩
    cases h
    rw [backendSetState_eq_some hq]
    exact .renameStopped
  | case2 r name =>
    rintro ⟨⟩
    exact .renameStopFailed
  | case3 r name stopped =>
    simp only [Option.bind_eq_bind, Option.bind_eq_some_iff]
    rintro ⟨store, hstore, h⟩
    cases h
    exact .renameStored hstore
  | case4 r name =>
    rintro ⟨⟩
    exact .renameStoreFailed
  | case5 r name w' hup =>
    rintro ⟨⟩
    exact .renamedUp hup
  | case6 r name w' hup =>
    rintro ⟨⟩
    rw [putBack_pool]
    exact .renamed hup
  | case7 r name stopped =>
    simp only [Option.bind_eq_bind, Option.bind_eq_some_iff]
    rintro ⟨q, hq, h⟩
    cases h
    rw [backendSetState_eq_some hq]
    exact .renameRestarted
  | case8 r name =>
    rintro ⟨⟩
    exact .renameRestartFailed
  | case9 r stopped =>
    rintro ⟨⟩
    exact .renameQueried
  | case10 r =>
    rintro ⟨⟩
    exact .renameQueryFailed
  | case11 r state =>
    rintro ⟨⟩
    rw [putBack_pool]
    exact .renameRestored
  | case12 r name =>
    rintro ⟨⟩
    rw [putBack_pool]
    exact .renameFinished
  | case13 => rintro ⟨⟩

theorem resumeState_transition (h : resumeState w c o = some p) :
    Transition cmp w c o p.1 p.2.pool := by
  revert h
  fun_cases resumeState w c o with
  | case1 s config hconfig =>
    rintro ⟨⟩
    exact .stateConfigured hconfig
  | case2 s hconfig =>
    rintro ⟨⟩
    exact .stateUnconfigured hconfig
  | case3 s stopped =>
    simp only [Option.bind_eq_bind, Option.bind_eq_some_iff]
    rintro ⟨config, hconfig, h⟩
    cases h
    exact .stateLoaded hconfig
  | case4 s =>
    rintro ⟨⟩
    exact .stateLoadFailed
  | case5 s config =>
    rintro ⟨⟩
    exact .stateCached
  | case6 s config stopped =>
    simp only [Option.bind_eq_bind, Option.bind_eq_some_iff]
    rintro ⟨q, hq, h⟩
    cases h
    rw [backendSetState_eq_some hq]
    exact .stateSwitched
  | case7 s config =>
    rintro ⟨⟩
    exact .stateSwitchFailed
  | case8 s newState =>
    rintro ⟨⟩
    rw [switched_pool]
    exact .stateFinished
  | case9 => rintro ⟨⟩

theorem resumeConfig_transition (h : resumeConfig w c o = some p) :
    Transition cmp w c o p.1 p.2.pool := by
  revert h
  fun_cases resumeConfig w c o with
  | case1 t stopped =>
    simp only [Option.bind_eq_bind, Option.bind_eq_some_iff]
    rintro ⟨config, hconfig, h⟩
    cases h
    exact .configLoaded hconfig
  | case2 t =>
    rintro ⟨⟩
    exact .configLoadFailed
  | case3 t config =>
    rintro ⟨⟩
    exact .configCached
  | case4 => rintro ⟨⟩

/-- What one step of a suspended call can do. -/
theorem resume_transition (h : resume cmp w c o = some p) : Transition cmp w c o p.1 p.2.pool := by
  cases c with
  | createStore | createAdd => exact resumeCreate_transition h
  | deleteDown | deleteStore | deleteRestart | deletePutBack => exact resumeDelete_transition h
  | renameDown | renameStore | renameChange | renameRestart | renameQuery | renameQueried
  | renameFinish => exact resumeName_transition h
  | stateConfig | stateLoad | stateLoaded | stateSet | stateFinish => exact resumeState_transition h
  | configLoad | configLoaded => exact resumeConfig_transition h

/-- What issuing a call can do: nothing, or the call waits for its first operation. -/
inductive Started (cmp : Comparator JString) (w : World) : Call → World → List Coroutine → Prop where
  | createRejected {name config e} : rejects cmp w name = some e →
      Started cmp w (.create name config) w []
  | create {name config} : rejects cmp w name = none →
      Started cmp w (.create name config) w [.createStore name config]
  | deleteUp {t} : w.state t = .up →
      Started cmp w (.delete t) (takeOut w t).2 [.deleteDown (takeOut w t).1]
  | delete {t} : w.state t ≠ .up →
      Started cmp w (.delete t) (takeOut w t).2 [.deleteStore (takeOut w t).1]
  | renameRejected {t name e} : rejects cmp w name = some e →
      Started cmp w (.setTunnelName t name) w []
  | renameUp {t name} : rejects cmp w name = none → w.state t = .up →
      Started cmp w (.setTunnelName t name) (takeOut w t).2 [.renameDown (takeOut w t).1 name]
  | rename {t name} : rejects cmp w name = none → w.state t ≠ .up →
      Started cmp w (.setTunnelName t name) (takeOut w t).2 [.renameStore (takeOut w t).1 name]
  | state {t state} :
      Started cmp w (.setTunnelState t state) w [.stateConfig ⟨t, state, w.state t⟩]
  | config {t} : Started cmp w (.getTunnelConfig t) w [.configLoad t]

theorem start_started (cmp : Comparator JString) (w : World) (call : Call) :
    Started cmp w call (start cmp w call).1 (start cmp w call).2.pool := by
  fun_cases start cmp w call with
  | case1 name config e he => exact .createRejected he
  | case2 name config he => exact .create he
  | case3 t r w' ht =>
    cases ht
    show Started cmp w _ (takeOut w t).2
      [if w.state t = .up then .deleteDown (takeOut w t).1 else .deleteStore (takeOut w t).1]
    split
    · next hup => exact .deleteUp hup
    · next hup => exact .delete hup
  | case4 t name e he => exact .renameRejected he
  | case5 t name he r w' ht =>
    cases ht
    show Started cmp w _ (takeOut w t).2
      [if w.state t = .up then .renameDown (takeOut w t).1 name else .renameStore (takeOut w t).1 name]
    split
    · next hup => exact .renameUp he hup
    · next hup => exact .rename he hup
  | case6 t state => exact .state
  | case7 t => exact .config

end WgAndroid.TunnelManager
