import WgAndroid.Backend.Tunnel
import WgAndroid.Config.Sections
import WgAndroid.Lib.AssocList
import WgAndroid.Lib.Interleaving
import WgAndroid.Manager.SortedKeyedList

/-!
# The tunnel manager

`TunnelManager` with the tunnel objects, the config store and the backend it works on. The manager's
calls are coroutines: the code between two suspension points runs on the main thread without a
break, and each backend or store call in between is one atomic step on an IO thread, which takes
its full effect or throws and changes nothing.
-/

namespace WgAndroid

open Interleaving

/-! ## Tunnels -/

/-- A reference to a tunnel object. Equality of tunnels is equality of references. -/
abbrev ObservableTunnel := Nat

/-! ## The config store -/

/-- `ConfigStore`: the stored configurations by name. Each operation is atomic; `none` says that it
cannot succeed. -/
abbrev ConfigStore := AList fun _ : JString => Config

namespace ConfigStore

def create (store : ConfigStore) (name : JString) (config : Config) : Option ConfigStore :=
  if name ∈ store then none else some (store.insert name config)

def delete (store : ConfigStore) (name : JString) : Option ConfigStore :=
  if name ∈ store then some (store.erase name) else none

def rename (store : ConfigStore) (name replacement : JString) : Option ConfigStore :=
  -- createNewFile fails on an existing replacement, renameTo on a missing source
  if replacement ∈ store then none
  else (store.lookup name).map fun config => (store.erase name).insert replacement config

variable {store store' : ConfigStore} {name replacement : JString} {config : Config}

theorem keys_create (h : create store name config = some store') :
    store'.keys = name :: store.keys := by
  rw [create] at h
  split at h
  · cases h
  · next hname =>
    cases h
    exact AssocList.keys_insert_of_not_mem hname

theorem keys_delete (h : delete store name = some store') :
    store.keys.Perm (name :: store'.keys) := by
  rw [delete] at h
  split at h
  · next hname =>
    cases h
    exact AssocList.keys_perm_erase hname
  · cases h

theorem keys_rename (h : rename store name replacement = some store') :
    ∃ rest, store.keys.Perm (name :: rest) ∧ store'.keys = replacement :: rest := by
  rw [rename] at h
  split at h
  · cases h
  · next hreplacement =>
    obtain ⟨config, hconfig, rfl⟩ := Option.map_eq_some_iff.mp h
    have hname : name ∈ store := AList.lookup_isSome.mp (by rw [hconfig]; rfl)
    have hfresh : replacement ∉ store.erase name := fun hmem =>
      hreplacement (AList.mem_erase.mp hmem).2
    exact ⟨_, AssocList.keys_perm_erase hname, AssocList.keys_insert_of_not_mem hfresh⟩

end ConfigStore

namespace TunnelManager

/-! ## The shared state -/

/-- The state that the calls share: the fields of the tunnel objects, by object (those below `next`
have been constructed), the manager's own fields, the store and which tunnels the backend runs. -/
structure World where
  name : ObservableTunnel → JString
  config : ObservableTunnel → Option Config
  state : ObservableTunnel → TunnelState
  next : ObservableTunnel
  tunnelMap : List ObservableTunnel
  lastUsedTunnel : Option ObservableTunnel
  store : ConfigStore
  running : ObservableTunnel → Bool

namespace World

/-- The names in `tunnelMap`. -/
def names (w : World) : List JString := w.tunnelMap.map w.name

def containsKey (cmp : Comparator JString) (w : World) (name : JString) : Bool :=
  SortedKeyedList.containsKey cmp w.name w.tunnelMap name

def onNameChanged (w : World) (t : ObservableTunnel) (name : JString) : World :=
  { w with name := Function.update w.name t name }

def onStateChanged (w : World) (t : ObservableTunnel) (state : TunnelState) : World :=
  { w with state := Function.update w.state t state }

def onConfigChanged (w : World) (t : ObservableTunnel) (config : Config) : World :=
  { w with config := Function.update w.config t (some config) }

/-- Whether the backend is asked to run the tunnel. -/
def goal (w : World) (t : ObservableTunnel) : TunnelState → Bool
  | .up => true
  | .down => false
  | .toggle => !w.running t

/-- The effect of a backend `setState` that succeeds: the tunnel runs or not, the others that it
`stopped` no longer run, and each tunnel whose state changed was told so by `onStateChange`. -/
def switch (w : World) (t : ObservableTunnel) (up : Bool) (stopped : List ObservableTunnel) : World :=
  { w with
    running := fun u => if u = t then up else w.running u && !stopped.contains u
    state := fun u =>
      if u = t then if w.running t = up then w.state t else .of up
      else if w.running u && stopped.contains u then .down else w.state u }

/-- A backend `setState` that succeeds, with the state it returns. Without a config there is nothing
to bring up. -/
def backendSetState (w : World) (t : ObservableTunnel) (state : TunnelState)
    (config : Option Config) (stopped : List ObservableTunnel) : Option (World × TunnelState) :=
  if w.goal t state && config.isNone then none
  else some (w.switch t (w.goal t state) stopped, .of (w.goal t state))

/-- The constructor of a tunnel object. -/
def construct (w : World) (name : JString) (config : Option Config) (state : TunnelState) : World :=
  { w with
    name := Function.update w.name w.next name
    config := Function.update w.config w.next config
    state := Function.update w.state w.next state
    next := w.next + 1 }

def addToList (cmp : Comparator JString) (w : World) (name : JString) (config : Option Config)
    (state : TunnelState) : Except ListException (ObservableTunnel × World) :=
  let tunnel := w.next
  let w := w.construct name config state
  (SortedKeyedList.add cmp w.name w.tunnelMap tunnel).map fun p => (tunnel, { w with tunnelMap := p.2 })

theorem addToList_of_new (cmp : Comparator JString) {w : World} {name : JString} {config : Option Config}
    {state : TunnelState} (hnext : w.next ∉ w.tunnelMap) (hname : name ∉ w.names) :
    ∃ tunnelMap, w.addToList cmp name config state =
        .ok (w.next, { w.construct name config state with tunnelMap := tunnelMap }) ∧
      tunnelMap.Perm (w.next :: w.tunnelMap) := by
  have hnew : ∀ t ∈ w.tunnelMap, (w.construct name config state).name t ≠
      (w.construct name config state).name w.next := by
    intro t ht
    simp only [construct, Function.update_self, Function.update_of_ne (ne_of_mem_of_not_mem ht hnext)]
    exact fun heq => hname (heq ▸ List.mem_map_of_mem ht)
  obtain ⟨tunnelMap, hadd, hp⟩ := SortedKeyedList.add_of_new cmp hnew
  exact ⟨tunnelMap, congrArg (Except.map _) hadd, hp⟩

end World

/-! ## Calls and their suspension points -/

/-- What a call throws. -/
inductive Throwable where
  | invalidName
  | alreadyExists (name : JString)
  | nullConfig
  | list (e : ListException)
  | operation  -- what a backend or store call threw
  deriving DecidableEq

/-- What a call returns. -/
inductive Value where
  | unit
  | tunnel (t : ObservableTunnel)
  | name (name : JString)
  | state (state : TunnelState)
  | config (config : Config)

abbrev Result := Except Throwable Value

inductive Call where
  | create (name : JString) (config : Option Config)
  | delete (tunnel : ObservableTunnel)
  | setTunnelName (tunnel : ObservableTunnel) (name : JString)
  | setTunnelState (tunnel : ObservableTunnel) (state : TunnelState)
  | getTunnelConfig (tunnel : ObservableTunnel)

/-- What `delete` and `setTunnelName` remember of the tunnel they took out of the list. -/
structure Removed where
  tunnel : ObservableTunnel
  originalState : TunnelState
  wasLastUsed : Bool

/-- What `setTunnelState` was asked for, and the state it read at its start. -/
structure Switch where
  tunnel : ObservableTunnel
  state : TunnelState
  originalState : TunnelState

/-- A suspended call, by what it waits for: an operation on an IO thread, or its turn on the main
thread. -/
inductive Coroutine where
  | createStore (name : JString) (config : Option Config)  -- configStore.create
  | createAdd (name : JString) (config : Config)  -- main thread
  | deleteDown (r : Removed)  -- backend.setState DOWN
  | deleteStore (r : Removed)  -- configStore.delete
  | deleteRestart (r : Removed)  -- backend.setState UP, inner catch
  | deletePutBack (r : Removed)  -- main thread, outer catch
  | renameDown (r : Removed) (name : JString)  -- backend.setState DOWN
  | renameStore (r : Removed) (name : JString)  -- configStore.rename
  | renameChange (r : Removed) (name : JString)  -- main thread
  | renameRestart (r : Removed) (name : JString)  -- backend.setState UP
  | renameQuery (r : Removed)  -- backend.getState, catch
  | renameQueried (r : Removed) (state : TunnelState)  -- main thread, catch
  | renameFinish (r : Removed) (name : JString)  -- main thread
  | stateConfig (s : Switch)  -- main thread, getConfigAsync
  | stateLoad (s : Switch)  -- configStore.load
  | stateLoaded (s : Switch) (config : Config)  -- main thread
  | stateSet (s : Switch) (config : Config)  -- backend.setState
  | stateFinish (s : Switch) (newState : Option TunnelState)  -- main thread, none after a throw
  | configLoad (t : ObservableTunnel)  -- configStore.load
  | configLoaded (t : ObservableTunnel) (config : Config)  -- main thread

/-- What lets a suspended call go on: its turn on the main thread, or the operation it waits for
returned or threw. A backend `setState` also stops other tunnels. -/
inductive Outcome where
  | main
  | returns (stopped : List ObservableTunnel)
  | throws

/-- A piece of a call: the state after it, and where the call stands. -/
abbrev Piece := World × Progress Coroutine Result

/-! ## The code of the calls -/

section Code

variable (cmp : Comparator JString) (w : World)

/-- The two checks of a new name, in `create` and `setTunnelName`. -/
def rejects (name : JString) : Option Throwable :=
  if isNameInvalid name then some .invalidName
  else if w.containsKey cmp name then some (.alreadyExists name)
  else none

/-- The first lines of `delete` and `setTunnelName`: what is remembered, and the state without the
tunnel. -/
def takeOut (t : ObservableTunnel) : Removed × World :=
  let wasLastUsed := decide (w.lastUsedTunnel = some t)
  (⟨t, w.state t, wasLastUsed⟩,
    { w with
      lastUsedTunnel := if wasLastUsed then none else w.lastUsedTunnel
      tunnelMap := w.tunnelMap.erase t })

/-- The last lines of `delete`'s failure path and of `setTunnelName`: when the list takes the tunnel,
the call ends with the given result. -/
def putBack (r : Removed) (result : Result) : Piece :=
  match SortedKeyedList.add cmp w.name w.tunnelMap r.tunnel with
  | .ok (_, tunnelMap) =>
    ({ w with
       tunnelMap := tunnelMap
       lastUsedTunnel := if r.wasLastUsed then some r.tunnel else w.lastUsedTunnel },
      .finished result)
  | .error e => (w, .finished (.error (.list e)))

/-- The last lines of `setTunnelState`. -/
def switched (s : Switch) : Option TunnelState → Piece
  | some newState =>
    ({ w.onStateChanged s.tunnel newState with
       lastUsedTunnel := if newState = .up then some s.tunnel else w.lastUsedTunnel },
      .finished (.ok (.state newState)))
  | none => (w.onStateChanged s.tunnel s.originalState, .finished (.error .operation))

/-- A call up to its first suspension point. -/
def start : Call → Piece
  | .create name config =>
    match rejects cmp w name with
    | some e => (w, .finished (.error e))
    | none => (w, .suspended (.createStore name config))
  | .delete t =>
    let (r, w) := takeOut w t
    (w, .suspended (if r.originalState = .up then .deleteDown r else .deleteStore r))
  | .setTunnelName t name =>
    match rejects cmp w name with
    | some e => (w, .finished (.error e))
    | none =>
      let (r, w) := takeOut w t
      (w, .suspended (if r.originalState = .up then .renameDown r name else .renameStore r name))
  | .setTunnelState t state => (w, .suspended (.stateConfig ⟨t, state, w.state t⟩))
  | .getTunnelConfig t => (w, .suspended (.configLoad t))

def resumeCreate : Coroutine → Outcome → Option Piece
  | .createStore name config, .returns _ => do
    let config ← config
    let store ← w.store.create name config
    return ({ w with store }, .suspended (.createAdd name config))
  | .createStore _ config, .throws =>
    some (w, .finished (.error (if config.isSome then .operation else .nullConfig)))
  | .createAdd name config, .main =>
    match w.addToList cmp name (some config) .down with
    | .ok (t, w) => some (w, .finished (.ok (.tunnel t)))
    | .error e => some (w, .finished (.error (.list e)))
  | _, _ => none

def resumeDelete : Coroutine → Outcome → Option Piece
  | .deleteDown r, .returns stopped => do
    let (w, _) ← w.backendSetState r.tunnel .down none stopped
    return (w, .suspended (.deleteStore r))
  | .deleteDown r, .throws => some (w, .suspended (.deletePutBack r))
  | .deleteStore r, .returns _ => do
    let store ← w.store.delete (w.name r.tunnel)
    return ({ w with store }, .finished (.ok .unit))
  | .deleteStore r, .throws =>
    some (w, .suspended (if r.originalState = .up then .deleteRestart r else .deletePutBack r))
  | .deleteRestart r, .returns stopped => do
    let (w, _) ← w.backendSetState r.tunnel .up (w.config r.tunnel) stopped
    return (w, .suspended (.deletePutBack r))
  | .deleteRestart r, .throws => some (w, .suspended (.deletePutBack r))
  | .deletePutBack r, .main => some (putBack cmp w r (.error .operation))
  | _, _ => none

def resumeName : Coroutine → Outcome → Option Piece
  | .renameDown r name, .returns stopped => do
    let (w, _) ← w.backendSetState r.tunnel .down none stopped
    return (w, .suspended (.renameStore r name))
  | .renameDown r _, .throws => some (w, .suspended (.renameQuery r))
  | .renameStore r name, .returns _ => do
    let store ← w.store.rename (w.name r.tunnel) name
    return ({ w with store }, .suspended (.renameChange r name))
  | .renameStore r _, .throws => some (w, .suspended (.renameQuery r))
  | .renameChange r name, .main =>
    let w := w.onNameChanged r.tunnel name
    if r.originalState = .up then some (w, .suspended (.renameRestart r name))
    else some (putBack cmp w r (.ok (.name name)))
  | .renameRestart r name, .returns stopped => do
    let (w, _) ← w.backendSetState r.tunnel .up (w.config r.tunnel) stopped
    return (w, .suspended (.renameFinish r name))
  | .renameRestart r _, .throws => some (w, .suspended (.renameQuery r))
  | .renameQuery r, .returns _ => some (w, .suspended (.renameQueried r (.of (w.running r.tunnel))))
  -- getTunnelState is called inside of the catch block: what it throws leaves setTunnelName
  | .renameQuery _, .throws => some (w, .finished (.error .operation))
  | .renameQueried r state, .main =>
    some (putBack cmp (w.onStateChanged r.tunnel state) r (.error .operation))
  | .renameFinish r name, .main => some (putBack cmp w r (.ok (.name name)))
  | _, _ => none

def resumeState : Coroutine → Outcome → Option Piece
  | .stateConfig s, .main =>
    match w.config s.tunnel with
    | some config => some (w, .suspended (.stateSet s config))
    | none => some (w, .suspended (.stateLoad s))
  | .stateLoad s, .returns _ => do
    let config ← w.store.lookup (w.name s.tunnel)
    return (w, .suspended (.stateLoaded s config))
  | .stateLoad s, .throws => some (w, .suspended (.stateFinish s none))
  | .stateLoaded s config, .main =>
    some (w.onConfigChanged s.tunnel config, .suspended (.stateSet s config))
  | .stateSet s config, .returns stopped => do
    let (w, newState) ← w.backendSetState s.tunnel s.state (some config) stopped
    return (w, .suspended (.stateFinish s (some newState)))
  | .stateSet s _, .throws => some (w, .suspended (.stateFinish s none))
  | .stateFinish s newState, .main => some (switched w s newState)
  | _, _ => none

def resumeConfig : Coroutine → Outcome → Option Piece
  | .configLoad t, .returns _ => do
    let config ← w.store.lookup (w.name t)
    return (w, .suspended (.configLoaded t config))
  | .configLoad _, .throws => some (w, .finished (.error .operation))
  | .configLoaded t config, .main =>
    some (w.onConfigChanged t config, .finished (.ok (.config config)))
  | _, _ => none

/-- A suspended call up to its next suspension point; `none` is an outcome that cannot come back
there. -/
def resume (c : Coroutine) (o : Outcome) : Option Piece :=
  match c with
  | .createStore .. | .createAdd .. => resumeCreate cmp w c o
  | .deleteDown .. | .deleteStore .. | .deleteRestart .. | .deletePutBack .. => resumeDelete cmp w c o
  | .renameDown .. | .renameStore .. | .renameChange .. | .renameRestart .. | .renameQuery ..
  | .renameQueried .. | .renameFinish .. => resumeName cmp w c o
  | .stateConfig .. | .stateLoad .. | .stateLoaded .. | .stateSet .. | .stateFinish .. =>
    resumeState w c o
  | .configLoad .. | .configLoaded .. => resumeConfig w c o

end Code

/-- The manager's calls as a system of coroutines. -/
def system (cmp : Comparator JString) : System World Call Coroutine Outcome Result where
  start := start cmp
  resume := resume cmp

/-! ## Loading -/

/-- The state before the stored tunnels are loaded. The backend knows a tunnel object by its name,
and the objects are made in the order of the stored names. -/
def boot (store : ConfigStore) (running : List JString) : World where
  name _ := []
  config _ := none
  state _ := .down
  next := 0
  tunnelMap := []
  lastUsedTunnel := none
  store := store
  running t := store.keys[t]?.any running.contains

/-- One round of the loop of `onTunnelsLoaded`. -/
def loadTunnel (cmp : Comparator JString) (running : List JString) (w : World) (name : JString) :
    Except ListException World :=
  (w.addToList cmp name none (.of (running.contains name))).map Prod.snd

def onTunnelsLoaded (cmp : Comparator JString) (w : World) (present running : List JString)
    (lastUsedName : Option JString) : Except ListException World := do
  let w ← present.foldlM (loadTunnel cmp running) w
  return { w with
    lastUsedTunnel := lastUsedName.bind (SortedKeyedList.get? cmp w.name w.tunnelMap) }

/-- The manager after the start of the app, on a store and with the names that the backend reports
as running. -/
def load (cmp : Comparator JString) (store : ConfigStore) (running : List JString)
    (lastUsedName : Option JString) : Except ListException World :=
  onTunnelsLoaded cmp (boot store running) store.keys running lastUsedName

end TunnelManager

end WgAndroid
