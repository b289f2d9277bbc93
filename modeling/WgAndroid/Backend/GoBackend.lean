import WgAndroid.Backend.Tunnel
import WgAndroid.Config.Sections
import WgAndroid.Lib.Routine

/-!
# The userspace backend

`GoBackend`: one tunnel at a time, run by wireguard-go behind Android's `VpnService`. Everything that
the platform decides (the authorisation, the start of the service, name resolution, the builder, the
tun device, the Go library) is an outcome that the code is given.

Results:
1. `setState_up`, `setState_down`: what a call leaves running, when it returns and when it throws.
2. `reachable_runs`: in every reachable state the three fields and the Go handles belong together.
3. `setState_throws`: a start that throws leaves the old tunnel running, or none.
-/

namespace WgAndroid.GoBackend

open Routine

/-- The calls to `VpnService.Builder`, in the order in which `setStateInternal` makes them. -/
inductive BuilderCall where
  | setSession (name : JString)
  | addDisallowedApplication (application : JString)
  | addAllowedApplication (application : JString)
  | addAddress (address : InetAddress) (mask : Nat)
  | addDnsServer (address : InetAddress)
  | addSearchDomain (domain : JString)
  | addRoute (address : InetAddress) (mask : Nat)
  | allowInet4
  | allowInet6
  | setMtu (mtu : Nat)
  | setMetered
  | setUnderlyingNetworks
  | setBlocking

/-- `metered`: the API level of `setMetered` (29) is reached. -/
def builderCalls (metered : Bool) (name : JString) (config : Config) : List BuilderCall :=
  let i := config.interfaze
  let routes := config.peers.flatMap fun peer => peer.allowedIps.elems
  let sawDefaultRoute := routes.any fun addr => addr.mask == 0
  List.flatten
    [[.setSession name],
      i.excludedApplications.elems.map .addDisallowedApplication,
      i.includedApplications.elems.map .addAllowedApplication,
      i.addresses.elems.map fun addr => .addAddress addr.address addr.mask,
      i.dnsServers.elems.map .addDnsServer,
      i.dnsSearchDomains.elems.map .addSearchDomain,
      routes.map fun addr => .addRoute addr.address addr.mask,
      -- "Kill-switch" semantics
      if sawDefaultRoute && config.peers.length == 1 then [] else [.allowInet4, .allowInet6],
      [.setMtu (i.mtu.getD 1280)],
      if metered then [.setMetered] else [],
      [.setUnderlyingNetworks, .setBlocking]]

/-! ## State -/

/-- A `VpnService` object: whether it has an owner, which is the one backend. -/
structure Service where
  owned : Bool
  deriving DecidableEq

/-- The fields of the backend, `vpnService` (a future, which has its service or not) and the tunnels
of the Go library by handle. Tunnels and configs are references, and are compared as such. -/
structure World (T C : Type) where
  currentTunnel : Option T
  currentConfig : Option C
  currentTunnelHandle : Int
  vpnService : Option Service
  tunnelHandles : List (Nat × T × C)
  reports : List (T × TunnelState)
  deriving DecidableEq

def World.init {T C : Type} : World T C := ⟨none, none, -1, none, [], []⟩

inductive Await where
  | returns
  | timeout
  | throws

inductive Establish where
  | tun
  | null
  | throws

/-- What the platform does during one attempt to bring a tunnel up. -/
structure Platform where
  metered : Bool
  authorised : Bool
  startsService : Bool
  awaits : Await
  resolves : Nat → InetEndpoint → Bool
  interrupts : Nat → Bool
  rejects : Nat → BuilderCall → Bool
  establishes : Establish
  turnsOn : (used : List Nat) → Option { h : Nat // h ∉ used }

/-- `for i = 0; i < math.MaxInt32; i++` in `wgTurnOn`: the lowest handle that is not in use. -/
def lowestFree (used : List Nat) : Nat → Nat → Option { h : Nat // h ∉ used }
  | 0, _ => none
  | left + 1, i => if h : i ∈ used then lowestFree used left (i + 1) else some ⟨i, h⟩

/-- `wgTurnOn` of the Go library, when the device comes up. -/
def goTurnOn (used : List Nat) : Option { h : Nat // h ∉ used } := lowestFree used 2147483647 0

/-! ## Code -/

section Code

variable {T C : Type} [DecidableEq T] [DecidableEq C] (name : T → JString) (contents : C → Config)

/-- A step of the backend. -/
abbrev Step (T C α : Type) := Routine (World T C) BackendException α

def getState (w : World T C) (tunnel : T) : TunnelState :=
  if w.currentTunnel = some tunnel then .up else .down

def onStateChange (tunnel : T) (state : TunnelState) : Step T C Unit :=
  modify fun w => { w with reports := (tunnel, state) :: w.reports }

/-- `vpnService.get(2, SECONDS)`, on a future that has its service already or not. -/
def getService (done : Bool) : Await → Step T C Unit
  | .returns => pure ()
  | .timeout => require done .unableToStartVpn
  | .throws => throw .platform

/-- From `startService` to `setOwner`. -/
def awaitService (p : Platform) : Step T C Unit := do
  let w ← get
  require (w.vpnService.isSome || p.startsService) .platform
  getService w.vpnService.isSome p.awaits
  modify fun w => { w with vpnService := some ⟨true⟩ }

def dnsResolutionRetries : Nat := 10

/-- The loop `dnsRetry`, with the number of rounds that are left. -/
def dnsRetry (p : Platform) (endpoints : List InetEndpoint) : Nat → Nat → Step T C Unit
  | 0, _ => pure ()
  | left + 1, i =>
    match endpoints.find? fun ep => !p.resolves i ep with
    | none => pure ()
    | some ep =>
      if 0 < left then
        if p.interrupts i then throw .platform else dnsRetry p endpoints left (i + 1)
      else throw (.dnsResolutionFailure ep.host)

/-- The builder, up to `establish`. -/
def buildTun (p : Platform) (calls : List BuilderCall) : Step T C Unit := do
  require (calls.zipIdx.all fun c => !p.rejects c.2 c.1) .platform
  match p.establishes with
  | .throws => throw .platform
  | .null => throw .tunCreationError
  | .tun => pure ()

def wgTurnOn (p : Platform) (tunnel : T) (config : C) : Step T C Int := do
  let w ← get
  match p.turnsOn (w.tunnelHandles.map Prod.fst) with
  | none => pure (-1)
  | some h =>
    modify fun w => { w with tunnelHandles := (h.1, tunnel, config) :: w.tunnelHandles }
    pure h.1

def wgTurnOff (w : World T C) (handle : Int) : World T C :=
  { w with tunnelHandles := w.tunnelHandles.filter fun e => (e.1 : Int) ≠ handle }

/-- `setStateInternal(tunnel, config, UP)` from the start of the service on. -/
def bringUp (p : Platform) (tunnel : T) (config : C) : Step T C Unit := do
  awaitService p
  let w ← get
  if w.currentTunnelHandle ≠ -1 then pure ()
  else do
    dnsRetry p ((contents config).peers.filterMap Peer.endpoint) dnsResolutionRetries 0
    buildTun p (builderCalls p.metered (name tunnel) (contents config))
    let handle ← wgTurnOn p tunnel config
    modify fun w => { w with currentTunnelHandle := handle }
    require (0 ≤ handle) (.goActivationErrorCode handle)
    modify fun w => { w with currentTunnel := some tunnel, currentConfig := some config }
    onStateChange tunnel .up

/-- The fields are reset before the Go library is told. -/
def reset (w : World T C) : World T C :=
  wgTurnOff
    { w with currentTunnel := none, currentTunnelHandle := -1, currentConfig := none }
    w.currentTunnelHandle

/-- `setStateInternal(tunnel, null, DOWN)`. `interrupted`: `vpnService.get(0)` throws something other
than the timeout, which is ignored. -/
def takeDown (interrupted : Bool) (tunnel : T) : Step T C Unit := do
  let w ← get
  if w.currentTunnelHandle = -1 then pure ()
  else do
    modify reset
    require (!interrupted) .platform
    onStateChange tunnel .down

/-- `setStateInternal(tunnel, config, UP)`. -/
def setUp (p : Platform) (tunnel : T) (config : Option C) : Step T C Unit :=
  match config with
  | none => throw .tunnelMissingConfig
  | some config =>
    if p.authorised then bringUp name contents p tunnel config else throw .vpnNotAuthorized

/-- What the platform does during one call of `setState`: while the old tunnel is taken down, while
the new one is brought up, and while the old one is brought up again. -/
structure Outcomes where
  interrupted : Bool
  start : Platform
  rollback : Platform

/-- `TOGGLE` stands for the opposite of the state that the tunnel is in. -/
def target (w : World T C) (tunnel : T) : TunnelState → TunnelState
  | .toggle => if getState w tunnel = .up then .down else .up
  | state => state

/-- `setState` with target `UP`, when the tunnel does not already run with the config. -/
def replace (o : Outcomes) (tunnel : T) (config : Option C) : Step T C Unit := do
  let w ← get
  let originalConfig := w.currentConfig
  match w.currentTunnel with
  | none => setUp name contents o.start tunnel config
  | some originalTunnel =>
    takeDown o.interrupted originalTunnel
    tryCatch (setUp name contents o.start tunnel config) fun e => do
      setUp name contents o.rollback originalTunnel originalConfig
      throw e

/-- The change itself, from `if (state == State.UP)` on. -/
def applyState (o : Outcomes) (tunnel : T) (state : TunnelState) (config : Option C) : Step T C Unit := do
  let w ← get
  if state = .up then replace name contents o tunnel config
  else if state = .down ∧ w.currentTunnel = some tunnel then takeDown o.interrupted tunnel
  else pure ()

def setState (o : Outcomes) (tunnel : T) (state : TunnelState) (config : Option C) :
    Step T C TunnelState := do
  let w ← get
  let originalState := getState w tunnel
  let state := target w tunnel state
  if state = originalState ∧ w.currentTunnel = some tunnel ∧ w.currentConfig = config then
    pure originalState
  else do
    applyState name contents o tunnel state config
    let w ← get
    pure (getState w tunnel)

/-- `VpnService.onCreate`, also when the service starts late or by the always-on feature. -/
def onCreate (w : World T C) : World T C :=
  { w with vpnService := w.vpnService.or (some ⟨false⟩) }

/-- `VpnService.onDestroy` -/
def onDestroy (w : World T C) : World T C :=
  match w.vpnService with
  | none => w
  | some service =>
    let w :=
      match service.owned, w.currentTunnel with
      | true, some tunnel =>
        let w := if w.currentTunnelHandle ≠ -1 then wgTurnOff w w.currentTunnelHandle else w
        { w with
          currentTunnel := none, currentTunnelHandle := -1, currentConfig := none
          reports := (tunnel, .down) :: w.reports }
      | _, _ => w
    { w with vpnService := none }

/-- What happens to the backend, each event running to its end before the next. -/
inductive Event (T C : Type) where
  | setState (o : Outcomes) (tunnel : T) (state : TunnelState) (config : Option C)
  | onCreate
  | onDestroy

def step (w : World T C) : Event T C → World T C
  | .setState o tunnel state config => (exec (setState name contents o tunnel state config) w).2
  | .onCreate => onCreate w
  | .onDestroy => onDestroy w

def run (w : World T C) (es : List (Event T C)) : World T C := es.foldl (step name contents) w

end Code

/-! ## What runs -/

/-- The fields and the Go library agree on what runs: nothing, or one tunnel with one config. -/
def Runs {T C : Type} (w : World T C) : Option (T × C) → Prop
  | none =>
    w.currentTunnel = none ∧ w.currentConfig = none ∧ w.currentTunnelHandle = -1 ∧
      w.tunnelHandles = []
  | some (tunnel, config) =>
    w.currentTunnel = some tunnel ∧ w.currentConfig = some config ∧
      ∃ h : Nat, w.currentTunnelHandle = h ∧ w.tunnelHandles = [(h, tunnel, config)]

variable {T C : Type} [DecidableEq T] [DecidableEq C] {name : T → JString} {contents : C → Config}
  {w w' : World T C} {p : Platform} {o : Outcomes} {tunnel : T} {config : C} {current : Option (T × C)}

omit [DecidableEq T] [DecidableEq C] in
theorem Runs.congr (h : Runs w current) (htunnel : w'.currentTunnel = w.currentTunnel)
    (hconfig : w'.currentConfig = w.currentConfig)
    (hhandle : w'.currentTunnelHandle = w.currentTunnelHandle)
    (hhandles : w'.tunnelHandles = w.tunnelHandles) : Runs w' current := by
  rcases current with _ | ⟨tunnel, config⟩
  · simpa only [Runs, htunnel, hconfig, hhandle, hhandles] using h
  · simpa only [Runs, htunnel, hconfig, hhandle, hhandles] using h

omit [DecidableEq T] [DecidableEq C] in
theorem Runs.unique {current' : Option (T × C)} (h : Runs w current) (h' : Runs w current') :
    current = current' := by
  rcases current with _ | ⟨t, c⟩ <;> rcases current' with _ | ⟨t', c'⟩
  · rfl
  · cases h.1.symm.trans h'.1
  · cases h.1.symm.trans h'.1
  · cases h.1.symm.trans h'.1
    cases h.2.1.symm.trans h'.2.1
    rfl

/-! ## Bringing a tunnel up -/

section BringUp

omit [DecidableEq T] [DecidableEq C]

variable {P : World T C → Prop}

theorem getService_keeps {done : Bool} {await : Await} :
    Keeps P (getService done await : Step T C Unit) := by
  cases await with
  | returns => exact Keeps.pure
  | timeout => exact Keeps.require
  | throws => exact Keeps.throw

theorem awaitService_runs : Keeps (Runs · current) (awaitService p : Step T C Unit) := by
  refine Triple.read fun w₀ _ => Triple.bind Keeps.require fun _ => ?_
  refine Triple.bind getService_keeps fun _ => Triple.modify fun w hw => ?_
  exact hw.congr rfl rfl rfl rfl

/-- Resolving names changes nothing, however many rounds it takes. -/
theorem dnsRetry_keeps {endpoints : List InetEndpoint} {left i : Nat} :
    Keeps P (dnsRetry p endpoints left i : Step T C Unit) := by
  induction left generalizing i with
  | zero => exact Keeps.pure
  | succ left ih =>
    unfold dnsRetry
    split
    · exact Keeps.pure
    · exact Triple.ite (fun _ => Triple.ite (fun _ => Keeps.throw) fun _ => ih) fun _ => Keeps.throw

theorem buildTun_keeps {calls : List BuilderCall} : Keeps P (buildTun p calls : Step T C Unit) := by
  refine Triple.bind Keeps.require fun _ => ?_
  split
  · exact Keeps.throw
  · exact Keeps.throw
  · exact Keeps.pure

/-- Either nothing was started, or the one new handle runs the tunnel. -/
def TurnedOn (tunnel : T) (config : C) (handle : Int) (w : World T C) : Prop :=
  w.currentTunnel = none ∧ w.currentConfig = none ∧
    (handle = -1 ∧ w.tunnelHandles = [] ∨ ∃ h : Nat, handle = h ∧ w.tunnelHandles = [(h, tunnel, config)])

theorem wgTurnOn_turnedOn :
    Triple (Runs · none) (wgTurnOn p tunnel config) (TurnedOn tunnel config) fun _ => (Runs · none) := by
  refine Triple.read fun w₀ _ => ?_
  split
  · exact Triple.pure fun w hw => ⟨hw.1, hw.2.1, .inl ⟨rfl, hw.2.2.2⟩⟩
  · next h _ =>
    refine Triple.bind (Q := fun _ => TurnedOn tunnel config h.1) (Triple.modify fun w hw => ?_)
      fun _ => Triple.pure fun _ => id
    exact ⟨hw.1, hw.2.1, .inr ⟨h.1, rfl, congrArg _ hw.2.2.2⟩⟩

/-- From nothing running, the tunnel runs at the end, or nothing. -/
theorem bringUp_runs :
    Triple (Runs · none) (bringUp name contents p tunnel config)
      (fun _ => (Runs · (some (tunnel, config)))) fun _ => (Runs · none) := by
  refine Triple.bind awaitService_runs fun _ => Triple.read fun w₀ h₀ => ?_
  refine Triple.ite (fun hup => absurd h₀.2.2.1 hup) fun _ => ?_
  refine Triple.bind dnsRetry_keeps fun _ => Triple.bind buildTun_keeps fun _ => ?_
  refine Triple.bind wgTurnOn_turnedOn fun handle => ?_
  -- the handle is assigned before it is checked, but a failed start has the handle of no tunnel
  refine Triple.bind (Q := fun _ w => TurnedOn tunnel config handle w ∧ w.currentTunnelHandle = handle)
    (Triple.modify fun w hw => ⟨hw, rfl⟩) fun _ => ?_
  refine Triple.bind (Q := fun _ (w : World T C) => ∃ h : Nat, w.currentTunnelHandle = h ∧
    w.tunnelHandles = [(h, tunnel, config)]) (Triple.require ?_ ?_) fun _ => ?_
  · rintro w ⟨⟨-, -, hstarted⟩, hhandle⟩ hnonneg
    rcases hstarted with ⟨rfl, -⟩ | ⟨h, rfl, hhandles⟩
    · exact absurd hnonneg (by decide)
    · exact ⟨h, hhandle, hhandles⟩
  · rintro w ⟨⟨htunnel, hconfig, hstarted⟩, hhandle⟩ hnegative
    rcases hstarted with ⟨rfl, hhandles⟩ | ⟨h, rfl, -⟩
    · exact ⟨htunnel, hconfig, hhandle, hhandles⟩
    · exact absurd (Int.natCast_nonneg h) (of_decide_eq_false hnegative)
  · refine Triple.bind (Q := fun _ => (Runs · (some (tunnel, config)))) (Triple.modify ?_) fun _ => ?_
    · rintro w ⟨h, hhandle, hhandles⟩
      exact ⟨rfl, rfl, h, hhandle, hhandles⟩
    · exact Triple.modify fun w hw => hw.congr rfl rfl rfl rfl

theorem setUp_runs {config : Option C} :
    Triple (Runs · none) (setUp name contents p tunnel config)
      (fun _ w => ∃ c, config = some c ∧ Runs w (some (tunnel, c))) fun _ => (Runs · none) := by
  cases config with
  | none => exact Triple.throw fun _ => id
  | some config =>
    refine Triple.ite (fun _ => ?_) fun _ => Triple.throw fun _ => id
    exact bringUp_runs.consequence (fun _ => id) (fun _ w hw => ⟨config, rfl, hw⟩) fun _ _ => id

/-- `reset` turns off the one handle that is on. -/
theorem reset_runs (h : Runs w current) : Runs (reset w) none := by
  refine ⟨rfl, rfl, rfl, ?_⟩
  unfold reset wgTurnOff
  rcases current with _ | ⟨t, c⟩
  · simp only [h.2.2.2, List.filter_nil]
  · obtain ⟨-, -, h, hhandle, hhandles⟩ := h
    simp [hhandle, hhandles]

/-- Nothing runs in the end, also when the service cannot be told. -/
theorem takeDown_runs {interrupted : Bool} :
    Triple (Runs · current) (takeDown interrupted tunnel : Step T C Unit) (fun _ => (Runs · none))
      fun _ => (Runs · none) := by
  refine Triple.read fun w₀ h₀ => Triple.ite (fun hdown => Triple.pure fun w hw => ?_) fun _ => ?_
  · rcases current with _ | ⟨t, c⟩
    · exact hw
    · obtain ⟨-, -, h, hhandle, -⟩ := h₀
      rw [hhandle] at hdown
      cases hdown
  · refine Triple.bind (Q := fun _ => (Runs · none)) (Triple.modify fun w hw => reset_runs hw) fun _ => ?_
    exact Triple.bind Keeps.require fun _ => Triple.modify fun w hw => hw.congr rfl rfl rfl rfl

end BringUp

/-! ## Whole calls -/

omit [DecidableEq T] [DecidableEq C] in
/-- What was asked for runs, when the call returns; what ran before or nothing, when it throws. -/
theorem replace_runs {config : Option C} :
    Triple (Runs · current) (replace name contents o tunnel config)
      (fun _ w => ∃ c, config = some c ∧ Runs w (some (tunnel, c)))
      fun _ w => Runs w current ∨ Runs w none := by
  refine Triple.read fun w₀ h₀ => ?_
  rcases current with _ | ⟨t₀, c₀⟩
  · rw [h₀.1]
    exact setUp_runs.consequence (fun _ => id) (fun _ _ => id) fun _ _ => .inr
  · rw [h₀.1]
    refine Triple.bind (Triple.consequence takeDown_runs (fun _ => id) (fun _ _ => id) fun _ _ => .inr)
      fun _ => Triple.tryCatch setUp_runs fun e => ?_
    -- the rollback starts the config that was current when the call was made
    refine Triple.bind (Q := fun _ w => Runs w (some (t₀, c₀)))
      (setUp_runs.consequence (fun _ => id) ?_ fun _ _ => .inr) fun _ => Triple.throw fun _ => .inl
    rintro - w ⟨c, hc, hw⟩
    cases h₀.2.1.symm.trans hc
    exact hw

section

omit [DecidableEq C]

theorem Runs.getState_eq (h : Runs w (some (tunnel, config))) : getState w tunnel = .up := if_pos h.1

theorem getState_eq_down (h : w.currentTunnel ≠ some tunnel) : getState w tunnel = .down := if_neg h

theorem target_up (w : World T C) (tunnel : T) : target w tunnel .up = .up := rfl

theorem target_up_or_down (w : World T C) (tunnel : T) (state : TunnelState) :
    target w tunnel state = .up ∨ target w tunnel state = .down := by
  cases state with
  | up => exact .inl rfl
  | down => exact .inr rfl
  | toggle =>
    unfold target
    by_cases hup : getState w tunnel = .up
    · exact .inr (if_pos hup)
    · exact .inl (if_neg hup)

theorem applyState_up {config : Option C} :
    Triple (Runs · current) (applyState name contents o tunnel .up config)
      (fun _ w => ∃ c, config = some c ∧ Runs w (some (tunnel, c)))
      fun _ w => Runs w current ∨ Runs w none :=
  Triple.read fun _ _ => replace_runs

theorem applyState_down {config : Option C} :
    Triple (Runs · current) (applyState name contents o tunnel .down config)
      (fun _ w => Runs w (current.filter fun r => r.1 ≠ tunnel)) fun _ w => Runs w none := by
  refine Triple.read fun w₀ h₀ => Triple.ite nofun fun _ => Triple.ite (fun hcurrent => ?_) fun hcurrent => ?_
  · refine Triple.consequence takeDown_runs (fun _ => id) (fun _ w hw => ?_) fun _ _ => id
    rcases current with _ | ⟨t₀, c₀⟩
    · exact hw
    · cases h₀.1.symm.trans hcurrent.2
      rw [Option.filter_some, if_neg (by simp)]
      exact hw
  · refine Triple.pure fun w hw => ?_
    rcases current with _ | ⟨t₀, c₀⟩
    · exact hw
    · have hne : t₀ ≠ tunnel := fun h => hcurrent ⟨rfl, h ▸ h₀.1⟩
      rw [Option.filter_some, if_pos (decide_eq_true hne)]
      exact hw

end

/-- A call for `UP` that returns has the tunnel running with the config of the call. -/
theorem setState_up {state : TunnelState} {config : Option C} :
    Triple (fun w => Runs w current ∧ target w tunnel state = .up)
      (setState name contents o tunnel state config)
      (fun r w => r = .up ∧ ∃ c, config = some c ∧ Runs w (some (tunnel, c)))
      fun _ w => Runs w current ∨ Runs w none := by
  refine Triple.get fun w₀ ⟨h₀, htarget⟩ => ?_
  rw [htarget]
  refine Triple.ite (fun hsame => Triple.pure ?_) fun _ => ?_
  · rintro w rfl
    rcases current with _ | ⟨t₀, c₀⟩
    · cases h₀.1.symm.trans hsame.2.1
    · cases h₀.1.symm.trans hsame.2.1
      exact ⟨hsame.1.symm, c₀, hsame.2.2.symm.trans h₀.2.1, h₀⟩
  · refine Triple.bind (Triple.consequence applyState_up (fun w hw => hw ▸ h₀) (fun _ _ => id) fun _ _ => id)
      fun _ => Triple.read fun w hw => Triple.pure fun w' hw' => ?_
    obtain ⟨c, -, hruns⟩ := hw
    exact ⟨hruns.getState_eq, hw'⟩

/-- A call for `DOWN` that returns has taken the tunnel down, if it was the one that ran. -/
theorem setState_down {state : TunnelState} {config : Option C} :
    Triple (fun w => Runs w current ∧ target w tunnel state = .down)
      (setState name contents o tunnel state config)
      (fun r w => r = .down ∧ Runs w (current.filter fun r => r.1 ≠ tunnel))
      fun _ w => Runs w none := by
  refine Triple.get fun w₀ ⟨h₀, htarget⟩ => ?_
  rw [htarget]
  refine Triple.ite (fun hsame => ?_) fun _ => ?_
  · cases hsame.1.trans (if_pos hsame.2.1)
  · refine Triple.bind (Triple.consequence applyState_down (fun w hw => hw ▸ h₀) (fun _ _ => id) fun _ _ => id)
      fun _ => Triple.read fun w hw => Triple.pure fun w' hw' => ?_
    refine ⟨getState_eq_down fun hcurrent => ?_, hw'⟩
    rcases current with _ | ⟨t₀, c₀⟩
    · cases hw.1.symm.trans hcurrent
    · by_cases hne : t₀ = tunnel
      · rw [Option.filter_some, if_neg (by simp [hne])] at hw
        cases hw.1.symm.trans hcurrent
      · rw [Option.filter_some, if_pos (decide_eq_true hne)] at hw
        exact hne (Option.some.inj (hw.1.symm.trans hcurrent))

/-- The fields and the Go library agree. -/
def Agrees (w : World T C) : Prop := ∃ current, Runs w current

theorem setState_agrees {state : TunnelState} {config : Option C} :
    Keeps Agrees (setState name contents o tunnel state config) := by
  rintro w ⟨current, h⟩
  rcases target_up_or_down w tunnel state with htarget | htarget
  · refine setState_up.consequence (fun _ => id) ?_ ?_ w ⟨h, htarget⟩
    · rintro - w ⟨-, c, -, h⟩
      exact ⟨_, h⟩
    · rintro - w (h | h)
      · exact ⟨_, h⟩
      · exact ⟨_, h⟩
  · refine setState_down.consequence (fun _ => id) ?_ ?_ w ⟨h, htarget⟩
    · rintro - w ⟨-, h⟩
      exact ⟨_, h⟩
    · rintro - w h
      exact ⟨_, h⟩

omit [DecidableEq T] [DecidableEq C] in
/-- The service that is destroyed stops what its owner runs. -/
theorem onDestroy_agrees (h : Agrees w) : Agrees (onDestroy w) := by
  obtain ⟨current, h⟩ := h
  unfold onDestroy
  split
  · exact ⟨current, h⟩
  · split
    · next tunnel _ htunnel =>
      refine ⟨none, rfl, rfl, rfl, ?_⟩
      rcases current with _ | ⟨t, c⟩
      · cases h.1.symm.trans htunnel
      · obtain ⟨-, -, handle, hhandle, hhandles⟩ := h
        rw [if_pos (by rw [hhandle]; exact nofun)]
        simp [wgTurnOff, hhandle, hhandles]
    · exact ⟨current, h.congr rfl rfl rfl rfl⟩

theorem step_agrees (e : Event T C) (h : Agrees w) : Agrees (step name contents w e) := by
  cases e with
  | setState o tunnel state config => exact setState_agrees.exec h
  | onCreate =>
    obtain ⟨current, h⟩ := h
    exact ⟨current, h.congr rfl rfl rfl rfl⟩
  | onDestroy => exact onDestroy_agrees h

theorem run_agrees (es : List (Event T C)) (h : Agrees w) : Agrees (run name contents w es) := by
  induction es generalizing w with
  | nil => exact h
  | cons e es ih => exact ih (step_agrees e h)

omit [DecidableEq T] [DecidableEq C] in
theorem init_agrees : Agrees (World.init : World T C) := ⟨none, rfl, rfl, rfl, rfl⟩

/-- In every reachable state all three fields are set and the Go library runs the one tunnel under
the handle, or none of the fields is and it runs nothing. -/
theorem reachable_runs (es : List (Event T C)) :
    let w := run name contents World.init es
    (∃ (tunnel : T) (config : C) (handle : Nat),
      w.currentTunnel = some tunnel ∧ w.currentConfig = some config ∧ w.currentTunnelHandle = handle ∧
        w.tunnelHandles = [(handle, tunnel, config)]) ∨
    (w.currentTunnel = none ∧ w.currentConfig = none ∧ w.currentTunnelHandle = -1 ∧
      w.tunnelHandles = []) := by
  intro w
  obtain ⟨current, h⟩ : Agrees w := run_agrees es init_agrees
  rcases current with _ | ⟨tunnel, config⟩
  · exact .inr h
  · obtain ⟨htunnel, hconfig, handle, hhandle, hhandles⟩ := h
    exact .inl ⟨tunnel, config, handle, htunnel, hconfig, hhandle, hhandles⟩

/-! ## A start that throws -/

/-- Only `replace` throws, and what already runs is not replaced. -/
theorem replace_of_setState_error {config : Option C} {e : BackendException}
    (h : exec (setState name contents o tunnel .up config) w = (.error e, w')) :
    exec (replace name contents o tunnel config) w = (.error e, w') ∧
      ∀ c, config = some c → ¬ Runs w (some (tunnel, c)) := by
  unfold setState at h
  rw [exec_get_bind, target_up] at h
  by_cases hsame : .up = getState w tunnel ∧ w.currentTunnel = some tunnel ∧
    w.currentConfig = config
  · rw [if_pos hsame] at h
    cases h
  · rw [if_neg hsame] at h
    refine ⟨?_, fun c hc hruns => hsame ⟨hruns.getState_eq.symm, hruns.1, hruns.2.1.trans hc.symm⟩⟩
    rcases happly : exec (applyState name contents o tunnel .up config) w with ⟨e' | ⟨⟩, w''⟩
    · rw [exec_bind_error happly] at h
      cases h
      exact happly
    · rw [exec_bind_ok happly, exec_get_bind] at h
      cases h

omit [DecidableEq T] [DecidableEq C] in
/-- The old tunnel is down, the new one does not start, and the old one does. -/
theorem replace_rolls_back {t₀ : T} {c₀ : C} {config : Option C} {e : BackendException}
    {w₁ w₂ w₃ : World T C} (h : Runs w (some (t₀, c₀)))
    (hdown : exec (takeDown o.interrupted t₀) w = (.ok (), w₁))
    (hstart : exec (setUp name contents o.start tunnel config) w₁ = (.error e, w₂))
    (hrollback : exec (setUp name contents o.rollback t₀ (some c₀)) w₂ = (.ok (), w₃)) :
    exec (replace name contents o tunnel config) w = (.error e, w₃) := by
  unfold replace
  rw [exec_get_bind]
  simp only [h.1, h.2.1]
  rw [exec_bind_ok hdown, exec_tryCatch_error hstart, exec_bind_ok hrollback]
  rfl

/-- A call for `UP` that throws leaves what ran before the call or nothing, and never the new tunnel
with the new config. The old tunnel runs with its config if the rollback could start it. -/
theorem setState_throws (es : List (Event T C)) (o : Outcomes) (tunnel : T) (config : Option C)
    {e : BackendException} {w w' : World T C} (hw : w = run name contents World.init es)
    (h : exec (setState name contents o tunnel .up config) w = (.error e, w')) :
    ∃ current, Runs w current ∧ (Runs w' current ∨ Runs w' none) ∧
      (∀ c, config = some c → ¬ Runs w' (some (tunnel, c))) ∧
      ∀ t₀ c₀ w₁ e₁ w₂ w₃, current = some (t₀, c₀) →
        exec (takeDown o.interrupted t₀) w = (.ok (), w₁) →
        exec (setUp name contents o.start tunnel config) w₁ = (.error e₁, w₂) →
        exec (setUp name contents o.rollback t₀ (some c₀)) w₂ = (.ok (), w₃) →
        e = e₁ ∧ w' = w₃ ∧ Runs w' current := by
  obtain ⟨current, hruns⟩ : Agrees w := hw ▸ run_agrees es init_agrees
  obtain ⟨hreplace, hnew⟩ := replace_of_setState_error h
  have hpost : Runs w' current ∨ Runs w' none := setState_up.error h ⟨hruns, rfl⟩
  refine ⟨current, hruns, hpost, fun c hc hc' => ?_, ?_⟩
  · rcases hpost with h' | h'
    · exact hnew c hc (h'.unique hc' ▸ hruns)
    · cases h'.unique hc'
  · rintro t₀ c₀ w₁ e₁ w₂ w₃ rfl hdown hstart hrollback
    cases hreplace.symm.trans (replace_rolls_back hruns hdown hstart hrollback)
    -- nothing runs when the rollback starts, so what it starts is all that runs
    have hnone := setUp_runs.error hstart (takeDown_runs.ok hdown hruns)
    obtain ⟨c, hc, hback⟩ := setUp_runs.ok hrollback hnone
    cases hc
    exact ⟨rfl, rfl, hback⟩

/-- A platform on which every start succeeds, if it is authorised. -/
def obligingPlatform (authorised : Bool) : Platform where
  metered := true
  authorised := authorised
  startsService := true
  awaits := .returns
  resolves _ _ := true
  interrupts _ := false
  rejects _ _ := false
  establishes := .tun
  turnsOn := goTurnOn

/-- An interface with a key and nothing else. -/
def bareConfig : Config where
  interfaze := ⟨.empty, .empty, .empty, .empty, .empty, ⟨List.replicate 32 0, rfl⟩, none, none, nofun,
    nofun, .inl rfl⟩
  peers := []

/-- The authorisation is gone for the second start, and back for the rollback. -/
theorem setState_throws_not_authorized :
    let name := fun _ : Bool => text "wg0"
    let contents := fun _ : Nat => bareConfig
    let o : Outcomes := ⟨false, obligingPlatform false, obligingPlatform true⟩
    let w := run name contents World.init
      [.setState ⟨false, obligingPlatform true, obligingPlatform true⟩ false .up (some 0)]
    ∃ w', exec (setState name contents o true .up (some 1)) w = (.error .vpnNotAuthorized, w') ∧
      Runs w' (some (false, 0)) := by
  intro name contents o w
  let down : World Bool Nat := ⟨none, none, -1, some ⟨true⟩, [], [(false, .down), (false, .up)]⟩
  let back : World Bool Nat :=
    ⟨some false, some 0, 0, some ⟨true⟩, [(0, false, 0)], [(false, .up), (false, .down), (false, .up)]⟩
  have hw : w = ⟨some false, some 0, 0, some ⟨true⟩, [(0, false, 0)], [(false, .up)]⟩ := by
    decide +kernel
  have hbefore : Runs w (some (false, 0)) := hw ▸ ⟨rfl, rfl, 0, rfl, rfl⟩
  have hthrows : exec (setState name contents o true .up (some 1)) w =
    (.error .vpnNotAuthorized, back) := by decide +kernel
  have hdown : exec (takeDown o.interrupted false) w = (.ok (), down) := by decide +kernel
  have hstart : exec (setUp name contents o.start true (some 1)) down =
    (.error .vpnNotAuthorized, down) := by decide +kernel
  have hrollback : exec (setUp name contents o.rollback false (some 0)) down = (.ok (), back) := by
    decide +kernel
  obtain ⟨current, hruns, -, -, hback⟩ := setState_throws _ o true (some 1) rfl hthrows
  have hcurrent : current = some (false, 0) := hruns.unique hbefore
  obtain ⟨-, -, hend⟩ := hback false 0 down _ down back hcurrent hdown hstart hrollback
  exact ⟨back, hthrows, hcurrent ▸ hend⟩

end WgAndroid.GoBackend
