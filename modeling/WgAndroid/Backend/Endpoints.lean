import Mathlib.Logic.Function.Basic
import WgAndroid.Backend.GoBackend
import WgAndroid.Config.Resolution

/-!
# The endpoints of the userspace backend

Before `GoBackend` builds the userspace configuration it resolves the endpoints of all peers, so that
they are cached when the text is built: `Peer.toWgUserspaceString` asks each endpoint again, and leaves
its line out if it does not get an answer. In between the answers may become two minutes old.

Results:
1. `dnsRetry_warm`: when the loop ends, every endpoint has an answer in its cache.
2. `hasEndpointLine_iff`: a peer has its line exactly when its endpoint is resolved as it is printed.
3. `endpoint_lines_iff`: when the lines of all peers are there.
-/

namespace WgAndroid

/-! ## The text -/

/-- A line of the userspace format. -/
def userspaceLine (key : String) (value : JString) : JString := text key ++ (unit '=' :: value)

/-- The lines of `Interface.toWgUserspaceString`. -/
def Interface.userspaceLines (i : Interface) : List JString :=
  userspaceLine "private_key" i.privateKey.toHex ::
    (i.listenPort.map fun lp => userspaceLine "listen_port" (decimal lp)).toList

/-- The lines of `Peer.toWgUserspaceString`, with what its endpoint is resolved to. -/
def Peer.userspaceLines (P : Platform) (p : Peer) (resolved : Option InetEndpoint) : List JString :=
  userspaceLine "public_key" p.publicKey.toHex ::
    ((p.allowedIps.elems.map fun allowedIp => userspaceLine "allowed_ip" (allowedIp.toString P)) ++
    ((resolved.map fun ep => userspaceLine "endpoint" ep.toString).toList ++
    ((p.persistentKeepalive.map fun pk =>
      userspaceLine "persistent_keepalive_interval" (decimal pk)).toList ++
    (p.preSharedKey.map fun psk => userspaceLine "preshared_key" psk.toHex).toList)))

namespace Endpoints

open InetEndpoint (Cache Call)
open GoBackend (dnsResolutionRetries)

/-! ## Code -/

/-- The caches of the endpoint objects, and how many calls of `getResolved` there were. -/
structure Lookups (R : Type) where
  caches : R → Cache
  next : Nat

/-- A peer with the object that is its endpoint, if it has one. -/
abbrev LivePeer (R : Type) := Peer × R

section Code

variable {R : Type} [DecidableEq R] (P : Platform) (calls : Nat → Call)

/-- `peer.getEndpoint().flatMap(InetEndpoint::getResolved)` -/
def resolve (peer : LivePeer R) (s : Lookups R) : Option InetEndpoint × Lookups R :=
  match peer.1.endpoint with
  | none => (none, s)
  | some ep =>
    let r := ep.getResolved P (s.caches peer.2) (calls s.next)
    (r.1, ⟨Function.update s.caches peer.2 r.2, s.next + 1⟩)

/-- A round of the loop: the first endpoint that is not resolved. -/
def resolveAll : List (LivePeer R) → Lookups R → Option InetEndpoint × Lookups R
  | [], s => (none, s)
  | peer :: peers, s =>
    match peer.1.endpoint with
    | none => resolveAll peers s
    | some ep =>
      let r := resolve P calls peer s
      if r.1 = none then (some ep, r.2) else resolveAll peers r.2

/-- The loop `dnsRetry`, with the number of rounds that are left. -/
def dnsRetry (interrupts : Nat → Bool) (peers : List (LivePeer R)) :
    Nat → Nat → Lookups R → Except BackendException Unit × Lookups R
  | 0, _, s => (.ok (), s)
  | left + 1, i, s =>
    match resolveAll P calls peers s with
    | (none, s) => (.ok (), s)
    | (some ep, s) =>
      if 0 < left then
        if interrupts i then (.error .platform, s) else dnsRetry interrupts peers left (i + 1) s
      else (.error (.dnsResolutionFailure ep.host), s)

/-- The lines of each peer. -/
def peerSections : List (LivePeer R) → Lookups R → List (List JString)
  | [], _ => []
  | peer :: peers, s =>
    let r := resolve P calls peer s
    peer.1.userspaceLines P r.1 :: peerSections peers r.2

/-- `Config.toWgUserspaceString` -/
def toWgUserspaceString (i : Interface) (peers : List (LivePeer R)) (s : Lookups R) : JString :=
  unlines (i.userspaceLines ++ text "replace_peers=true" :: (peerSections P calls peers s).flatten)

end Code

/-! ## Lines -/

/-- The lines have one that gives the endpoint. -/
def HasEndpointLine (lines : List JString) : Prop := ∃ l ∈ lines, text "endpoint=" <+: l

/-- The key of another line starts with another letter. -/
theorem not_endpointLine {key : String} {value : JString}
    (h : (text key ++ [unit '=']).head? ≠ some (unit 'e')) :
    ¬ text "endpoint=" <+: userspaceLine key value := by
  rintro ⟨rest, hrest⟩
  refine h ?_
  have hhead : some (unit 'e') = (userspaceLine key value).head? := congrArg List.head? hrest
  have hne : text key ++ [unit '='] ≠ [] := by simp
  rw [hhead, userspaceLine, List.append_cons (text key) (unit '=') value,
    List.head?_append_of_ne_nil _ hne]

theorem hasEndpointLine_iff {P : Platform} {p : Peer} {resolved : Option InetEndpoint} :
    HasEndpointLine (p.userspaceLines P resolved) ↔ resolved ≠ none := by
  constructor
  · rintro ⟨l, hl, hstart⟩ rfl
    simp only [Peer.userspaceLines, List.mem_cons, List.mem_append, List.mem_map, Option.mem_toList,
      Option.map_none, Option.map_eq_some_iff] at hl
    rcases hl with rfl | ⟨ip, _, rfl⟩ | hl | ⟨pk, _, rfl⟩ | ⟨psk, _, rfl⟩
    · exact not_endpointLine (by decide) hstart
    · exact not_endpointLine (by decide) hstart
    · cases hl
    · exact not_endpointLine (by decide) hstart
    · exact not_endpointLine (by decide) hstart
  · intro h
    obtain ⟨ep, rfl⟩ := Option.ne_none_iff_exists'.mp h
    refine ⟨userspaceLine "endpoint" ep.toString, ?_, ?_⟩
    · simp [Peer.userspaceLines]
    · exact List.prefix_append (text "endpoint=") ep.toString

/-! ## Warm caches -/

section Warm

variable {R : Type} [DecidableEq R] {P : Platform} {calls : Nat → Call} {peer : LivePeer R}
  {peers : List (LivePeer R)} {s s' : Lookups R}

/-- The cache of the peer's endpoint has an answer, if it is asked. -/
def Warm (s : Lookups R) (peer : LivePeer R) : Prop :=
  ∀ ep ∈ peer.1.endpoint, ep.isResolved = false → (s.caches peer.2).resolved ≠ none

theorem resolve_of_none (h : peer.1.endpoint = none) : resolve P calls peer s = (none, s) := by
  rw [resolve, h]

theorem resolve_result {ep : InetEndpoint} (h : peer.1.endpoint = some ep) :
    (resolve P calls peer s).1 = (ep.getResolved P (s.caches peer.2) (calls s.next)).1 := by
  rw [resolve, h]

theorem resolve_caches {ep : InetEndpoint} (h : peer.1.endpoint = some ep) :
    (resolve P calls peer s).2.caches =
      Function.update s.caches peer.2 (ep.getResolved P (s.caches peer.2) (calls s.next)).2 := by
  rw [resolve, h]

variable (hresolved : peer.1.endpoint ≠ none → (resolve P calls peer s).1 ≠ none)
include hresolved

/-- An endpoint that is resolved has its answer in the cache. -/
theorem resolve_warm : Warm (resolve P calls peer s).2 peer := by
  intro ep hep hname
  have hsome := hresolved (by rw [hep]; exact Option.some_ne_none ep)
  rw [resolve_result hep] at hsome
  rw [resolve_caches hep, Function.update_self]
  unfold InetEndpoint.getResolved at hsome ⊢
  rw [hname] at hsome ⊢
  exact hsome

/-- And the other caches keep theirs. -/
theorem resolve_keeps {ref : R} (h : (s.caches ref).resolved ≠ none) :
    ((resolve P calls peer s).2.caches ref).resolved ≠ none := by
  cases hep : peer.1.endpoint with
  | none => rwa [resolve_of_none hep]
  | some ep =>
    by_cases href : ref = peer.2
    · subst href
      cases hname : ep.isResolved with
      | false => exact resolve_warm hresolved ep hep hname
      | true =>
        have hkept : (ep.getResolved P (s.caches peer.2) (calls s.next)).2 = s.caches peer.2 := by
          rw [InetEndpoint.getResolved, if_pos hname]
        rwa [resolve_caches hep, hkept, Function.update_self]
    · rwa [resolve_caches hep, Function.update_of_ne href]

theorem Warm.resolve {other : LivePeer R} (h : Warm s other) :
    Warm (Endpoints.resolve P calls peer s).2 other :=
  fun ep hep hname => resolve_keeps hresolved (h ep hep hname)

omit hresolved

/-- After a round without failure every endpoint has an answer. -/
theorem resolveAll_warm (h : resolveAll P calls peers s = (none, s')) {other : LivePeer R}
    (hother : other ∈ peers ∨ Warm s other) : Warm s' other := by
  induction peers generalizing s with
  | nil =>
    cases h
    exact hother.resolve_left List.not_mem_nil
  | cons peer peers ih =>
    rw [resolveAll] at h
    cases hep : peer.1.endpoint with
    | none =>
      rw [hep] at h
      refine ih h ?_
      rcases hother with hmem | hwarm
      · rcases List.mem_cons.mp hmem with rfl | hmem
        · exact .inr fun ep hep' => by rw [hep] at hep'; cases hep'
        · exact .inl hmem
      · exact .inr hwarm
    | some ep =>
      rw [hep] at h
      dsimp only at h
      split at h
      · cases h
      · next hsome =>
        refine ih h ?_
        rcases hother with hmem | hwarm
        · rcases List.mem_cons.mp hmem with rfl | hmem
          · exact .inr (resolve_warm fun _ => hsome)
          · exact .inl hmem
        · exact .inr (hwarm.resolve fun _ => hsome)

theorem dnsRetry_warm {interrupts : Nat → Bool} {left i : Nat}
    (h : dnsRetry P calls interrupts peers (left + 1) i s = (.ok (), s')) :
    ∀ peer ∈ peers, Warm s' peer := by
  induction left generalizing i s with
  | zero =>
    rw [dnsRetry] at h
    split at h
    · next hround =>
      cases h
      exact fun peer hmem => resolveAll_warm hround (.inl hmem)
    · cases h
  | succ left ih =>
    rw [dnsRetry] at h
    split at h
    · next hround =>
      cases h
      exact fun peer hmem => resolveAll_warm hround (.inl hmem)
    · split at h
      · split at h
        · cases h
        · exact ih h
      · cases h

end Warm

/-! ## The lines of all peers -/

section Lines

variable {R : Type} [DecidableEq R] (P : Platform) (calls : Nat → Call)

/-- If the answer for the peer is two minutes old when it is printed, the lookup succeeds. -/
def Answered (s : Lookups R) (peer : LivePeer R) : Prop :=
  ∀ ep ∈ peer.1.endpoint, ep.isResolved = false →
    (s.caches peer.2).expired (calls s.next).now = true → (calls s.next).lookup ≠ none

/-- The same for each peer when its turn comes. -/
def AllAnswered : List (LivePeer R) → Lookups R → Prop
  | [], _ => True
  | peer :: peers, s => Answered calls s peer ∧ AllAnswered peers (resolve P calls peer s).2

variable {P calls} {peer : LivePeer R} {peers : List (LivePeer R)} {s s' : Lookups R}

theorem resolve_ne_none_iff (hwarm : Warm s peer) :
    (peer.1.endpoint ≠ none → (resolve P calls peer s).1 ≠ none) ↔ Answered calls s peer := by
  cases hep : peer.1.endpoint with
  | none => exact iff_of_true (fun h => absurd rfl h) fun ep hep' => by rw [hep] at hep'; cases hep'
  | some ep =>
    have hanswered : Answered calls s peer ↔ (ep.isResolved = false →
        (s.caches peer.2).expired (calls s.next).now = true → (calls s.next).lookup ≠ none) := by
      refine ⟨fun h => h ep hep, fun h ep' hep' => ?_⟩
      cases hep.symm.trans hep'
      exact h
    rw [hanswered, resolve_result hep]
    cases hname : ep.isResolved with
    | true => simp [InetEndpoint.getResolved, hname]
    | false =>
      cases hexpired : (s.caches peer.2).expired (calls s.next).now with
      | false =>
        rw [InetEndpoint.getResolved_kept hname hexpired]
        exact iff_of_true (fun _ => hwarm ep hep hname) fun _ h => by cases h
      | true =>
        rw [InetEndpoint.getResolved_asked hname hexpired, InetEndpoint.lookUp]
        cases (calls s.next).lookup <;> simp

/-- With warm caches the lines are there exactly when the lookups that are still made succeed. -/
theorem peerSections_iff (hwarm : ∀ peer ∈ peers, Warm s peer) :
    List.Forall₂ (fun peer lines => peer.1.endpoint ≠ none → HasEndpointLine lines) peers
      (peerSections P calls peers s) ↔ AllAnswered P calls peers s := by
  induction peers generalizing s with
  | nil => exact iff_of_true .nil trivial
  | cons peer peers ih =>
    obtain ⟨hpeer, hpeers⟩ := List.forall_mem_cons.mp hwarm
    rw [peerSections, AllAnswered, List.forall₂_cons, hasEndpointLine_iff, resolve_ne_none_iff hpeer]
    refine and_congr_right fun hanswered => ih fun other hother => ?_
    exact (hpeers other hother).resolve ((resolve_ne_none_iff hpeer).mpr hanswered)

end Lines

/-- If the loop ends, every peer with an endpoint has its line in the text exactly when every lookup
succeeds that is made while the text is built, for an answer that is two minutes old. -/
theorem endpoint_lines_iff {R : Type} [DecidableEq R] {P : Platform} {calls : Nat → Call}
    {interrupts : Nat → Bool} {i : Interface} {peers : List (LivePeer R)} {s s' : Lookups R}
    (hloop : dnsRetry P calls interrupts peers dnsResolutionRetries 0 s = (.ok (), s')) :
    toWgUserspaceString P calls i peers s' =
      unlines (i.userspaceLines ++
        text "replace_peers=true" :: (peerSections P calls peers s').flatten) ∧
    (List.Forall₂ (fun peer lines => peer.1.endpoint ≠ none → HasEndpointLine lines) peers
      (peerSections P calls peers s') ↔ AllAnswered P calls peers s') :=
  ⟨rfl, peerSections_iff (dnsRetry_warm hloop)⟩

theorem sampleKey_size : (List.replicate 32 (1 : UInt8)).length = 32 := rfl

/-- A peer with a host name. -/
def samplePeer : Peer where
  allowedIps := .empty
  endpoint := some ⟨text "vpn", false, 51820⟩
  persistentKeepalive := none
  preSharedKey := none
  publicKey := ⟨List.replicate 32 1, sampleKey_size⟩
  keepalive_range := port_range_none

theorem sampleApplications_exclusive :
    (.empty : LinkedSet JString).elems = [] ∨ (.empty : LinkedSet JString).elems = [] := .inl rfl

def sampleInterface : Interface where
  addresses := .empty
  dnsServers := .empty
  dnsSearchDomains := .empty
  excludedApplications := .empty
  includedApplications := .empty
  privateKey := ⟨List.replicate 32 1, sampleKey_size⟩
  listenPort := none
  mtu := none
  listenPort_range := port_range_none
  mtu_range := int_range_none
  exclusive := sampleApplications_exclusive

def sampleAnswer : InetEndpoint.Answer := ⟨.inet4 0xC0000201, []⟩

/-- The name server answers, without delay. -/
def promptCalls (_ : Nat) : Call := ⟨1000000000000, some sampleAnswer, 1000000000000⟩

theorem endpoint_lines_prompt :
    ∃ s', dnsRetry samplePlatform promptCalls (fun _ => false) [(samplePeer, ())]
        dnsResolutionRetries 0 ⟨fun _ => .init, 0⟩ = (.ok (), s') ∧
      List.Forall₂ (fun peer lines => peer.1.endpoint ≠ none → HasEndpointLine lines)
        [(samplePeer, ())] (peerSections samplePlatform promptCalls [(samplePeer, ())] s') := by
  have hloop : ∃ s', dnsRetry samplePlatform promptCalls (fun _ => false) [(samplePeer, ())]
      dnsResolutionRetries 0 ⟨fun _ => .init, 0⟩ = (.ok (), s') := ⟨_, rfl⟩
  obtain ⟨s', hloop⟩ := hloop
  refine ⟨s', hloop, (endpoint_lines_iff (i := sampleInterface) hloop).2.mpr ⟨?_, trivial⟩⟩
  exact fun _ _ _ _ => Option.some_ne_none _

/-- The lookup for the second peer takes two minutes, and then the name server is gone. -/
def slowCalls : Nat → Call
  | 0 => ⟨1000000000000, some sampleAnswer, 1000000000000⟩
  | 1 => ⟨1000000000000, some sampleAnswer, 1120000000000⟩
  | _ => ⟨1120000000000, none, 1120000000000⟩

/-- The loop ends, but the answer for the first peer has become two minutes old in it. -/
theorem endpoint_line_lost :
    (∀ k, (slowCalls k).now ≤ (slowCalls k).after ∧ (slowCalls k).after ≤ (slowCalls (k + 1)).now) ∧
    ∃ s', dnsRetry samplePlatform slowCalls (fun _ => false) [(samplePeer, 0), (samplePeer, 1)]
        dnsResolutionRetries 0 ⟨fun _ => .init, 0⟩ = (.ok (), s') ∧
      ∀ lines ∈ (peerSections samplePlatform slowCalls [(samplePeer, 0), (samplePeer, 1)] s').head?,
        samplePeer.endpoint ≠ none ∧ ¬ HasEndpointLine lines := by
  refine ⟨fun k => ?_, _, rfl, ?_⟩
  · rcases k with _ | _ | k
    · decide
    · decide
    · exact ⟨Int.le_refl _, Int.le_refl _⟩
  · rintro lines ⟨⟩
    refine ⟨Option.some_ne_none _, mt hasEndpointLine_iff.mp (not_not.mpr ?_)⟩
    decide

end Endpoints

end WgAndroid
