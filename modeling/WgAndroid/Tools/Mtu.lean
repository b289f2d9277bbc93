import Mathlib.Data.Int.Order.Basic
import WgAndroid.Backend.Statistics
import WgAndroid.Lib.Regex

/-!
# The MTU of the interface

`get_route_mtu` and `set_mtu` of `wg-quick/android.c`. The endpoints are read from the lines that
`wg show NAME endpoints` prints (`ugly_print` of `show.c`); what `ip` prints is a parameter.

Results:
1. `endpointAddress_line`: no line that is printed matches the pattern.
2. `setMtu_eq`: the endpoints have no effect.
3. `setMtu_respects_iff`: exactly when the MTU is still the smallest one.
-/

namespace WgAndroid

/-! ## The lines of wg show endpoints -/

namespace Show

/-- A round of the loop for `endpoints`. -/
def endpointsText (L : Names) (p : Peer) : JString :=
  key p.publicKey ++ [tab] ++ endpointField L p ++ [LF]

/-- The address in the line of a peer. -/
def endpointHost (L : Names) (p : Peer) : Option JString :=
  match p.endpoint with
  | .other => none
  | addr => (L.getnameinfo addr).toOption.map Prod.fst

end Show

/-! ## Routes -/

/-- The first line that a call of `ip` prints. -/
structure IpTool where
  /-- `ip -o route get ADDRESS` -/
  routeGet : Bytes → Option Bytes
  /-- `ip -o route show default` -/
  routeShowDefault : Option Bytes
  /-- `ip -o link show dev DEV` -/
  linkShow : Bytes → Option Bytes

/-- The group of the first match of `text(cls+)`. -/
def searchRun (text : Bytes) (cls : UInt8 → Bool) : Bytes → Option Bytes
  | [] => none
  | c :: line =>
    if text.isPrefixOf (c :: line) && ((c :: line).drop text.length).head?.any cls then
      some (((c :: line).drop text.length).takeWhile cls)
    else searchRun text cls line

/-- `mtu ([0-9]+)` -/
def searchMtu (line : Bytes) : Option Int := (searchRun (cstring "mtu ") charIsDigit line).map atoi

/-- `dev ([^ ]+)` -/
def searchDev (line : Bytes) : Option Bytes := searchRun (cstring "dev ") (· != byte ' ') line

/-- What `get_route_mtu` does with the route; `-1` if nothing is found. -/
def routeMtu (T : IpTool) : Option Bytes → Int
  | none => -1
  | some route =>
    match searchMtu route with
    | some mtu => mtu
    | none =>
      match searchDev route with
      | some dev => (((T.linkShow dev).bind searchMtu).getD (-1))
      | none => -1

/-- `get_route_mtu` -/
def getRouteMtu (T : IpTool) (endpoint : Bytes) : Int :=
  if endpoint ≠ cstring "default" then routeMtu T (T.routeGet endpoint)
  else routeMtu T T.routeShowDefault

/-! ## The pattern of an endpoint -/

/-- `[a-z0-9:.]` -/
def isEndpointChar (c : UInt8) : Bool :=
  charIsDigit c || (decide (byte 'a' ≤ c) && decide (c ≤ byte 'z')) || (cstring ":.").contains c

/-- `^\[?([a-z0-9:.]+)\]?:[0-9]+$` -/
def regexEndpoint : Regex UInt8 :=
  .seq (.opt (.lit (byte '['))) (.seq (.plus (.cls isEndpointChar)) (.seq (.opt (.lit (byte ']')))
    (.seq (.lit (byte ':')) (.plus (.cls charIsDigit)))))

/-- The group of a match, which is as long as it can be: it ends before the last colon, or the bracket
before that. -/
def endpointGroup (line : Bytes) : Bytes :=
  let rest := if line.head? = some (byte '[') then line.tail else line
  let host := (rest.rdropWhile charIsDigit).dropLast
  if host.getLast? = some (byte ']') then host.dropLast else host

def endpointAddress (line : Bytes) : Option Bytes :=
  if regexEndpoint.accepts line then some (endpointGroup line) else none

/-- The MTU that `set_mtu` starts with. -/
def defaultMtu (T : IpTool) : Int :=
  if getRouteMtu T (cstring "default") = -1 then 1500 else getRouteMtu T (cstring "default")

/-- The body of the loop of `set_mtu`. -/
def nextMtu (T : IpTool) (endpointMtu : Int) (line : Bytes) : Int :=
  match endpointAddress line with
  | none => endpointMtu
  | some address =>
    if 0 < getRouteMtu T address ∧ getRouteMtu T address < endpointMtu then getRouteMtu T address
    else endpointMtu

/-- `set_mtu`: the number in the command `interface setmtu`. -/
def setMtu (T : IpTool) (endpoints : List Bytes) (mtu : Nat) : Int :=
  if mtu ≠ 0 then mtu else endpoints.foldl (nextMtu T) (defaultMtu T) - 80

/-! ## The endpoints have no effect -/

/-- No character that the pattern knows is a tab. -/
theorem regexEndpoint_classes : regexEndpoint.ClassesIn (· ≠ byte '\t') := by
  have hlit : ∀ c d : UInt8, c ≠ d → (Regex.lit c).ClassesIn (· ≠ d) := by
    intro c d hne e he
    rwa [eq_of_beq he]
  have hhost : (Regex.cls isEndpointChar).ClassesIn (· ≠ byte '\t') := by
    rintro c hc rfl
    exact absurd hc (by decide)
  have hdigit : (Regex.cls charIsDigit).ClassesIn (· ≠ byte '\t') := by
    rintro c hc rfl
    exact absurd hc (by decide)
  exact ⟨⟨hlit _ _ (by decide), trivial⟩, ⟨hhost, hhost⟩, ⟨hlit _ _ (by decide), trivial⟩,
    hlit _ _ (by decide), hdigit, hdigit⟩

/-- No line that is printed matches the pattern: there is a tab after the public key. -/
theorem endpointAddress_line (L : Names) (p : Show.Peer) :
    endpointAddress (ascii (Show.endpointsText L p)) = none := by
  have htab : byte '\t' ∈ ascii (Show.endpointsText L p) := by
    refine List.mem_map.mpr ⟨Show.tab, ?_, rfl⟩
    simp [Show.endpointsText]
  refine if_neg fun haccepts => ?_
  exact (Regex.accepts_iff.mp haccepts).forall_mem regexEndpoint_classes _ htab rfl

/-- The lines that `wg show NAME endpoints` prints. -/
def endpointsLines (L : Names) (d : Show.Device) : List Bytes :=
  d.peers.map fun p => ascii (Show.endpointsText L p)

theorem setMtu_eq (T : IpTool) (L : Names) (d : Show.Device) :
    setMtu T (endpointsLines L d) 0 = defaultMtu T - 80 := by
  have hloop : ∀ peers : List Show.Peer,
      (peers.map fun p => ascii (Show.endpointsText L p)).foldl (nextMtu T) (defaultMtu T) =
        defaultMtu T := by
    intro peers
    induction peers with
    | nil => rfl
    | cons p peers ih => rw [List.map_cons, List.foldl_cons, nextMtu, endpointAddress_line]; exact ih
  rw [setMtu, if_neg (by simp), endpointsLines, hloop]

/-! ## The smallest MTU -/

/-- The positive MTUs of the routes to the endpoints. -/
def endpointMtus (T : IpTool) (L : Names) (d : Show.Device) : List Int :=
  ((d.peers.filterMap (Show.endpointHost L)).map fun host => getRouteMtu T (ascii host)).filter (0 < ·)

/-- The MTU is 80 less than the smallest of the MTU of the default route and those of the endpoints. -/
def RespectsEndpoints (T : IpTool) (L : Names) (d : Show.Device) : Prop :=
  setMtu T (endpointsLines L d) 0 = (endpointMtus T L d).foldl min (defaultMtu T) - 80

theorem le_foldl_min {k m : Int} {xs : List Int} : k ≤ xs.foldl min m ↔ k ≤ m ∧ ∀ x ∈ xs, k ≤ x := by
  induction xs generalizing m with
  | nil => simp
  | cons x xs ih => rw [List.foldl_cons, ih, le_min_iff, List.forall_mem_cons, and_assoc]

theorem foldl_min_eq_iff {m : Int} {xs : List Int} : xs.foldl min m = m ↔ ∀ x ∈ xs, m ≤ x := by
  constructor
  · intro h
    exact (le_foldl_min.mp (le_of_eq h.symm)).2
  · intro h
    exact le_antisymm (le_foldl_min.mp le_rfl).1 (le_foldl_min.mpr ⟨le_rfl, h⟩)

/-- Every endpoint is respected if and only if no route to one has a positive MTU below the one of the
default route. -/
theorem setMtu_respects_iff (T : IpTool) (L : Names) (d : Show.Device) :
    RespectsEndpoints T L d ↔ ∀ p ∈ d.peers, ∀ host, Show.endpointHost L p = some host →
      getRouteMtu T (ascii host) ≤ 0 ∨ defaultMtu T ≤ getRouteMtu T (ascii host) := by
  have hmem : ∀ P : Int → Prop, (∀ x ∈ endpointMtus T L d, P x) ↔
      ∀ p ∈ d.peers, ∀ host, Show.endpointHost L p = some host →
        0 < getRouteMtu T (ascii host) → P (getRouteMtu T (ascii host)) := by
    intro P
    simp only [endpointMtus, List.mem_filter, List.mem_map, List.mem_filterMap, decide_eq_true_eq]
    constructor
    · exact fun h p hp host hhost hpos => h _ ⟨⟨host, ⟨p, hp, hhost⟩, rfl⟩, hpos⟩
    · rintro h x ⟨⟨host, ⟨p, hp, hhost⟩, rfl⟩, hpos⟩
      exact h p hp host hhost hpos
  rw [RespectsEndpoints, setMtu_eq, sub_left_inj, eq_comm, foldl_min_eq_iff, hmem]
  refine forall₂_congr fun p _ => forall₂_congr fun host _ => ?_
  rw [imp_iff_not_or, not_lt]

/-- The default route has an MTU of 1500, the route to the endpoint one of 1400. -/
def sampleIpTool : IpTool where
  routeGet _ := some (cstring "192.0.2.1 via 10.0.0.1 dev wlan0 mtu 1400 ")
  routeShowDefault := some (cstring "default via 10.0.0.1 dev wlan0 mtu 1500 ")
  linkShow _ := none

/-- The MTU is 1420, which is too large for the endpoint. -/
theorem setMtu_ignores_endpoint :
    setMtu sampleIpTool (endpointsLines WgQuickBackend.sampleNames WgQuickBackend.sampleDevice) 0 = 1420 ∧
      ¬ RespectsEndpoints sampleIpTool WgQuickBackend.sampleNames WgQuickBackend.sampleDevice := by
  have hset : setMtu sampleIpTool
      (endpointsLines WgQuickBackend.sampleNames WgQuickBackend.sampleDevice) 0 = 1420 := by
    rw [setMtu_eq]
    decide +kernel
  refine ⟨hset, fun h => ?_⟩
  rw [RespectsEndpoints, hset] at h
  exact absurd h (by decide +kernel)

end WgAndroid
