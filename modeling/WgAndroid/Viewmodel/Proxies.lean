import WgAndroid.Config.Sections

/-!
# The editor's view of a configuration

`ConfigProxy`, `InterfaceProxy` and `PeerProxy`: every field of a configuration as the text that the editor
shows. A peer also keeps whether its networks allow private addresses to be excluded, and it listens to the
DNS text of the interface and to the number of peers. The listeners of bound peers are called where the
code notifies them; a proxy is not collected while it is bound.

Results:
1. `PeerProxy.resolve_ofPeer`, `InterfaceProxy.resolve_ofInterface`: each field is read back from its text.
2. `ConfigProxy.texts_ofConfig`, `ConfigProxy.texts_ofParcel`: binding the peers changes none of the texts.
3. `ConfigProxy.resolve_opened`: a configuration that is opened and saved is the same.
-/

namespace WgAndroid

/-! ## Peers -/

inductive AllowedIpsState where
  | containsIpv4PublicNetworks
  | containsIpv4Wildcard
  | invalid
  | other
  deriving DecidableEq

/-- `allowedIpsState` is what the code has computed or assigned, not what the text says. -/
structure PeerProxy where
  dnsRoutes : List JString
  allowedIpsState : AllowedIpsState
  totalPeers : Nat
  allowedIps : JString
  endpoint : JString
  persistentKeepalive : JString
  preSharedKey : JString
  publicKey : JString
  deriving DecidableEq

def ipv4PublicNetworks : List JString :=
  ["0.0.0.0/5", "8.0.0.0/7", "11.0.0.0/8", "12.0.0.0/6", "16.0.0.0/4", "32.0.0.0/3",
    "64.0.0.0/2", "128.0.0.0/3", "160.0.0.0/5", "168.0.0.0/6", "172.0.0.0/12",
    "172.32.0.0/11", "172.64.0.0/10", "172.128.0.0/9", "173.0.0.0/8", "174.0.0.0/7",
    "176.0.0.0/4", "192.0.0.0/9", "192.128.0.0/11", "192.160.0.0/13", "192.169.0.0/16",
    "192.170.0.0/15", "192.172.0.0/14", "192.176.0.0/12", "192.192.0.0/10",
    "193.0.0.0/8", "194.0.0.0/7", "196.0.0.0/6", "200.0.0.0/5", "208.0.0.0/4"].map text

def ipv4Wildcard : List JString := [text "0.0.0.0/0"]

namespace PeerProxy

/-- `PeerProxy()` -/
def init : PeerProxy := ⟨[], .invalid, 0, [], [], [], [], []⟩

def isAbleToExcludePrivateIps (p : PeerProxy) : Bool :=
  p.allowedIpsState == .containsIpv4PublicNetworks || p.allowedIpsState == .containsIpv4Wildcard

def isExcludingPrivateIps (p : PeerProxy) : Bool := p.allowedIpsState == .containsIpv4PublicNetworks

def getAllowedIpsSet (p : PeerProxy) : LinkedSet JString := LinkedSet.empty.addAll (Attribute.split p.allowedIps)

/-- The `newState` of `calculateAllowedIpsState`. -/
def newState (p : PeerProxy) : AllowedIpsState :=
  if p.totalPeers = 1 then
    if ipv4Wildcard.all p.getAllowedIpsSet.contains then .containsIpv4Wildcard
    else if ipv4PublicNetworks.all p.getAllowedIpsSet.contains then .containsIpv4PublicNetworks
    else .other
  else .invalid

def calculateAllowedIpsState (p : PeerProxy) : PeerProxy := { p with allowedIpsState := p.newState }

def setAllowedIps (p : PeerProxy) (value : JString) : PeerProxy :=
  { p with allowedIps := value }.calculateAllowedIpsState

/-- The body of the loop of `setExcludingPrivateIps`, on `output` and `replaced`. -/
def replaceNetwork (oldNetworks newNetworks : List JString) :
    LinkedSet JString × Bool → JString → LinkedSet JString × Bool
  | (output, replaced), network =>
    if oldNetworks.contains network then
      if !replaced then (output.addAll newNetworks, true) else (output, replaced)
    else (output.add network, replaced)

/-- The loop: the first of the old networks is replaced by all of the new ones, the others are dropped. -/
def replaceNetworks (oldNetworks newNetworks input : List JString) : LinkedSet JString :=
  (input.foldl (replaceNetwork oldNetworks newNetworks) (LinkedSet.empty, false)).1

/-- The text that `setExcludingPrivateIps` assigns. The capacity of `output` is not negative, since all of
the old networks are among the input (`PeerProxy.Bound.capacity`). -/
def excludingText (p : PeerProxy) (excludingPrivateIps : Bool) : JString :=
  let oldNetworks := if excludingPrivateIps then ipv4Wildcard else ipv4PublicNetworks
  let newNetworks := if excludingPrivateIps then ipv4PublicNetworks else ipv4Wildcard
  let output := replaceNetworks oldNetworks newNetworks p.getAllowedIpsSet.elems
  Attribute.join (if excludingPrivateIps then output.addAll p.dnsRoutes else output.removeAll p.dnsRoutes).elems

def setExcludingPrivateIps (p : PeerProxy) (excludingPrivateIps : Bool) : PeerProxy :=
  if !p.isAbleToExcludePrivateIps || p.isExcludingPrivateIps == excludingPrivateIps then p
  else
    { p.setAllowedIps (p.excludingText excludingPrivateIps) with
      allowedIpsState := if excludingPrivateIps then .containsIpv4PublicNetworks else .containsIpv4Wildcard }

/-- The `newDnsRoutes` of `setInterfaceDns`. -/
def newDnsRoutes (dnsServers : JString) : List JString :=
  ((Attribute.split dnsServers).filter fun it => !it.contains (unit ':')).map (· ++ text "/32")

/-- The text that `setInterfaceDns` assigns. -/
def reroutedText (p : PeerProxy) (newDnsRoutes : List JString) : JString :=
  let output := (p.getAllowedIpsSet.elems.filter fun it =>
    !p.dnsRoutes.contains it || newDnsRoutes.contains it) ++ newDnsRoutes
  Attribute.join output.eraseDups

def setInterfaceDns (p : PeerProxy) (dnsServers : JString) : PeerProxy :=
  let newDnsRoutes := newDnsRoutes dnsServers
  { (if p.allowedIpsState = .containsIpv4PublicNetworks then p.setAllowedIps (p.reroutedText newDnsRoutes) else p)
    with dnsRoutes := newDnsRoutes }

def setTotalPeers (p : PeerProxy) (totalPeers : Nat) : PeerProxy :=
  if p.totalPeers = totalPeers then p else { p with totalPeers }.calculateAllowedIpsState

def bind (p : PeerProxy) (dnsServers : JString) (peers : Nat) : PeerProxy :=
  (p.setInterfaceDns dnsServers).setTotalPeers peers

/-- `PeerProxy(other)` -/
def ofPeer (P : Platform) (other : Peer) : PeerProxy :=
  { init.setAllowedIps (Attribute.join (other.allowedIps.elems.map (·.toString P))) with
    endpoint := (other.endpoint.map InetEndpoint.toString).getD []
    persistentKeepalive := (other.persistentKeepalive.map decimal).getD []
    preSharedKey := (other.preSharedKey.map Key.toBase64).getD []
    publicKey := other.publicKey.toBase64 }

end PeerProxy

/-- `if (text.isNotEmpty()) builder.parse(text)` -/
def parseNotEmpty {β : Type} (parse : β → JString → Except BadConfigException β) (text : JString) (builder : β) :
    Except BadConfigException β :=
  if text.isEmpty then .ok builder else parse builder text

def PeerProxy.resolve (P : Platform) (p : PeerProxy) : Except BadConfigException Peer := do
  let builder ← parseNotEmpty (PeerBuilder.parseAllowedIPs P) p.allowedIps .init
  let builder ← parseNotEmpty (PeerBuilder.parseEndpoint P) p.endpoint builder
  let builder ← parseNotEmpty PeerBuilder.parsePersistentKeepalive p.persistentKeepalive builder
  let builder ← parseNotEmpty PeerBuilder.parsePreSharedKey p.preSharedKey builder
  let builder ← parseNotEmpty PeerBuilder.parsePublicKey p.publicKey builder
  builder.build

/-! ## The interface -/

structure InterfaceProxy where
  excludedApplications : List JString
  includedApplications : List JString
  addresses : JString
  dnsServers : JString
  listenPort : JString
  mtu : JString
  privateKey : JString
  deriving DecidableEq

def InterfaceBuilder.excludeApplications (b : InterfaceBuilder) (applications : List JString) : InterfaceBuilder :=
  { b with excludedApplications := b.excludedApplications.addAll applications }

def InterfaceBuilder.includeApplications (b : InterfaceBuilder) (applications : List JString) : InterfaceBuilder :=
  { b with includedApplications := b.includedApplications.addAll applications }

namespace InterfaceProxy

/-- `InterfaceProxy()` -/
def init : InterfaceProxy := ⟨[], [], [], [], [], [], []⟩

/-- `InterfaceProxy(other)` -/
def ofInterface (P : Platform) (other : Interface) : InterfaceProxy where
  addresses := Attribute.join (other.addresses.elems.map (·.toString P))
  dnsServers := Attribute.join (other.dnsServers.elems.map P.getHostAddress ++ other.dnsSearchDomains.elems)
  excludedApplications := other.excludedApplications.elems
  includedApplications := other.includedApplications.elems
  listenPort := (other.listenPort.map decimal).getD []
  mtu := (other.mtu.map decimal).getD []
  privateKey := other.privateKey.toBase64

def resolve (P : Platform) (p : InterfaceProxy) : Except BadConfigException Interface := do
  let builder ← parseNotEmpty (InterfaceBuilder.parseAddresses P) p.addresses .init
  let builder ← parseNotEmpty (InterfaceBuilder.parseDnsServers P) p.dnsServers builder
  let builder := if p.excludedApplications.isEmpty then builder
    else builder.excludeApplications p.excludedApplications
  let builder := if p.includedApplications.isEmpty then builder
    else builder.includeApplications p.includedApplications
  let builder ← parseNotEmpty InterfaceBuilder.parseListenPort p.listenPort builder
  let builder ← parseNotEmpty InterfaceBuilder.parseMtu p.mtu builder
  let builder ← parseNotEmpty InterfaceBuilder.parsePrivateKey p.privateKey builder
  builder.build

end InterfaceProxy

/-! ## Configurations -/

/-- The peers of the list are those that are bound. -/
structure ConfigProxy where
  interfaze : InterfaceProxy
  peers : List PeerProxy
  deriving DecidableEq

namespace ConfigProxy

/-- `ConfigProxy()` -/
def init : ConfigProxy := ⟨.init, []⟩

/-- `peers.add(proxy)`, which the listeners of the other peers hear of, and `proxy.bind(this)`. -/
def attach (c : ConfigProxy) (proxy : PeerProxy) : ConfigProxy :=
  let size := c.peers.length + 1
  { c with peers := c.peers.map (·.setTotalPeers size) ++ [proxy.bind c.interfaze.dnsServers size] }

/-- `ConfigProxy(other)` -/
def ofConfig (P : Platform) (other : Config) : ConfigProxy :=
  other.peers.foldl (fun c peer => c.attach (.ofPeer P peer)) ⟨.ofInterface P other.interfaze, []⟩

def resolve (P : Platform) (c : ConfigProxy) : Except BadConfigException Config := do
  let resolvedPeers ← c.peers.mapM (·.resolve P)
  let interfaze ← c.interfaze.resolve P
  return ⟨interfaze, resolvedPeers⟩

end ConfigProxy

/-! ## Parcels -/

/-- What is written to a parcel. A `Parcelable` is preceded by a mark that it is there. -/
inductive ParcelValue where
  | present
  | count (n : Nat)
  | string (s : JString)
  | stringList (xs : List JString)
  deriving DecidableEq

/-- Values come out in the order in which they were written. -/
abbrev Parcel : Type := List ParcelValue

namespace Parcel

/-- `readString() ?: ""` -/
def readString : StateM Parcel JString := fun
  | .string s :: parcel => (s, parcel)
  | parcel => ([], parcel)

def readStringList : StateM Parcel (List JString) := fun
  | .stringList xs :: parcel => (xs, parcel)
  | parcel => ([], parcel)

/-- `readParcelable`, with what the creator reads; `none` is `null`. -/
def readParcelable {α : Type} (create : StateM Parcel α) : StateM Parcel (Option α) := fun
  | .present :: parcel => (create parcel).map some id
  | parcel => (none, parcel)

/-- So many elements of a list. -/
def readElements {α : Type} (create : StateM Parcel α) : Nat → StateM Parcel (List α)
  | 0 => pure []
  | n + 1 => do
    let x ← readParcelable create
    let xs ← readElements create n
    return x.toList ++ xs

/-- `readParcelableList`, `readTypedList` -/
def readParcelableList {α : Type} (create : StateM Parcel α) : StateM Parcel (List α) := fun
  | .count n :: parcel => readElements create n parcel
  | parcel => ([], parcel)

def writeParcelableList {α : Type} (write : α → Parcel) (xs : List α) : Parcel :=
  .count xs.length :: xs.flatMap fun x => .present :: write x

end Parcel

open Parcel

namespace PeerProxy

def writeToParcel (p : PeerProxy) : Parcel :=
  [.string p.allowedIps, .string p.endpoint, .string p.persistentKeepalive, .string p.preSharedKey,
    .string p.publicKey]

/-- `PeerProxy(parcel)` -/
def ofParcel : StateM Parcel PeerProxy := do
  let p := init.setAllowedIps (← readString)
  let endpoint ← readString
  let persistentKeepalive ← readString
  let preSharedKey ← readString
  let publicKey ← readString
  return { p with endpoint, persistentKeepalive, preSharedKey, publicKey }

end PeerProxy

namespace InterfaceProxy

def writeToParcel (p : InterfaceProxy) : Parcel :=
  [.string p.addresses, .string p.dnsServers, .stringList p.excludedApplications,
    .stringList p.includedApplications, .string p.listenPort, .string p.mtu, .string p.privateKey]

/-- `InterfaceProxy(parcel)` -/
def ofParcel : StateM Parcel InterfaceProxy := do
  let addresses ← readString
  let dnsServers ← readString
  let excludedApplications ← readStringList
  let includedApplications ← readStringList
  let listenPort ← readString
  let mtu ← readString
  let privateKey ← readString
  return { addresses, dnsServers, excludedApplications, includedApplications, listenPort, mtu, privateKey }

end InterfaceProxy

namespace ConfigProxy

def writeToParcel (c : ConfigProxy) : Parcel :=
  .present :: c.interfaze.writeToParcel ++ writeParcelableList PeerProxy.writeToParcel c.peers

/-- `ConfigProxy(parcel)` -/
def ofParcel (parcel : Parcel) : ConfigProxy :=
  let (interfaze, parcel) := readParcelable InterfaceProxy.ofParcel parcel
  let interfaze := interfaze.getD .init
  let (peers, _) := readParcelableList PeerProxy.ofParcel parcel
  ⟨interfaze, peers.map (·.bind interfaze.dnsServers peers.length)⟩

end ConfigProxy

/-! ## Fields and their texts -/

section Fields

variable {β : Type} {parse : β → JString → Except BadConfigException β} {b b' : β}

theorem parseNotEmpty_nil : parseNotEmpty parse [] b = .ok b := rfl

theorem parseNotEmpty_of_ne_nil {t : JString} (h : t ≠ []) : parseNotEmpty parse t b = parse b t := by
  rw [parseNotEmpty, if_neg (mt List.isEmpty_iff.mp h)]

theorem parseNotEmpty_join {xs : List JString} (hnil : xs = [] → b = b')
    (hcons : xs ≠ [] → Attribute.CleanValue (Attribute.join xs) ∧ parse b (Attribute.join xs) = .ok b') :
    parseNotEmpty parse (Attribute.join xs) b = .ok b' := by
  by_cases hxs : xs = []
  · rw [hnil hxs, hxs]
    rfl
  · obtain ⟨hclean, hparse⟩ := hcons hxs
    rw [parseNotEmpty_of_ne_nil hclean.nonempty, hparse]

theorem parseNotEmpty_option {α : Type} {f : α → JString} {o : Option α} (hnone : o = none → b = b')
    (hsome : ∀ x, o = some x → Plain (f x) ∧ parse b (f x) = .ok b') :
    parseNotEmpty parse ((o.map f).getD []) b = .ok b' := by
  cases o with
  | none =>
    rw [hnone rfl]
    rfl
  | some x =>
    obtain ⟨hplain, hparse⟩ := hsome x rfl
    exact (parseNotEmpty_of_ne_nil hplain.1).trans hparse

end Fields

namespace PeerProxy

variable {P : Platform} {b : PeerBuilder}

theorem parse_allowedIps {s : LinkedSet InetNetwork} (hP : P.LawfulAddresses) (hb : b.allowedIps = .empty)
    (h : ∀ n ∈ s.elems, InetNetwork.Parsed P n) :
    parseNotEmpty (PeerBuilder.parseAllowedIPs P) (Attribute.join (s.elems.map (·.toString P))) b =
      .ok { b with allowedIps := s } := by
  refine parseNotEmpty_join (fun hnil => ?_) fun hne => ?_
  · rw [← LinkedSet.addAll_distinct s, List.map_eq_nil_iff.mp hnil, LinkedSet.addAll_nil, ← hb]
  · have hne : s.elems ≠ [] := fun hnil => hne (List.map_eq_nil_iff.mpr hnil)
    exact ⟨InetNetwork.cleanValue_join hP h hne, Peer.parseAllowedIPs_join hP hb h hne⟩

theorem parse_endpoint {e : Option InetEndpoint} (hU : P.LawfulUri) (hb : b.endpoint = none)
    (h : ∀ x ∈ e, InetEndpoint.Parsed P x) :
    parseNotEmpty (PeerBuilder.parseEndpoint P) ((e.map InetEndpoint.toString).getD []) b =
      .ok { b with endpoint := e } := by
  refine parseNotEmpty_option (fun hnone => by rw [hnone, ← hb]) fun x hx => ?_
  subst hx
  exact ⟨InetEndpoint.plain_toString hU (h x rfl), Peer.parseEndpoint_toString hU (h x rfl)⟩

theorem parse_keepalive {k : Option Nat} (h : ∀ n ∈ k, 0 < n ∧ n ≤ 65535) (hb : b.persistentKeepalive = none) :
    parseNotEmpty PeerBuilder.parsePersistentKeepalive ((k.map decimal).getD []) b =
      .ok { b with persistentKeepalive := k, keepalive_range := h } := by
  refine parseNotEmpty_option (fun hnone => ?_) fun n hn => ?_
  · cases b
    cases hb
    cases hnone
    rfl
  · subst hn
    exact ⟨plain_decimal n, Peer.parsePersistentKeepalive_decimal h⟩

theorem parse_preSharedKey {k : Option Key} (hb : b.preSharedKey = none) :
    parseNotEmpty PeerBuilder.parsePreSharedKey ((k.map Key.toBase64).getD []) b =
      .ok { b with preSharedKey := k } := by
  refine parseNotEmpty_option (fun hnone => by rw [hnone, ← hb]) fun key hkey => ?_
  subst hkey
  exact ⟨key.plain_toBase64, Peer.parsePreSharedKey_toBase64⟩

theorem parse_publicKey {k : Key} :
    parseNotEmpty PeerBuilder.parsePublicKey k.toBase64 b = .ok { b with publicKey := some k } := by
  rw [parseNotEmpty_of_ne_nil k.plain_toBase64.1, Peer.parsePublicKey_toBase64]

/-- The fields of a peer that was parsed are read back. -/
theorem resolve_ofPeer (hP : P.LawfulAddresses) (hU : P.LawfulUri) {p : Peer} (h : p.Parsed P) :
    (ofPeer P p).resolve P = .ok p := by
  simp only [resolve, Checked.bind_eq_ok]
  exact ⟨_, parse_allowedIps hP rfl h.allowedIps, _, parse_endpoint hU rfl h.endpoint,
    _, parse_keepalive p.keepalive_range rfl, _, parse_preSharedKey rfl, _, parse_publicKey, rfl⟩

end PeerProxy

namespace InterfaceProxy

variable {P : Platform} {b : InterfaceBuilder}

theorem parse_addresses {s : LinkedSet InetNetwork} (hP : P.LawfulAddresses) (hb : b.addresses = .empty)
    (h : ∀ n ∈ s.elems, InetNetwork.Parsed P n) :
    parseNotEmpty (InterfaceBuilder.parseAddresses P) (Attribute.join (s.elems.map (·.toString P))) b =
      .ok { b with addresses := s } := by
  refine parseNotEmpty_join (fun hnil => ?_) fun hne => ?_
  · rw [← LinkedSet.addAll_distinct s, List.map_eq_nil_iff.mp hnil, LinkedSet.addAll_nil, ← hb]
  · have hne : s.elems ≠ [] := fun hnil => hne (List.map_eq_nil_iff.mpr hnil)
    exact ⟨InetNetwork.cleanValue_join hP h hne, Interface.parseAddresses_join hP hb h hne⟩

/-- Search domains are read back even where there is no server. -/
theorem parse_dnsServers {i : Interface} (hP : P.LawfulAddresses) (h : i.Parsed P)
    (hb₁ : b.dnsServers = .empty) (hb₂ : b.dnsSearchDomains = .empty) :
    parseNotEmpty (InterfaceBuilder.parseDnsServers P)
        (Attribute.join (i.dnsServers.elems.map P.getHostAddress ++ i.dnsSearchDomains.elems)) b =
      .ok { b with dnsServers := i.dnsServers, dnsSearchDomains := i.dnsSearchDomains } := by
  refine parseNotEmpty_join (fun hnil => ?_) fun hne => ?_
  · rw [List.append_eq_nil_iff, List.map_eq_nil_iff] at hnil
    rw [← LinkedSet.addAll_distinct i.dnsServers, ← LinkedSet.addAll_distinct i.dnsSearchDomains,
      hnil.1, hnil.2, LinkedSet.addAll_nil, LinkedSet.addAll_nil, ← hb₁, ← hb₂]
  · refine ⟨Attribute.cleanValue_join_of_plain ?_ hne, Interface.parseDnsServers_join hP h hb₁ hb₂ hne⟩
    exact Interface.plain_dnsTexts hP h.dnsServers fun d hd => (h.dnsSearchDomains d hd).1

theorem exclude_elems {s : LinkedSet JString} (hb : b.excludedApplications = .empty) :
    (if s.elems.isEmpty then b else b.excludeApplications s.elems) = { b with excludedApplications := s } := by
  have hset : s = b.excludedApplications.addAll s.elems := by rw [hb, LinkedSet.addAll_distinct]
  split
  · next hempty =>
    rw [List.isEmpty_iff.mp hempty, LinkedSet.addAll_nil] at hset
    rw [hset]
  · rw [InterfaceBuilder.excludeApplications, ← hset]

theorem include_elems {s : LinkedSet JString} (hb : b.includedApplications = .empty) :
    (if s.elems.isEmpty then b else b.includeApplications s.elems) = { b with includedApplications := s } := by
  have hset : s = b.includedApplications.addAll s.elems := by rw [hb, LinkedSet.addAll_distinct]
  split
  · next hempty =>
    rw [List.isEmpty_iff.mp hempty, LinkedSet.addAll_nil] at hset
    rw [hset]
  · rw [InterfaceBuilder.includeApplications, ← hset]

theorem parse_listenPort {p : Option Nat} (h : ∀ n ∈ p, 0 < n ∧ n ≤ 65535) (hb : b.listenPort = none) :
    parseNotEmpty InterfaceBuilder.parseListenPort ((p.map decimal).getD []) b =
      .ok { b with listenPort := p, listenPort_range := h } := by
  refine parseNotEmpty_option (fun hnone => ?_) fun n hn => ?_
  · cases b
    cases hb
    cases hnone
    rfl
  · subst hn
    exact ⟨plain_decimal n, Interface.parseListenPort_decimal h⟩

theorem parse_mtu {m : Option Nat} (h : ∀ n ∈ m, 0 < n ∧ n ≤ 2147483647) (hb : b.mtu = none) :
    parseNotEmpty InterfaceBuilder.parseMtu ((m.map decimal).getD []) b =
      .ok { b with mtu := m, mtu_range := h } := by
  refine parseNotEmpty_option (fun hnone => ?_) fun n hn => ?_
  · cases b
    cases hb
    cases hnone
    rfl
  · subst hn
    exact ⟨plain_decimal n, Interface.parseMtu_decimal h⟩

theorem parse_privateKey {k : Key} :
    parseNotEmpty InterfaceBuilder.parsePrivateKey k.toBase64 b = .ok { b with privateKey := some k } := by
  rw [parseNotEmpty_of_ne_nil k.plain_toBase64.1, Interface.parsePrivateKey_toBase64]

/-- The fields of an interface that was parsed are read back. -/
theorem resolve_ofInterface (hP : P.LawfulAddresses) {i : Interface} (h : i.Parsed P) :
    (ofInterface P i).resolve P = .ok i := by
  unfold resolve
  rw [ofInterface, parse_addresses hP rfl h.addresses, Checked.ok_bind, parse_dnsServers hP h rfl rfl, Checked.ok_bind]
  dsimp only
  rw [exclude_elems rfl, include_elems rfl, parse_listenPort i.listenPort_range rfl, Checked.ok_bind,
    parse_mtu i.mtu_range rfl, Checked.ok_bind, parse_privateKey, Checked.ok_bind]
  exact Interface.build_toBuilder i

end InterfaceProxy

/-! ## Opening and saving -/

namespace PeerProxy

/-- What `resolve` reads. -/
def texts (p : PeerProxy) : JString × JString × JString × JString × JString :=
  (p.allowedIps, p.endpoint, p.persistentKeepalive, p.preSharedKey, p.publicKey)

theorem texts_setTotalPeers {p : PeerProxy} {n : Nat} : (p.setTotalPeers n).texts = p.texts := by
  unfold setTotalPeers
  split <;> rfl

/-- Only a peer that excludes private addresses takes the routes to the DNS servers into its networks. -/
theorem texts_setInterfaceDns {p : PeerProxy} {dns : JString} (h : p.isExcludingPrivateIps = false) :
    (p.setInterfaceDns dns).texts = p.texts := by
  have h : p.allowedIpsState ≠ .containsIpv4PublicNetworks := by simpa [isExcludingPrivateIps] using h
  rw [setInterfaceDns, if_neg h]
  rfl

theorem texts_bind {p : PeerProxy} {dns : JString} {n : Nat} (h : p.isExcludingPrivateIps = false) :
    (p.bind dns n).texts = p.texts := by
  rw [bind, texts_setTotalPeers, texts_setInterfaceDns h]

/-- A proxy with the same texts that no configuration has bound yet. -/
def ofTexts : JString × JString × JString × JString × JString → PeerProxy
  | (allowedIps, endpoint, persistentKeepalive, preSharedKey, publicKey) =>
    { init.setAllowedIps allowedIps with endpoint, persistentKeepalive, preSharedKey, publicKey }

theorem resolve_ofTexts {P : Platform} {p : PeerProxy} : (ofTexts p.texts).resolve P = p.resolve P := rfl

theorem ofParcel_writeToParcel {p : PeerProxy} {parcel : Parcel} :
    ofParcel (p.writeToParcel ++ parcel) = (ofTexts p.texts, parcel) := rfl

end PeerProxy

namespace Parcel

variable {α : Type} {create : StateM Parcel α} {write : α → Parcel} {f : α → α}

theorem read_bind {β γ : Type} {m : StateM Parcel β} {k : β → StateM Parcel γ} {parcel rest : Parcel} {x : β}
    (h : m parcel = (x, rest)) : (m >>= k) parcel = k x rest := by
  simp only [Bind.bind, StateT.bind, h]

theorem readElements_write (h : ∀ x parcel, create (write x ++ parcel) = (f x, parcel)) {xs : List α}
    {parcel : Parcel} :
    readElements create xs.length ((xs.flatMap fun x => .present :: write x) ++ parcel) = (xs.map f, parcel) := by
  induction xs with
  | nil => rfl
  | cons x xs ih =>
    have hread : readParcelable create (.present :: (write x ++ ((xs.flatMap fun x => .present :: write x) ++ parcel))) =
        (some (f x), (xs.flatMap fun x => .present :: write x) ++ parcel) := by
      rw [readParcelable, h]
      rfl
    rw [List.flatMap_cons, List.cons_append, List.cons_append, List.append_assoc, List.length_cons, readElements,
      read_bind hread, read_bind ih]
    rfl

theorem readParcelableList_write (h : ∀ x parcel, create (write x ++ parcel) = (f x, parcel)) {xs : List α}
    {parcel : Parcel} :
    readParcelableList create (writeParcelableList write xs ++ parcel) = (xs.map f, parcel) :=
  readElements_write h

end Parcel

namespace ConfigProxy

variable {P : Platform}

theorem resolve_congr {c d : ConfigProxy} (hinterface : c.interfaze = d.interfaze)
    (htexts : c.peers.map PeerProxy.texts = d.peers.map PeerProxy.texts) : c.resolve P = d.resolve P := by
  have hpeers : ∀ peers : List PeerProxy, peers.mapM (PeerProxy.resolve P) =
      (peers.map PeerProxy.texts).mapM fun t => (PeerProxy.ofTexts t).resolve P := fun peers => by
    rw [List.mapM_map]
    rfl
  rw [resolve, resolve, hpeers, hpeers, htexts, hinterface]

theorem texts_attach {c : ConfigProxy} {p : PeerProxy} (h : p.isExcludingPrivateIps = false) :
    (c.attach p).peers.map PeerProxy.texts = c.peers.map PeerProxy.texts ++ [p.texts] := by
  rw [attach, List.map_append, List.map_map, List.map_singleton, PeerProxy.texts_bind h]
  congr 1
  exact List.map_congr_left fun _ _ => PeerProxy.texts_setTotalPeers

/-- The peers are bound one after the other, and each one hears of those that follow. -/
theorem texts_ofConfig (other : Config) :
    (ofConfig P other).interfaze = .ofInterface P other.interfaze ∧
      (ofConfig P other).peers.map PeerProxy.texts = other.peers.map fun peer => (PeerProxy.ofPeer P peer).texts := by
  have hfold : ∀ (peers : List Peer) (c : ConfigProxy),
      (peers.foldl (fun c peer => c.attach (.ofPeer P peer)) c).interfaze = c.interfaze ∧
        (peers.foldl (fun c peer => c.attach (.ofPeer P peer)) c).peers.map PeerProxy.texts =
          c.peers.map PeerProxy.texts ++ peers.map fun peer => (PeerProxy.ofPeer P peer).texts := by
    intro peers
    induction peers with
    | nil => exact fun c => ⟨rfl, (List.append_nil _).symm⟩
    | cons peer peers ih =>
      intro c
      obtain ⟨hinterface, htexts⟩ := ih (c.attach (.ofPeer P peer))
      refine ⟨hinterface, htexts.trans ?_⟩
      rw [texts_attach rfl, List.append_assoc]
      rfl
  exact hfold other.peers _

theorem texts_ofParcel {c : ConfigProxy} :
    (ofParcel c.writeToParcel).interfaze = c.interfaze ∧
      (ofParcel c.writeToParcel).peers.map PeerProxy.texts = c.peers.map PeerProxy.texts := by
  refine ⟨rfl, ?_⟩
  have hpeers : (readParcelableList PeerProxy.ofParcel (writeParcelableList PeerProxy.writeToParcel c.peers)).1 =
      c.peers.map fun p => PeerProxy.ofTexts p.texts := by
    rw [← List.append_nil (writeParcelableList _ _), readParcelableList_write fun _ _ => PeerProxy.ofParcel_writeToParcel]
  show ((readParcelableList PeerProxy.ofParcel (writeParcelableList PeerProxy.writeToParcel c.peers)).1.map _).map _ = _
  rw [hpeers, List.map_map, List.map_map]
  exact List.map_congr_left fun p _ => PeerProxy.texts_bind rfl

theorem resolve_ofConfig (hP : P.LawfulAddresses) (hU : P.LawfulUri) {other : Config} (h : other.Parsed P) :
    (ofConfig P other).resolve P = .ok other := by
  obtain ⟨hinterface, htexts⟩ := texts_ofConfig (P := P) other
  have hpeers : (other.peers.map (PeerProxy.ofPeer P)).mapM (PeerProxy.resolve P) = .ok other.peers := by
    rw [Checked.mapM_eq_ok, List.forall₂_map_left_iff, List.forall₂_same]
    exact fun peer hpeer => PeerProxy.resolve_ofPeer hP hU (h.peers peer hpeer)
  have hcongr : (ofConfig P other).resolve P =
      resolve P ⟨.ofInterface P other.interfaze, other.peers.map (PeerProxy.ofPeer P)⟩ :=
    resolve_congr hinterface (by rw [htexts, List.map_map]; rfl)
  rw [hcongr, resolve, hpeers, Checked.ok_bind, InterfaceProxy.resolve_ofInterface hP h.interfaze]
  rfl

/-- A configuration that is opened in the editor and saved unchanged is the same, also if the editor is
put into a parcel in between. -/
theorem resolve_opened (P : Platform) (hP : P.LawfulAddresses) (hU : P.LawfulUri) (input : JString) (c : Config)
    (h : Config.parse P input = .ok c) :
    (ofConfig P c).resolve P = .ok c ∧ (ofParcel (ofConfig P c).writeToParcel).resolve P = .ok c := by
  have hresolve := resolve_ofConfig hP hU (Config.parsed_of_parse h)
  refine ⟨hresolve, ?_⟩
  obtain ⟨hinterface, htexts⟩ := texts_ofParcel (c := ofConfig P c)
  rw [resolve_congr hinterface htexts, hresolve]

/-- A configuration with a search domain only and two peers, of which the first one routes everything. -/
def sampleOpened : JString :=
  unlines [text "[Interface]", text "Address = 192.0.2.2/32", text "DNS = example.com", text "MTU = 1280",
    text "PrivateKey = TFlmmEUC7V7VtiDYLKsbP5rySTKLIZq1yn8lMqK83wo=", text "[Peer]",
    text "AllowedIPs = 0.0.0.0/0, ::0/0", text "Endpoint = 192.0.2.1:51820",
    text "PublicKey = vBN7qyUTb5lJtWYJ8LhbPio1Z4RcyBPGnqFBGn6O6Qg=", text "[Peer]",
    text "PublicKey = TFlmmEUC7V7VtiDYLKsbP5rySTKLIZq1yn8lMqK83wo="]

theorem resolve_sampleOpened :
    ∃ c, Config.parse samplePlatform sampleOpened = .ok c ∧ c.peers.length = 2 ∧
      (ofConfig samplePlatform c).resolve samplePlatform = .ok c ∧
      (ofParcel (ofConfig samplePlatform c).writeToParcel).resolve samplePlatform = .ok c := by
  have hok : (Config.parse samplePlatform sampleOpened).map (·.peers.length) = .ok 2 := by decide +kernel
  obtain ⟨c, hparse, hlength⟩ := Checked.map_eq_ok hok
  exact ⟨c, hparse, hlength, resolve_opened samplePlatform samplePlatform_lawfulAddresses
    samplePlatform_lawfulUri sampleOpened c hparse⟩

end ConfigProxy

end WgAndroid
