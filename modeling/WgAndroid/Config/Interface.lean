import WgAndroid.Config.Attribute
import WgAndroid.Config.Network
import WgAndroid.Crypto.Key
import WgAndroid.Lib.Checked
import WgAndroid.Lib.LinkedSet

/-!
# The [Interface] section

`com.wireguard.config.Interface` with its builder, parser and printer.

Results:
1. `parse_effect`: what each line of an accepted section contributed to the result.
2. `parse_quickLines`: the printed lines of an interface that was parsed give it back, provided the
   printer kept every field (`Printable`).
-/

namespace WgAndroid

open Delimited

/-- `Interface.Builder`. The two setters keep the ranges. -/
structure InterfaceBuilder where
  addresses : LinkedSet InetNetwork
  dnsServers : LinkedSet InetAddress
  dnsSearchDomains : LinkedSet JString
  excludedApplications : LinkedSet JString
  includedApplications : LinkedSet JString
  privateKey : Option Key
  listenPort : Option Nat
  mtu : Option Nat
  listenPort_range : ∀ p ∈ listenPort, 0 < p ∧ p ≤ 65535
  mtu_range : ∀ m ∈ mtu, 0 < m ∧ m ≤ 2147483647

/-- `Interface`. Of the key pair only the private key is kept: the public one is computed from it. -/
structure Interface where
  addresses : LinkedSet InetNetwork
  dnsServers : LinkedSet InetAddress
  dnsSearchDomains : LinkedSet JString
  excludedApplications : LinkedSet JString
  includedApplications : LinkedSet JString
  privateKey : Key
  listenPort : Option Nat
  mtu : Option Nat
  listenPort_range : ∀ p ∈ listenPort, 0 < p ∧ p ≤ 65535
  mtu_range : ∀ m ∈ mtu, 0 < m ∧ m ≤ 2147483647
  exclusive : includedApplications.elems = [] ∨ excludedApplications.elems = []

namespace InterfaceBuilder

def init : InterfaceBuilder :=
  ⟨.empty, .empty, .empty, .empty, .empty, none, none, none, port_range_none, int_range_none⟩

/-- `catch (ParseException e) { throw new BadConfigException(INTERFACE, location, e); }` -/
def wrap {α : Type} (location : Location) (r : Except ParseException α) :
    Except BadConfigException α :=
  r.mapError (BadConfigException.ofParse .interface location)

def parseAddresses (P : Platform) (b : InterfaceBuilder) (addresses : JString) :
    Except BadConfigException InterfaceBuilder := do
  let networks ← wrap .address ((Attribute.split addresses).mapM (InetNetwork.parse P))
  pure { b with addresses := b.addresses.addAll networks }

/-- One entry of a `DNS` value: a server, or a search domain if it is no address but a host name. -/
def parseDnsServer (P : Platform) (dnsServer : JString) :
    Except ParseException (InetAddress ⊕ JString) :=
  match InetAddresses.parse P dnsServer with
  | .ok a => .ok (.inl a)
  | .error e =>
    if e.parsingClass ≠ .inetAddress || !InetAddresses.isHostname dnsServer then .error e
    else .ok (.inr dnsServer)

def parseDnsServers (P : Platform) (b : InterfaceBuilder) (dnsServers : JString) :
    Except BadConfigException InterfaceBuilder := do
  let entries ← wrap .dns ((Attribute.split dnsServers).mapM (parseDnsServer P))
  pure { b with
    dnsServers := b.dnsServers.addAll (entries.filterMap Sum.getLeft?)
    dnsSearchDomains := b.dnsSearchDomains.addAll (entries.filterMap Sum.getRight?) }

def parseExcludedApplications (b : InterfaceBuilder) (apps : JString) : InterfaceBuilder :=
  { b with excludedApplications := b.excludedApplications.addAll (Attribute.split apps) }

def parseIncludedApplications (b : InterfaceBuilder) (apps : JString) : InterfaceBuilder :=
  { b with includedApplications := b.includedApplications.addAll (Attribute.split apps) }


def setListenPort (b : InterfaceBuilder) (listenPort : Int) :
    Except BadConfigException InterfaceBuilder :=
  if h : listenPort < 0 ∨ listenPort > 65535 then
    .error ⟨.interface, .listenPort, .invalidValue, some (valueOf listenPort)⟩
  else .ok { b with listenPort := positive listenPort, listenPort_range := port_range h }

def parseListenPort (b : InterfaceBuilder) (listenPort : JString) :
    Except BadConfigException InterfaceBuilder :=
  match parseInt listenPort with
  | some i => b.setListenPort i
  | none => .error (.ofNumberFormat .interface .listenPort listenPort)

/-- The argument is an `int`. A negative value is reported at the location of the listen port. -/
def setMtu (b : InterfaceBuilder) (mtu : { i : Int // i ≤ 2147483647 }) :
    Except BadConfigException InterfaceBuilder :=
  if h : mtu.val < 0 then .error ⟨.interface, .listenPort, .invalidValue, some (valueOf mtu.val)⟩
  else .ok { b with mtu := positive mtu.val, mtu_range := int_range h mtu.property }

def parseMtu (b : InterfaceBuilder) (mtu : JString) : Except BadConfigException InterfaceBuilder :=
  match h : parseInt mtu with
  | some i => b.setMtu ⟨i, parseInt_le h⟩
  | none => .error (.ofNumberFormat .interface .mtu mtu)

def parsePrivateKey (b : InterfaceBuilder) (privateKey : JString) :
    Except BadConfigException InterfaceBuilder :=
  match Key.fromBase64 privateKey with
  | .ok key => .ok { b with privateKey := some key }
  | .error _ => .error (.ofKeyFormat .interface .privateKey)

def build (b : InterfaceBuilder) : Except BadConfigException Interface :=
  match b.privateKey with
  | none => .error ⟨.interface, .privateKey, .missingAttribute, none⟩
  | some privateKey =>
    if h : b.includedApplications.elems ≠ [] ∧ b.excludedApplications.elems ≠ [] then
      .error ⟨.interface, .includedApplications, .invalidKey, none⟩
    else .ok { b with privateKey, exclusive := by tauto }

end InterfaceBuilder

/-- The keys that the `switch` of `Interface.parse` knows. -/
inductive InterfaceKey where
  | address
  | dns
  | excludedApplications
  | includedApplications
  | listenPort
  | mtu
  | privateKey
  deriving DecidableEq

def InterfaceKey.ofText (key : JString) : Option InterfaceKey :=
  [(text "address", address),
   (text "dns", dns),
   (text "excludedapplications", excludedApplications),
   (text "includedapplications", includedApplications),
   (text "listenport", listenPort),
   (text "mtu", mtu),
   (text "privatekey", privateKey)].lookup (toLowerCase key)

namespace Interface

/-- The `switch` in the loop of `Interface.parse`. -/
def parseValue (P : Platform) (b : InterfaceBuilder) (value : JString) :
    InterfaceKey → Except BadConfigException InterfaceBuilder
  | .address => b.parseAddresses P value
  | .dns => b.parseDnsServers P value
  | .excludedApplications => .ok (b.parseExcludedApplications value)
  | .includedApplications => .ok (b.parseIncludedApplications value)
  | .listenPort => b.parseListenPort value
  | .mtu => b.parseMtu value
  | .privateKey => b.parsePrivateKey value

/-- The body of the loop of `Interface.parse`. -/
def parseLine (P : Platform) (b : InterfaceBuilder) (line : JString) :
    Except BadConfigException InterfaceBuilder :=
  match Attribute.parse line with
  | none => .error ⟨.interface, .topLevel, .syntaxError, some line⟩
  | some attr =>
    match InterfaceKey.ofText attr.key with
    | some key => parseValue P b attr.value key
    | none => .error ⟨.interface, .topLevel, .unknownAttribute, some attr.key⟩

def parse (P : Platform) (lines : List JString) : Except BadConfigException Interface := do
  let b ← lines.foldlM (parseLine P) .init
  b.build

/-- The values of the `DNS` line. Without a server nothing is printed, whatever the search domains. -/
def dnsValues (P : Platform) (i : Interface) : List JString :=
  if i.dnsServers.isEmpty then []
  else i.dnsServers.elems.map P.getHostAddress ++ i.dnsSearchDomains.elems

/-- The lines of `toWgQuickString`. -/
def quickLines (P : Platform) (i : Interface) : List JString :=
  Attribute.listLine "Address" (i.addresses.elems.map (·.toString P)) ++
  (Attribute.listLine "DNS" (i.dnsValues P) ++
  (Attribute.listLine "ExcludedApplications" i.excludedApplications.elems ++
  (Attribute.listLine "IncludedApplications" i.includedApplications.elems ++
  (Attribute.optLine "ListenPort" (i.listenPort.map decimal) ++
  (Attribute.optLine "MTU" (i.mtu.map decimal) ++
  [Attribute.line "PrivateKey" i.privateKey.toBase64])))))

def toWgQuickString (P : Platform) (i : Interface) : JString := unlines (i.quickLines P)

/-! ## What the lines contribute -/

/-- The pieces that a line gives for a key. -/
def lineEntries (key : InterfaceKey) (line : JString) : List JString :=
  match Attribute.parse line with
  | some attr => if InterfaceKey.ofText attr.key = some key then Attribute.split attr.value else []
  | none => []

/-- The pieces of all values of a key, over all lines. -/
def entries (key : InterfaceKey) (lines : List JString) : List JString :=
  lines.flatMap (lineEntries key)

open InterfaceBuilder

/-- What lines do to the builder. -/
structure Effect (P : Platform) (b : InterfaceBuilder) (lines : List JString)
    (b' : InterfaceBuilder) : Prop where
  addresses : ∃ networks, b'.addresses = b.addresses.addAll networks ∧
    ∀ n ∈ networks, InetNetwork.Parsed P n
  dns : ∃ found,
    List.Forall₂ (fun s e => parseDnsServer P s = .ok e) (entries .dns lines) found ∧
    b'.dnsServers = b.dnsServers.addAll (found.filterMap Sum.getLeft?) ∧
    b'.dnsSearchDomains = b.dnsSearchDomains.addAll (found.filterMap Sum.getRight?)
  excluded : b'.excludedApplications =
    b.excludedApplications.addAll (entries .excludedApplications lines)
  included : b'.includedApplications =
    b.includedApplications.addAll (entries .includedApplications lines)

theorem Effect.nil (P : Platform) (b : InterfaceBuilder) : Effect P b [] b where
  addresses := ⟨[], rfl, by simp⟩
  dns := ⟨[], .nil, rfl, rfl⟩
  excluded := rfl
  included := rfl

theorem Effect.append {P : Platform} {b₁ b₂ b₃ : InterfaceBuilder} {xs ys : List JString}
    (h₁ : Effect P b₁ xs b₂) (h₂ : Effect P b₂ ys b₃) : Effect P b₁ (xs ++ ys) b₃ where
  addresses := by
    obtain ⟨n₁, e₁, p₁⟩ := h₁.addresses
    obtain ⟨n₂, e₂, p₂⟩ := h₂.addresses
    refine ⟨n₁ ++ n₂, by rw [e₂, e₁, LinkedSet.addAll_append], fun n hn => ?_⟩
    exact (List.mem_append.mp hn).elim (p₁ n) (p₂ n)
  dns := by
    obtain ⟨f₁, m₁, s₁, d₁⟩ := h₁.dns
    obtain ⟨f₂, m₂, s₂, d₂⟩ := h₂.dns
    refine ⟨f₁ ++ f₂, ?_, ?_, ?_⟩
    · rw [entries, List.flatMap_append]
      exact List.rel_append m₁ m₂
    · rw [s₂, s₁, List.filterMap_append, LinkedSet.addAll_append]
    · rw [d₂, d₁, List.filterMap_append, LinkedSet.addAll_append]
  excluded := by
    rw [h₂.excluded, h₁.excluded, entries, entries, entries, List.flatMap_append,
      LinkedSet.addAll_append]
  included := by
    rw [h₂.included, h₁.included, entries, entries, entries, List.flatMap_append,
      LinkedSet.addAll_append]

/-- The fields that lists go into. -/
def sets (b : InterfaceBuilder) :=
  (b.addresses, b.dnsServers, b.dnsSearchDomains, b.excludedApplications, b.includedApplications)

theorem effect_of_sets_eq {P : Platform} {b b' : InterfaceBuilder} {lines : List JString}
    (hsets : sets b' = sets b) (hdns : entries .dns lines = [])
    (hexcluded : entries .excludedApplications lines = [])
    (hincluded : entries .includedApplications lines = []) : Effect P b lines b' := by
  simp only [sets, Prod.mk.injEq] at hsets
  obtain ⟨e₁, e₂, e₃, e₄, e₅⟩ := hsets
  refine ⟨⟨[], e₁, by simp⟩, ⟨[], ?_, e₂, e₃⟩, ?_, ?_⟩
  · rw [hdns]
    exact .nil
  · rw [hexcluded]
    exact e₄
  · rw [hincluded]
    exact e₅

theorem setListenPort_sets {b b' : InterfaceBuilder} {p : Int} (h : b.setListenPort p = .ok b') :
    sets b' = sets b := by
  unfold setListenPort at h
  split at h
  · cases h
  · cases h; rfl

theorem parseMtu_sets {b b' : InterfaceBuilder} {m : JString} (h : b.parseMtu m = .ok b') :
    sets b' = sets b := by
  unfold parseMtu at h
  split at h
  · unfold setMtu at h
    split at h
    · cases h
    · cases h; rfl
  · cases h

/-- What a line of a known key contributes. -/
theorem parseValue_effect {P : Platform} {b b' : InterfaceBuilder} {line : JString} {a : Attribute}
    {key : InterfaceKey} (ha : Attribute.parse line = some a)
    (hkey : InterfaceKey.ofText a.key = some key) (h : parseValue P b a.value key = .ok b') :
    Effect P b [line] b' := by
  have hentries : ∀ k, entries k [line] = if key = k then Attribute.split a.value else [] := by
    intro k
    simp [entries, lineEntries, ha, hkey]
  cases key with
  | address =>
    simp only [parseValue, parseAddresses, wrap, Checked.bind_eq_ok, Checked.mapError_eq_ok,
      Checked.mapM_eq_ok] at h
    obtain ⟨networks, hn, h⟩ := h
    cases h
    refine ⟨⟨networks, rfl, fun n hmem => ?_⟩, ⟨[], ?_, rfl, rfl⟩, ?_, ?_⟩
    · obtain ⟨s, _, hs⟩ := Checked.exists_of_mem_right hn hmem
      exact InetNetwork.parsed_of_parse hs
    all_goals simp [hentries]
  | dns =>
    simp only [parseValue, parseDnsServers, wrap, Checked.bind_eq_ok, Checked.mapError_eq_ok,
      Checked.mapM_eq_ok] at h
    obtain ⟨found, hf, h⟩ := h
    cases h
    refine ⟨⟨[], rfl, by simp⟩, ⟨found, ?_, rfl, rfl⟩, ?_, ?_⟩
    · rw [hentries]
      exact hf
    all_goals simp [hentries]
  | excludedApplications =>
    cases h
    refine ⟨⟨[], rfl, by simp⟩, ⟨[], ?_, rfl, rfl⟩, ?_, ?_⟩
    all_goals simp [hentries, parseExcludedApplications]
  | includedApplications =>
    cases h
    refine ⟨⟨[], rfl, by simp⟩, ⟨[], ?_, rfl, rfl⟩, ?_, ?_⟩
    all_goals simp [hentries, parseIncludedApplications]
  | listenPort =>
    refine effect_of_sets_eq ?_ (hentries _) (hentries _) (hentries _)
    simp only [parseValue, parseListenPort] at h
    split at h
    · exact setListenPort_sets h
    · cases h
  | mtu => exact effect_of_sets_eq (parseMtu_sets h) (hentries _) (hentries _) (hentries _)
  | privateKey =>
    refine effect_of_sets_eq ?_ (hentries _) (hentries _) (hentries _)
    simp only [parseValue, parsePrivateKey] at h
    split at h
    · cases h; rfl
    · cases h

theorem parseLine_effect {P : Platform} {b b' : InterfaceBuilder} {line : JString}
    (h : parseLine P b line = .ok b') : Effect P b [line] b' := by
  unfold parseLine at h
  split at h
  · cases h
  · next a ha =>
    split at h
    · next key hkey => exact parseValue_effect ha hkey h
    · cases h

theorem foldlM_effect {P : Platform} {b b' : InterfaceBuilder} {lines : List JString}
    (h : lines.foldlM (parseLine P) b = .ok b') : Effect P b lines b' :=
  Checked.foldlM_invariant (Effect P) (Effect.nil P)
    (fun hline hrest => (parseLine_effect hline).append hrest) h

theorem build_eq_ok {b : InterfaceBuilder} {i : Interface} (h : b.build = .ok i) :
    sets b = (i.addresses, i.dnsServers, i.dnsSearchDomains, i.excludedApplications,
      i.includedApplications) := by
  unfold build at h
  split at h
  · cases h
  · split at h
    · cases h
    · cases h; rfl

/-- What the lines of an accepted section contributed to the result. -/
theorem parse_effect {P : Platform} {lines : List JString} {i : Interface}
    (h : parse P lines = .ok i) :
    (∀ n ∈ i.addresses.elems, InetNetwork.Parsed P n) ∧
    (∃ found, List.Forall₂ (fun s e => parseDnsServer P s = .ok e) (entries .dns lines) found ∧
      i.dnsServers = LinkedSet.empty.addAll (found.filterMap Sum.getLeft?) ∧
      i.dnsSearchDomains = LinkedSet.empty.addAll (found.filterMap Sum.getRight?)) ∧
    i.excludedApplications = LinkedSet.empty.addAll (entries .excludedApplications lines) ∧
    i.includedApplications = LinkedSet.empty.addAll (entries .includedApplications lines) := by
  simp only [parse, Checked.bind_eq_ok] at h
  obtain ⟨b, hfold, hbuild⟩ := h
  have heffect := foldlM_effect hfold
  have hsets := build_eq_ok hbuild
  simp only [sets, Prod.mk.injEq] at hsets
  obtain ⟨e₁, e₂, e₃, e₄, e₅⟩ := hsets
  rw [← e₁, ← e₂, ← e₃, ← e₄, ← e₅]
  refine ⟨?_, heffect.dns, heffect.excluded, heffect.included⟩
  obtain ⟨networks, hn, hparsed⟩ := heffect.addresses
  intro n hmem
  rw [hn] at hmem
  rcases LinkedSet.mem_addAll hmem with h | h
  · cases h
  · exact hparsed n h

theorem mem_entries {key : InterfaceKey} {lines : List JString} {x : JString} :
    x ∈ entries key lines ↔ ∃ line ∈ lines, ∃ a, Attribute.parse line = some a ∧
      InterfaceKey.ofText a.key = some key ∧ x ∈ Attribute.split a.value := by
  rw [entries, List.mem_flatMap]
  refine exists_congr fun line => and_congr_right fun _ => ?_
  unfold lineEntries
  split
  · next a ha =>
    split
    · next hkey => simp [ha, hkey]
    · next hkey => simp [ha, hkey]
  · next ha => simp [ha]

/-- An interface that `parse` can return. -/
structure Parsed (P : Platform) (i : Interface) : Prop where
  addresses : ∀ n ∈ i.addresses.elems, InetNetwork.Parsed P n
  dnsServers : ∀ a ∈ i.dnsServers.elems, ∃ s, InetAddresses.parse P s = .ok a
  dnsSearchDomains : ∀ d ∈ i.dnsSearchDomains.elems,
    InetAddresses.isHostname d = true ∧ parseDnsServer P d = .ok (.inr d)
  applications : ∀ x ∈ i.excludedApplications.elems ++ i.includedApplications.elems,
    unit ',' ∉ x ∧ unit '#' ∉ x ∧ ∀ c ∈ x.head?, isSpace c = false

theorem parseDnsServer_inl {P : Platform} {s : JString} {a : InetAddress} :
    parseDnsServer P s = .ok (.inl a) ↔ InetAddresses.parse P s = .ok a := by
  unfold parseDnsServer
  split
  · next b hb => simp [hb]
  · next e he =>
    rw [he]
    split <;> simp

theorem parseDnsServer_inr {P : Platform} {s d : JString} (h : parseDnsServer P s = .ok (.inr d)) :
    s = d ∧ InetAddresses.isHostname d = true := by
  unfold parseDnsServer at h
  split at h
  · cases h
  · split at h
    · cases h
    · next hcond =>
      cases h
      simp only [Bool.or_eq_true, not_or] at hcond
      exact ⟨rfl, by simpa using hcond.2⟩

theorem application_of_mem_entries {key : InterfaceKey} {lines : List JString} {x : JString}
    (h : x ∈ entries key lines) : unit ',' ∉ x ∧ unit '#' ∉ x ∧ ∀ c ∈ x.head?, isSpace c = false := by
  obtain ⟨line, _, a, ha, _, hx⟩ := mem_entries.mp h
  obtain ⟨⟨_, hhead, hhash⟩, _⟩ := Attribute.isValue_of_parse ha
  exact ⟨sep_not_mem_piece hx, fun hc => hhash (mem_of_mem_piece hx hc), piece_head hhead hx⟩

theorem parsed_of_parse {P : Platform} {lines : List JString} {i : Interface}
    (h : parse P lines = .ok i) : Parsed P i := by
  obtain ⟨haddr, ⟨found, hfound, hservers, hdomains⟩, hexcluded, hincluded⟩ := parse_effect h
  refine ⟨haddr, fun a ha => ?_, fun d hd => ?_, fun x hx => ?_⟩
  · rw [hservers] at ha
    obtain ⟨e, he, hea⟩ := List.mem_filterMap.mp (LinkedSet.mem_of_mem_addAll_empty ha)
    obtain ⟨s, _, hs⟩ := Checked.exists_of_mem_right hfound he
    rw [Sum.getLeft?_eq_some_iff] at hea
    exact ⟨s, parseDnsServer_inl.mp (hea ▸ hs)⟩
  · rw [hdomains] at hd
    obtain ⟨e, he, hed⟩ := List.mem_filterMap.mp (LinkedSet.mem_of_mem_addAll_empty hd)
    obtain ⟨s, _, hs⟩ := Checked.exists_of_mem_right hfound he
    rw [Sum.getRight?_eq_some_iff] at hed
    subst hed
    obtain ⟨rfl, hhost⟩ := parseDnsServer_inr hs
    exact ⟨hhost, hs⟩
  · rcases List.mem_append.mp hx with hx | hx
    · exact application_of_mem_entries (LinkedSet.mem_of_mem_addAll_empty (hexcluded ▸ hx))
    · exact application_of_mem_entries (LinkedSet.mem_of_mem_addAll_empty (hincluded ▸ hx))

/-! ## Printing and parsing back -/

/-- A list of applications that survives printing: no piece holds a line terminator or ends with a
blank, and the last one ends with a character that `trim` keeps. -/
structure PrintableList (xs : List JString) : Prop where
  no_break : ∀ x ∈ xs, ∀ c ∈ x, isBreak c = false
  no_space : ∀ x ∈ xs, ∀ c ∈ x.getLast?, isSpace c = false
  last : ∀ x ∈ xs.getLast?, ∃ c ∈ x.getLast?, isTrim c = false

/-- An interface all of whose fields the printer writes. -/
structure Printable (i : Interface) : Prop where
  dns : i.dnsSearchDomains.elems = [] ∨ i.dnsServers.elems ≠ []
  excluded : PrintableList i.excludedApplications.elems
  included : PrintableList i.includedApplications.elems

theorem PrintableList.cleanValue {xs : List JString} (h : PrintableList xs) (hne : xs ≠ [])
    (hx : ∀ x ∈ xs, unit ',' ∉ x ∧ unit '#' ∉ x ∧ ∀ c ∈ x.head?, isSpace c = false) :
    Attribute.CleanValue (Attribute.join xs) :=
  Attribute.cleanValue_join hne (fun x hm => (hx x hm).2.2)
    (fun x hm c hc => ⟨h.no_break x hm c hc, fun he => (hx x hm).2.1 (he ▸ hc)⟩) h.last

theorem PrintableList.splittable {xs : List JString} (h : PrintableList xs)
    (hx : ∀ x ∈ xs, unit ',' ∉ x ∧ unit '#' ∉ x ∧ ∀ c ∈ x.head?, isSpace c = false) :
    Attribute.Splittable xs where
  stripped x hm := ⟨(hx x hm).2.2, h.no_space x hm⟩
  comma x hm := (hx x hm).1
  last x hm := by
    obtain ⟨c, hc, _⟩ := h.last x hm
    rintro rfl
    cases hc

theorem plain_of_isHostname {d : JString} (h : InetAddresses.isHostname d = true) : Plain d := by
  obtain ⟨hne, hchars⟩ := InetAddresses.isHostname_chars h
  refine ⟨hne, fun c hc => ?_⟩
  rcases hchars c hc with h | rfl | rfl
  · exact plain_char_of_isAlnum h
  · decide
  · decide

/-- The builder that holds the fields of an interface. -/
def toBuilder (i : Interface) : InterfaceBuilder :=
  { i with privateKey := some i.privateKey }

theorem build_toBuilder (i : Interface) : i.toBuilder.build = .ok i := by
  have hexclusive := i.exclusive
  unfold toBuilder build
  dsimp only
  rw [dif_neg (by tauto)]

section Lines

variable {P : Platform} {b : InterfaceBuilder}

theorem parseLine_line {name : String} {k : InterfaceKey} {v : JString}
    (hkey : Attribute.IsKey (text name)) (hof : InterfaceKey.ofText (text name) = some k)
    (hv : Attribute.CleanValue v) :
    parseLine P b (Attribute.line name v) = parseValue P b v k := by
  simp [parseLine, Attribute.parse_line hkey hv.isValue, hof]

theorem foldlM_listLine {name : String} {k : InterfaceKey} {values : List JString}
    {b' : InterfaceBuilder} (hkey : Attribute.IsKey (text name))
    (hof : InterfaceKey.ofText (text name) = some k) (hnil : values = [] → b = b')
    (hcons : values ≠ [] → Attribute.CleanValue (Attribute.join values) ∧
      parseValue P b (Attribute.join values) k = .ok b') :
    (Attribute.listLine name values).foldlM (parseLine P) b = .ok b' := by
  unfold Attribute.listLine
  split
  · next h => rw [hnil (List.isEmpty_iff.mp h)]; rfl
  · next h =>
    obtain ⟨hclean, hparse⟩ := hcons (fun he => h (List.isEmpty_iff.mpr he))
    rw [List.foldlM_cons, parseLine_line hkey hof hclean, hparse]
    rfl

theorem parseAddresses_join {s : LinkedSet InetNetwork} (hP : P.LawfulAddresses)
    (hb : b.addresses = .empty) (h : ∀ n ∈ s.elems, InetNetwork.Parsed P n) (hne : s.elems ≠ []) :
    b.parseAddresses P (Attribute.join (s.elems.map (·.toString P))) = .ok { b with addresses := s } := by
  rw [parseAddresses, InetNetwork.mapM_parse_split_join hP h hne, wrap, Except.mapError, Checked.ok_bind, hb,
    LinkedSet.addAll_distinct]
  rfl

theorem foldlM_address {s : LinkedSet InetNetwork} (hP : P.LawfulAddresses)
    (hb : b.addresses = .empty) (h : ∀ n ∈ s.elems, InetNetwork.Parsed P n) :
    (Attribute.listLine "Address" (s.elems.map (·.toString P))).foldlM (parseLine P) b =
      .ok { b with addresses := s } := by
  refine foldlM_listLine (k := .address) (by decide) (by decide) (fun hnil => ?_) fun hne => ?_
  · have : s = b.addresses := by
      rw [hb]
      exact LinkedSet.ext (by simpa using hnil)
    rw [this]
  · have hne' : s.elems ≠ [] := by simpa using hne
    exact ⟨InetNetwork.cleanValue_join hP h hne', parseAddresses_join hP hb h hne'⟩

/-- The pieces of the `DNS` line: first the servers, then the search domains. -/
theorem mapM_parseDnsServer {servers : List InetAddress} {domains : List JString}
    (hP : P.LawfulAddresses) (hservers : ∀ a ∈ servers, ∃ s, InetAddresses.parse P s = .ok a)
    (hdomains : ∀ d ∈ domains, parseDnsServer P d = .ok (.inr d)) :
    (servers.map P.getHostAddress ++ domains).mapM (parseDnsServer P) =
      .ok (servers.map .inl ++ domains.map .inr) := by
  rw [Checked.mapM_eq_ok]
  refine List.rel_append ?_ ?_
  · rw [List.forall₂_map_left_iff, List.forall₂_map_right_iff, List.forall₂_same]
    intro a ha
    obtain ⟨s, hs⟩ := hservers a ha
    exact parseDnsServer_inl.mpr (hP.parse_getHostAddress s a hs)
  · rw [List.forall₂_map_right_iff, List.forall₂_same]
    exact hdomains

theorem plain_dnsTexts {servers : List InetAddress} {domains : List JString} (hP : P.LawfulAddresses)
    (hservers : ∀ a ∈ servers, ∃ s, InetAddresses.parse P s = .ok a)
    (hdomains : ∀ d ∈ domains, InetAddresses.isHostname d = true) :
    ∀ x ∈ servers.map P.getHostAddress ++ domains, Plain x := by
  intro x hx
  rcases List.mem_append.mp hx with hx | hx
  · obtain ⟨a, ha, rfl⟩ := List.mem_map.mp hx
    obtain ⟨s, hs⟩ := hservers a ha
    exact hP.plain hs
  · exact plain_of_isHostname (hdomains x hx)

theorem plain_dnsValues {i : Interface} (hP : P.LawfulAddresses) (h : Parsed P i) :
    ∀ x ∈ i.dnsValues P, Plain x := by
  intro x hx
  unfold dnsValues at hx
  split at hx
  · cases hx
  · exact plain_dnsTexts hP h.dnsServers (fun d hd => (h.dnsSearchDomains d hd).1) x hx

/-- The servers and the search domains, with or without servers. -/
theorem parseDnsServers_join {i : Interface} (hP : P.LawfulAddresses) (h : Parsed P i)
    (hb₁ : b.dnsServers = .empty) (hb₂ : b.dnsSearchDomains = .empty)
    (hne : i.dnsServers.elems.map P.getHostAddress ++ i.dnsSearchDomains.elems ≠ []) :
    b.parseDnsServers P
        (Attribute.join (i.dnsServers.elems.map P.getHostAddress ++ i.dnsSearchDomains.elems)) =
      .ok { b with dnsServers := i.dnsServers, dnsSearchDomains := i.dnsSearchDomains } := by
  have hplain := plain_dnsTexts hP h.dnsServers fun d hd => (h.dnsSearchDomains d hd).1
  have hl : ((i.dnsServers.elems.map Sum.inl ++ i.dnsSearchDomains.elems.map Sum.inr).filterMap
      Sum.getLeft? : List InetAddress) = i.dnsServers.elems := by
    simp [List.filterMap_map, Function.comp_def]
  have hr : ((i.dnsServers.elems.map Sum.inl ++ i.dnsSearchDomains.elems.map Sum.inr).filterMap
      Sum.getRight? : List JString) = i.dnsSearchDomains.elems := by
    simp [List.filterMap_map, Function.comp_def]
  rw [parseDnsServers, Attribute.split_join (Attribute.splittable_of_plain hplain) hne,
    mapM_parseDnsServer hP h.dnsServers fun d hd => (h.dnsSearchDomains d hd).2, wrap, Except.mapError,
    Checked.ok_bind, hl, hr, hb₁, hb₂, LinkedSet.addAll_distinct, LinkedSet.addAll_distinct]
  rfl

theorem foldlM_dns {i : Interface} (hP : P.LawfulAddresses) (h : Parsed P i)
    (hdns : i.dnsSearchDomains.elems = [] ∨ i.dnsServers.elems ≠ [])
    (hb₁ : b.dnsServers = .empty) (hb₂ : b.dnsSearchDomains = .empty) :
    (Attribute.listLine "DNS" (i.dnsValues P)).foldlM (parseLine P) b =
      .ok { b with dnsServers := i.dnsServers, dnsSearchDomains := i.dnsSearchDomains } := by
  refine foldlM_listLine (k := .dns) (by decide) (by decide) (fun hnil => ?_) fun hne => ?_
  · have hservers : i.dnsServers.elems = [] := by
      by_contra hs
      simp [dnsValues, LinkedSet.isEmpty, hs] at hnil
    have hdomains : i.dnsSearchDomains.elems = [] := by tauto
    rw [← LinkedSet.addAll_distinct i.dnsServers, ← LinkedSet.addAll_distinct i.dnsSearchDomains,
      hservers, hdomains, LinkedSet.addAll_nil, LinkedSet.addAll_nil, ← hb₁, ← hb₂]
  · refine ⟨Attribute.cleanValue_join_of_plain (plain_dnsValues hP h) hne, ?_⟩
    have hvalues : i.dnsValues P =
        i.dnsServers.elems.map P.getHostAddress ++ i.dnsSearchDomains.elems := by
      unfold dnsValues at hne ⊢
      split
      · next he => simp [he] at hne
      · rfl
    rw [hvalues] at hne ⊢
    exact parseDnsServers_join hP h hb₁ hb₂ hne

theorem foldlM_excluded {s : LinkedSet JString} (h : PrintableList s.elems)
    (hx : ∀ x ∈ s.elems, unit ',' ∉ x ∧ unit '#' ∉ x ∧ ∀ c ∈ x.head?, isSpace c = false)
    (hb : b.excludedApplications = .empty) :
    (Attribute.listLine "ExcludedApplications" s.elems).foldlM (parseLine P) b =
      .ok { b with excludedApplications := s } := by
  refine foldlM_listLine (k := .excludedApplications) (by decide) (by decide) (fun hnil => ?_)
    fun hne => ⟨h.cleanValue hne hx, ?_⟩
  · rw [← LinkedSet.addAll_distinct s, hnil, LinkedSet.addAll_nil, ← hb]
  · rw [parseValue, parseExcludedApplications, Attribute.split_join (h.splittable hx) hne, hb,
      LinkedSet.addAll_distinct]

theorem foldlM_included {s : LinkedSet JString} (h : PrintableList s.elems)
    (hx : ∀ x ∈ s.elems, unit ',' ∉ x ∧ unit '#' ∉ x ∧ ∀ c ∈ x.head?, isSpace c = false)
    (hb : b.includedApplications = .empty) :
    (Attribute.listLine "IncludedApplications" s.elems).foldlM (parseLine P) b =
      .ok { b with includedApplications := s } := by
  refine foldlM_listLine (k := .includedApplications) (by decide) (by decide) (fun hnil => ?_)
    fun hne => ⟨h.cleanValue hne hx, ?_⟩
  · rw [← LinkedSet.addAll_distinct s, hnil, LinkedSet.addAll_nil, ← hb]
  · rw [parseValue, parseIncludedApplications, Attribute.split_join (h.splittable hx) hne, hb,
      LinkedSet.addAll_distinct]

theorem parseListenPort_decimal {n : Nat} (h : ∀ p ∈ some n, 0 < p ∧ p ≤ 65535) :
    b.parseListenPort (decimal n) = .ok { b with listenPort := some n, listenPort_range := h } := by
  obtain ⟨hpos, hle⟩ := h n rfl
  rw [parseListenPort, parseInt_decimal (by omega)]
  simp only [setListenPort, positive_natCast hpos]
  rw [dif_neg (by omega)]

theorem foldlM_listenPort {p : Option Nat} (h : ∀ n ∈ p, 0 < n ∧ n ≤ 65535)
    (hb : b.listenPort = none) :
    (Attribute.optLine "ListenPort" (p.map decimal)).foldlM (parseLine P) b =
      .ok { b with listenPort := p, listenPort_range := h } := by
  cases p with
  | none =>
    cases b
    cases hb
    rfl
  | some n =>
    simp only [Attribute.optLine, Option.map_some, Option.toList_some, List.map_cons, List.map_nil,
      List.foldlM_cons]
    rw [parseLine_line (k := .listenPort) (by decide) (by decide)
      (Attribute.cleanValue_of_plain (plain_decimal n)), parseValue, parseListenPort_decimal h]
    rfl

theorem parseMtu_decimal {n : Nat} (h : ∀ m ∈ some n, 0 < m ∧ m ≤ 2147483647) :
    b.parseMtu (decimal n) = .ok { b with mtu := some n, mtu_range := h } := by
  obtain ⟨hpos, hlt⟩ := h n rfl
  unfold parseMtu
  split
  · next i hi =>
    rw [parseInt_decimal (by omega)] at hi
    cases hi
    simp only [setMtu, positive_natCast hpos]
    rw [dif_neg (by omega)]
  · next hi =>
    rw [parseInt_decimal (by omega)] at hi
    cases hi

theorem foldlM_mtu {m : Option Nat} (h : ∀ n ∈ m, 0 < n ∧ n ≤ 2147483647) (hb : b.mtu = none) :
    (Attribute.optLine "MTU" (m.map decimal)).foldlM (parseLine P) b =
      .ok { b with mtu := m, mtu_range := h } := by
  cases m with
  | none =>
    cases b
    cases hb
    rfl
  | some n =>
    simp only [Attribute.optLine, Option.map_some, Option.toList_some, List.map_cons, List.map_nil,
      List.foldlM_cons]
    rw [parseLine_line (k := .mtu) (by decide) (by decide)
      (Attribute.cleanValue_of_plain (plain_decimal n)), parseValue, parseMtu_decimal h]
    rfl

theorem parsePrivateKey_toBase64 {k : Key} : b.parsePrivateKey k.toBase64 = .ok { b with privateKey := some k } := by
  rw [parsePrivateKey, Key.fromBase64_toBase64]

theorem foldlM_privateKey {k : Key} :
    [Attribute.line "PrivateKey" k.toBase64].foldlM (parseLine P) b =
      .ok { b with privateKey := some k } := by
  rw [List.foldlM_cons, parseLine_line (k := .privateKey) (by decide) (by decide)
    (Attribute.cleanValue_of_plain k.plain_toBase64), parseValue, parsePrivateKey_toBase64]
  rfl

end Lines

/-- The printed lines of an interface that was parsed give it back, provided the printer kept
every field. -/
theorem parse_quickLines {P : Platform} (hP : P.LawfulAddresses) {i : Interface} (h : Parsed P i)
    (hprint : Printable i) : parse P (i.quickLines P) = .ok i := by
  have hfold : (i.quickLines P).foldlM (parseLine P) .init = .ok i.toBuilder := by
    have happs : ∀ x ∈ i.excludedApplications.elems ++ i.includedApplications.elems, _ :=
      h.applications
    simp only [List.forall_mem_append] at happs
    simp only [quickLines, List.foldlM_append, Checked.bind_eq_ok]
    exact ⟨_, foldlM_address hP rfl h.addresses, _, foldlM_dns hP h hprint.dns rfl rfl,
      _, foldlM_excluded hprint.excluded happs.1 rfl, _, foldlM_included hprint.included happs.2 rfl,
      _, foldlM_listenPort i.listenPort_range rfl, _, foldlM_mtu i.mtu_range rfl,
      foldlM_privateKey⟩
  rw [parse, hfold]
  exact build_toBuilder i

/-- The applications listed under a key. -/
def applications (i : Interface) : InterfaceKey → List JString
  | .excludedApplications => i.excludedApplications.elems
  | .includedApplications => i.includedApplications.elems
  | _ => []

theorem Parsed.mem_applications {P : Platform} {i : Interface} (h : Parsed P i)
    {key : InterfaceKey} : ∀ x ∈ i.applications key,
    unit ',' ∉ x ∧ unit '#' ∉ x ∧ ∀ c ∈ x.head?, isSpace c = false := by
  intro x hx
  refine h.applications x (List.mem_append.mpr ?_)
  cases key with
  | excludedApplications => exact .inl hx
  | includedApplications => exact .inr hx
  | _ => cases hx

theorem Printable.applications {i : Interface} (h : Printable i) (key : InterfaceKey) :
    PrintableList (i.applications key) := by
  cases key with
  | excludedApplications => exact h.excluded
  | includedApplications => exact h.included
  | _ => exact ⟨by simp [Interface.applications], by simp [Interface.applications],
      by simp [Interface.applications]⟩

/-- Every printed line is the line of a key. Its value is clean, or it is a list of applications. -/
theorem quickLines_cases {P : Platform} (hP : P.LawfulAddresses) {i : Interface} (h : Parsed P i)
    {l : JString} (hl : l ∈ i.quickLines P) : ∃ name key v, Attribute.IsKey (text name) ∧
      InterfaceKey.ofText (text name) = some key ∧ l = Attribute.line name v ∧
      (Attribute.CleanValue v ∧ i.applications key = [] ∧ (key = .dns → i.dnsValues P ≠ []) ∨
        i.applications key ≠ [] ∧ v = Attribute.join (i.applications key)) := by
  simp only [quickLines, List.mem_append, List.mem_singleton, Attribute.mem_listLine,
    Attribute.mem_optLine, Option.mem_map] at hl
  rcases hl with ⟨hne, hl⟩ | ⟨hne, hl⟩ | ⟨hne, hl⟩ | ⟨hne, hl⟩ | ⟨v, ⟨n, _, rfl⟩, hl⟩ |
    ⟨v, ⟨n, _, rfl⟩, hl⟩ | hl
  · exact ⟨_, .address, _, by decide, by decide, hl, .inl ⟨InetNetwork.cleanValue_join hP h.addresses
      (by simpa using hne), rfl, by simp⟩⟩
  · exact ⟨_, .dns, _, by decide, by decide, hl, .inl ⟨Attribute.cleanValue_join_of_plain
      (plain_dnsValues hP h) hne, rfl, fun _ => hne⟩⟩
  · exact ⟨_, .excludedApplications, _, by decide, by decide, hl, .inr ⟨hne, rfl⟩⟩
  · exact ⟨_, .includedApplications, _, by decide, by decide, hl, .inr ⟨hne, rfl⟩⟩
  · exact ⟨_, .listenPort, _, by decide, by decide, hl, .inl ⟨Attribute.cleanValue_of_plain
      (plain_decimal n), rfl, by simp⟩⟩
  · exact ⟨_, .mtu, _, by decide, by decide, hl, .inl ⟨Attribute.cleanValue_of_plain
      (plain_decimal n), rfl, by simp⟩⟩
  · exact ⟨_, .privateKey, _, by decide, by decide, hl, .inl ⟨Attribute.cleanValue_of_plain
      i.privateKey.plain_toBase64, rfl, by simp⟩⟩

/-- The applications of a section come from its lines. -/
theorem mem_entries_of_parse {P : Platform} {lines : List JString} {i : Interface}
    (h : parse P lines = .ok i) {key : InterfaceKey} {x : JString} (hx : x ∈ i.applications key) :
    x ∈ entries key lines := by
  obtain ⟨_, _, hexcluded, hincluded⟩ := parse_effect h
  cases key with
  | excludedApplications => exact LinkedSet.mem_of_mem_addAll_empty (hexcluded ▸ hx)
  | includedApplications => exact LinkedSet.mem_of_mem_addAll_empty (hincluded ▸ hx)
  | _ => cases hx

/-- A printed line holds a line terminator only if an application does. -/
theorem quickLines_no_break {P : Platform} (hP : P.LawfulAddresses) {i : Interface}
    (h : Parsed P i) (happs : ∀ key, ∀ x ∈ i.applications key, ∀ c ∈ x, isBreak c = false) :
    ∀ l ∈ i.quickLines P, ∀ c ∈ l, isBreak c = false := by
  intro l hl c hc
  obtain ⟨name, key, v, hname, _, rfl, hv⟩ := quickLines_cases hP h hl
  simp only [Attribute.line, List.mem_append] at hc
  rcases hc with hc | hc | hc
  · exact isBreak_of_isTrim_false (Attribute.isTrim_of_isWord (hname.2 c hc))
  · have hsep : ∀ c ∈ text " = ", isBreak c = false := by decide
    exact hsep c hc
  · rcases hv with ⟨hv, _⟩ | ⟨_, rfl⟩
    · exact (hv.chars c hc).1
    · rcases Attribute.mem_join hc with rfl | rfl | ⟨x, hx, hc⟩
      · decide
      · decide
      · exact happs key x hx c hc

theorem cleanLine_of_mem_quickLines {P : Platform} (hP : P.LawfulAddresses) {i : Interface}
    (h : Parsed P i) (hprint : Printable i) {l : JString} (hl : l ∈ i.quickLines P) :
    Attribute.CleanLine l := by
  obtain ⟨name, key, v, hname, _, rfl, ⟨hv, _⟩ | ⟨hne, rfl⟩⟩ := quickLines_cases hP h hl
  · exact ⟨name, v, hname, hv, rfl⟩
  · exact ⟨name, _, hname, (hprint.applications key).cleanValue hne h.mem_applications, rfl⟩

end Interface

end WgAndroid
