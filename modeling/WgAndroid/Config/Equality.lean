import Mathlib.Data.BitVec
import Mathlib.Algebra.BigOperators.Group.List.Basic
import WgAndroid.Config.Sections

/-!
# Equality of configurations

The `equals` and `hashCode` methods of `Config`, `Interface`, `Peer` and their parts. All but one of the
classes compare contents; `KeyPair` has no `equals` of its own, so two key pairs are equal when they are
the same object.

Results:
1. `equals_iff`: configurations are equal when they have the same contents and share their key pair.
2. `hashCode_eq`: equal configurations have the same hash code.
-/

namespace WgAndroid

/-- `int` -/
abbrev Int32 := BitVec 32

/-- The hash codes of the platform's objects: equal ones have the same. That of an object without a
`hashCode` of its own depends on its reference. -/
structure HashCodes where
  inetAddress : InetAddress → Int32
  string : JString → Int32
  identity : Nat → Int32
  inetAddress_eq : ∀ {a b : InetAddress}, (a == b) = true → inetAddress a = inetAddress b

/-! ## Collections -/

/-- `List.equals` -/
def listEquals {α : Type} (equals : α → α → Bool) : List α → List α → Bool
  | [], [] => true
  | a :: as, b :: bs => equals a b && listEquals equals as bs
  | _, _ => false

/-- `List.hashCode` -/
def listHashCode {α : Type} (hashCode : α → Int32) (as : List α) : Int32 :=
  as.foldl (fun hash a => 31 * hash + hashCode a) 1

/-- `Set.hashCode` -/
def setHashCode {α : Type} [BEq α] (hashCode : α → Int32) (s : LinkedSet α) : Int32 :=
  (s.elems.map hashCode).sum

/-- `Optional.equals` -/
def optionalEquals {α : Type} (equals : α → α → Bool) : Option α → Option α → Bool
  | none, none => true
  | some a, some b => equals a b
  | _, _ => false

/-- `Optional.hashCode` -/
def optionalHashCode {α : Type} (hashCode : α → Int32) (a : Option α) : Int32 := a.elim 0 hashCode

/-! ## The classes -/

def Key.equals (k l : Key) : Bool := k.bytes == l.bytes

/-- Shifts of bytes are shifts of the `int` values that they stand for. -/
def Key.hashCode (k : Key) : Int32 :=
  let byte (i : Nat) : Int32 := (k.bytes.getD i 0).toBitVec.signExtend 32
  (List.range (k.bytes.length / 4)).foldl (fun ret i =>
    ret ^^^ ((byte (i * 4 + 0)).sshiftRight 0 + (byte (i * 4 + 1)).sshiftRight 8 +
      (byte (i * 4 + 2)).sshiftRight 16 + (byte (i * 4 + 3)).sshiftRight 24)) 0

def InetNetwork.hashCode (H : HashCodes) (n : InetNetwork) : Int32 :=
  H.inetAddress n.address ^^^ BitVec.ofNat 32 n.mask

def InetEndpoint.equals (e f : InetEndpoint) : Bool := e.host == f.host && e.port == f.port

def InetEndpoint.hashCode (H : HashCodes) (e : InetEndpoint) : Int32 :=
  H.string e.host ^^^ BitVec.ofNat 32 e.port

/-- `Integer.hashCode` -/
def integerHashCode (n : Nat) : Int32 := BitVec.ofNat 32 n

def Peer.equals (p q : Peer) : Bool :=
  p.allowedIps.equals q.allowedIps &&
  optionalEquals InetEndpoint.equals p.endpoint q.endpoint &&
  optionalEquals (· == ·) p.persistentKeepalive q.persistentKeepalive &&
  optionalEquals Key.equals p.preSharedKey q.preSharedKey &&
  p.publicKey.equals q.publicKey

def Peer.hashCode (H : HashCodes) (p : Peer) : Int32 :=
  let hash := 1
  let hash := 31 * hash + setHashCode (InetNetwork.hashCode H) p.allowedIps
  let hash := 31 * hash + optionalHashCode (InetEndpoint.hashCode H) p.endpoint
  let hash := 31 * hash + optionalHashCode integerHashCode p.persistentKeepalive
  let hash := 31 * hash + optionalHashCode Key.hashCode p.preSharedKey
  31 * hash + p.publicKey.hashCode

/-- A `Config` object: its contents, and the reference to its key pair. The heap gives the private key
of each key pair, which is immutable. -/
structure ConfigObject (heap : Nat → Key) where
  config : Config
  keyPair : Nat
  privateKey_eq : heap keyPair = config.interfaze.privateKey

namespace ConfigObject

variable {heap : Nat → Key}

/-- `Interface.equals`; the key pairs are compared by `Object.equals`. -/
def interfaceEquals (a b : ConfigObject heap) : Bool :=
  let i := a.config.interfaze
  let j := b.config.interfaze
  i.addresses.equals j.addresses &&
  i.dnsServers.equals j.dnsServers &&
  i.dnsSearchDomains.equals j.dnsSearchDomains &&
  i.excludedApplications.equals j.excludedApplications &&
  i.includedApplications.equals j.includedApplications &&
  a.keyPair == b.keyPair &&
  optionalEquals (· == ·) i.listenPort j.listenPort &&
  optionalEquals (· == ·) i.mtu j.mtu

def interfaceHashCode (H : HashCodes) (a : ConfigObject heap) : Int32 :=
  let i := a.config.interfaze
  let hash := 1
  let hash := 31 * hash + setHashCode (InetNetwork.hashCode H) i.addresses
  let hash := 31 * hash + setHashCode H.inetAddress i.dnsServers
  let hash := 31 * hash + setHashCode H.string i.excludedApplications
  let hash := 31 * hash + setHashCode H.string i.includedApplications
  let hash := 31 * hash + H.identity a.keyPair
  let hash := 31 * hash + optionalHashCode integerHashCode i.listenPort
  31 * hash + optionalHashCode integerHashCode i.mtu

def equals (a b : ConfigObject heap) : Bool :=
  a.interfaceEquals b && listEquals Peer.equals a.config.peers b.config.peers

def hashCode (H : HashCodes) (a : ConfigObject heap) : Int32 :=
  31 * a.interfaceHashCode H + listHashCode (Peer.hashCode H) a.config.peers

end ConfigObject

/-! ## Contents -/

/-- The same elements. -/
def LinkedSet.Same {α : Type} [BEq α] (s t : LinkedSet α) : Prop := ∀ x, s.contains x = t.contains x

structure Interface.SameContents (i j : Interface) : Prop where
  addresses : LinkedSet.Same i.addresses j.addresses
  dnsServers : LinkedSet.Same i.dnsServers j.dnsServers
  dnsSearchDomains : LinkedSet.Same i.dnsSearchDomains j.dnsSearchDomains
  excludedApplications : LinkedSet.Same i.excludedApplications j.excludedApplications
  includedApplications : LinkedSet.Same i.includedApplications j.includedApplications
  privateKey : i.privateKey = j.privateKey
  listenPort : i.listenPort = j.listenPort
  mtu : i.mtu = j.mtu

structure Peer.SameContents (p q : Peer) : Prop where
  allowedIps : LinkedSet.Same p.allowedIps q.allowedIps
  endpoint : p.endpoint.map (fun e => (e.host, e.port)) = q.endpoint.map fun e => (e.host, e.port)
  persistentKeepalive : p.persistentKeepalive = q.persistentKeepalive
  preSharedKey : p.preSharedKey = q.preSharedKey
  publicKey : p.publicKey = q.publicKey

/-- The interfaces have the same contents, and the peers, one by one. -/
structure Config.SameContents (c d : Config) : Prop where
  interfaze : c.interfaze.SameContents d.interfaze
  peers : List.Forall₂ Peer.SameContents c.peers d.peers

/-! ## Keys of comparison -/

/-- What `InetAddress.equals` compares. -/
def InetAddress.content : InetAddress → BitVec 32 ⊕ BitVec 128
  | .inet4 addr => .inl addr
  | .inet6 addr _ => .inr addr

theorem InetAddress.beq_iff (a b : InetAddress) : (a == b) = true ↔ a.content = b.content := by
  show InetAddress.equals a b = true ↔ _
  cases a <;> cases b <;> simp [InetAddress.equals, content]

theorem InetNetwork.beq_iff (n m : InetNetwork) :
    (n == m) = true ↔ (n.address.content, n.mask) = (m.address.content, m.mask) := by
  show InetNetwork.equals n m = true ↔ _
  rw [InetNetwork.equals, Bool.and_eq_true, InetAddress.beq_iff, beq_iff_eq, Prod.mk.injEq]

theorem string_beq_iff (a b : JString) : (a == b) = true ↔ id a = id b := beq_iff_eq

theorem Key.equals_iff {k l : Key} : k.equals l = true ↔ k = l := by
  rw [equals, beq_iff_eq]
  exact ⟨fun h => by cases k; cases l; cases h; rfl, fun h => h ▸ rfl⟩

theorem InetEndpoint.equals_iff {e f : InetEndpoint} :
    e.equals f = true ↔ (e.host, e.port) = (f.host, f.port) := by
  rw [equals, Bool.and_eq_true, beq_iff_eq, beq_iff_eq, Prod.mk.injEq]

theorem optionalEquals_iff {α : Type} {equals : α → α → Bool} (h : ∀ {a b}, equals a b = true ↔ a = b)
    {a b : Option α} : optionalEquals equals a b = true ↔ a = b := by
  cases a <;> cases b <;> simp [optionalEquals, h]

theorem optionalEquals_endpoint {a b : Option InetEndpoint} :
    optionalEquals InetEndpoint.equals a b = true ↔
      a.map (fun e => (e.host, e.port)) = b.map fun e => (e.host, e.port) := by
  cases a <;> cases b <;> simp [optionalEquals, InetEndpoint.equals_iff]

theorem optionalEquals_integer {a b : Option Nat} : optionalEquals (· == ·) a b = true ↔ a = b :=
  optionalEquals_iff beq_iff_eq

theorem optionalEquals_key {a b : Option Key} : optionalEquals Key.equals a b = true ↔ a = b :=
  optionalEquals_iff Key.equals_iff

theorem listEquals_iff {α : Type} {equals : α → α → Bool} {R : α → α → Prop}
    (h : ∀ {a b}, equals a b = true ↔ R a b) {as bs : List α} :
    listEquals equals as bs = true ↔ List.Forall₂ R as bs := by
  induction as generalizing bs with
  | nil => cases bs <;> simp [listEquals]
  | cons a as ih => cases bs <;> simp [listEquals, h, ih]

theorem Peer.equals_iff {p q : Peer} : p.equals q = true ↔ p.SameContents q := by
  simp only [equals, Bool.and_eq_true, LinkedSet.equals_iff_contains InetNetwork.beq_iff,
    optionalEquals_endpoint, optionalEquals_integer, optionalEquals_key, Key.equals_iff]
  exact ⟨fun ⟨⟨⟨⟨h₁, h₂⟩, h₃⟩, h₄⟩, h₅⟩ => ⟨h₁, h₂, h₃, h₄, h₅⟩,
    fun h => ⟨⟨⟨⟨h.allowedIps, h.endpoint⟩, h.persistentKeepalive⟩, h.preSharedKey⟩, h.publicKey⟩⟩

namespace ConfigObject

variable {heap : Nat → Key} {a b : ConfigObject heap}

theorem interfaceEquals_iff : a.interfaceEquals b = true ↔
    a.config.interfaze.SameContents b.config.interfaze ∧ a.keyPair = b.keyPair := by
  have hkey : a.keyPair = b.keyPair → a.config.interfaze.privateKey = b.config.interfaze.privateKey :=
    fun h => a.privateKey_eq.symm.trans ((congrArg heap h).trans b.privateKey_eq)
  simp only [interfaceEquals, Bool.and_eq_true, LinkedSet.equals_iff_contains InetNetwork.beq_iff,
    LinkedSet.equals_iff_contains InetAddress.beq_iff, LinkedSet.equals_iff_contains string_beq_iff,
    optionalEquals_integer, beq_iff_eq]
  exact ⟨fun ⟨⟨⟨⟨⟨⟨⟨h₁, h₂⟩, h₃⟩, h₄⟩, h₅⟩, h₆⟩, h₇⟩, h₈⟩ => ⟨⟨h₁, h₂, h₃, h₄, h₅, hkey h₆, h₇, h₈⟩, h₆⟩,
    fun ⟨h, h₆⟩ => ⟨⟨⟨⟨⟨⟨⟨h.addresses, h.dnsServers⟩, h.dnsSearchDomains⟩, h.excludedApplications⟩,
      h.includedApplications⟩, h₆⟩, h.listenPort⟩, h.mtu⟩⟩

/-- Configurations are equal when they have the same contents and share their key pair. -/
theorem equals_iff : a.equals b = true ↔ a.config.SameContents b.config ∧ a.keyPair = b.keyPair := by
  rw [equals, Bool.and_eq_true, interfaceEquals_iff, listEquals_iff Peer.equals_iff]
  exact ⟨fun ⟨⟨h₁, h₂⟩, h₃⟩ => ⟨⟨h₁, h₃⟩, h₂⟩, fun ⟨⟨h₁, h₃⟩, h₂⟩ => ⟨⟨h₁, h₂⟩, h₃⟩⟩

end ConfigObject

/-! ## Hash codes -/

/-- Equal sets have the same hash code, if equal elements have. -/
theorem setHashCode_eq {α κ : Type} [BEq α] {key : α → κ}
    (hkey : ∀ a b : α, (a == b) = true ↔ key a = key b) {hashCode : α → Int32}
    (hhash : Function.FactorsThrough hashCode key) {s t : LinkedSet α} (h : s.equals t = true) :
    setHashCode hashCode s = setHashCode hashCode t := by
  have hmap : ∀ as : List α, as.map hashCode = (as.map key).map (Function.extend key hashCode 0) := by
    intro as
    rw [List.map_map]
    exact List.map_congr_left fun a _ => (hhash.extend_apply 0 a).symm
  rw [setHashCode, setHashCode, hmap, hmap]
  exact (((LinkedSet.equals_iff_perm hkey).mp h).map _).sum_eq

theorem inetAddress_factors (H : HashCodes) :
    Function.FactorsThrough H.inetAddress InetAddress.content := fun a b h =>
  H.inetAddress_eq ((InetAddress.beq_iff a b).mpr h)

theorem InetNetwork.hashCode_factors (H : HashCodes) :
    Function.FactorsThrough (InetNetwork.hashCode H) fun n => (n.address.content, n.mask) := by
  intro n m h
  obtain ⟨haddress, hmask⟩ := Prod.mk.inj h
  rw [hashCode, hashCode, inetAddress_factors H haddress, hmask]

theorem Peer.hashCode_eq (H : HashCodes) {p q : Peer} (h : p.equals q = true) :
    p.hashCode H = q.hashCode H := by
  have hsame := Peer.equals_iff.mp h
  have hips : p.allowedIps.equals q.allowedIps = true :=
    (LinkedSet.equals_iff_contains InetNetwork.beq_iff).mpr hsame.allowedIps
  have hendpoint : optionalHashCode (InetEndpoint.hashCode H) p.endpoint =
      optionalHashCode (InetEndpoint.hashCode H) q.endpoint := by
    have hmap : ∀ e : Option InetEndpoint, optionalHashCode (InetEndpoint.hashCode H) e =
        optionalHashCode (fun k => H.string k.1 ^^^ BitVec.ofNat 32 k.2)
          (e.map fun e => (e.host, e.port)) := fun e => by cases e <;> rfl
    rw [hmap, hmap, hsame.endpoint]
  simp only [hashCode, setHashCode_eq InetNetwork.beq_iff (InetNetwork.hashCode_factors H) hips, hendpoint,
    hsame.persistentKeepalive, hsame.preSharedKey, hsame.publicKey]

theorem listHashCode_eq {α : Type} {hashCode : α → Int32} {as bs : List α}
    (h : List.Forall₂ (fun a b => hashCode a = hashCode b) as bs) :
    listHashCode hashCode as = listHashCode hashCode bs := by
  have hmap : as.map hashCode = bs.map hashCode := List.forall₂_eq_eq_eq ▸ List.forall₂_map_left_iff.mpr
    (List.forall₂_map_right_iff.mpr h)
  have hfold : ∀ l : List α, listHashCode hashCode l =
      (l.map hashCode).foldl (fun hash code => 31 * hash + code) 1 := fun l => by
    rw [List.foldl_map]
    rfl
  rw [hfold, hfold, hmap]

namespace ConfigObject

variable {heap : Nat → Key} {a b : ConfigObject heap}

theorem interfaceHashCode_eq (H : HashCodes) (h : a.interfaceEquals b = true) :
    a.interfaceHashCode H = b.interfaceHashCode H := by
  obtain ⟨hsame, hkeyPair⟩ := interfaceEquals_iff.mp h
  have hstrings : ∀ {s t : LinkedSet JString}, LinkedSet.Same s t →
      setHashCode H.string s = setHashCode H.string t := fun hst =>
    setHashCode_eq string_beq_iff (fun _ _ h => congrArg H.string h)
      ((LinkedSet.equals_iff_contains string_beq_iff).mpr hst)
  have haddresses := setHashCode_eq InetNetwork.beq_iff (InetNetwork.hashCode_factors H)
    ((LinkedSet.equals_iff_contains InetNetwork.beq_iff).mpr hsame.addresses)
  have hdns := setHashCode_eq InetAddress.beq_iff (inetAddress_factors H)
    ((LinkedSet.equals_iff_contains InetAddress.beq_iff).mpr hsame.dnsServers)
  simp only [interfaceHashCode, haddresses, hdns, hstrings hsame.excludedApplications,
    hstrings hsame.includedApplications, hkeyPair, hsame.listenPort, hsame.mtu]

/-- Equal configurations have the same hash code. -/
theorem hashCode_eq (H : HashCodes) (h : a.equals b = true) : a.hashCode H = b.hashCode H := by
  obtain ⟨hinterface, hpeers⟩ := Bool.and_eq_true_iff.mp h
  rw [hashCode, hashCode, interfaceHashCode_eq H hinterface,
    listHashCode_eq (((listEquals_iff Iff.rfl).mp hpeers).imp fun _ _ => Peer.hashCode_eq H)]

/-- That two configurations are equal exactly when they have the same contents holds exactly if they
share their key pair when they have. Equal ones have the same hash code. -/
theorem equals_contents_iff (a b : ConfigObject heap) :
    ((a.equals b = true ↔ a.config.SameContents b.config) ↔
      (a.config.SameContents b.config → a.keyPair = b.keyPair)) ∧
    ∀ H : HashCodes, a.equals b = true → a.hashCode H = b.hashCode H := by
  refine ⟨?_, fun H => hashCode_eq H⟩
  rw [equals_iff]
  exact and_iff_left_iff_imp

/-- The two objects that two parses of one text give: each has a key pair of its own. -/
def parsedTwice (c : Config) : ConfigObject (fun _ => c.interfaze.privateKey) ×
    ConfigObject (fun _ => c.interfaze.privateKey) :=
  (⟨c, 0, rfl⟩, ⟨c, 1, rfl⟩)

theorem not_equals_parsedTwice (c : Config) : (parsedTwice c).1.equals (parsedTwice c).2 = false :=
  Bool.eq_false_iff.mpr fun h => absurd (equals_iff.mp h).2 Nat.zero_ne_one

end ConfigObject

theorem Config.SameContents.refl (c : Config) : c.SameContents c where
  interfaze := ⟨fun _ => rfl, fun _ => rfl, fun _ => rfl, fun _ => rfl, fun _ => rfl, rfl, rfl, rfl⟩
  peers := List.forall₂_same.mpr fun _ _ => ⟨fun _ => rfl, rfl, rfl, rfl, rfl⟩

def sampleInterfaceText : JString :=
  text "[Interface]\nPrivateKey = TFlmmEUC7V7VtiDYLKsbP5rySTKLIZq1yn8lMqK83wo=\n"

/-- Two parses of an accepted text have the same contents and are not equal. -/
theorem ConfigObject.sampleInterfaceText_not_equals :
    ∃ c, Config.parse samplePlatform sampleInterfaceText = .ok c ∧ c.SameContents c ∧
      (parsedTwice c).1.equals (parsedTwice c).2 = false := by
  have hok : (Config.parse samplePlatform sampleInterfaceText).map (fun _ => true) = .ok true := by
    decide +kernel
  obtain ⟨c, hparse, -⟩ := Checked.map_eq_ok hok
  exact ⟨c, hparse, .refl c, not_equals_parsedTwice c⟩

end WgAndroid
