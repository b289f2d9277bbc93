import WgAndroid.Config.Attribute
import WgAndroid.Lib.Checked
import WgAndroid.Lib.Regex

/-!
# Addresses, networks and endpoints

`InetAddresses`, `InetNetwork` and `InetEndpoint`. What the Java platform brings, the parser of numeric
addresses, the text of an address and `java.net.URI`, is a parameter: `Platform`.

Results:
1. `InetNetwork.parse_toString`: a network that was parsed is printed so that it parses back.
2. `InetNetwork.parse_denotes_iff`: when `parse` reads address and prefix as they are written.
3. `InetEndpoint.parse_toString`: a printed endpoint parses back, host and port.
-/

namespace WgAndroid

open Delimited

/-! ## Errors -/

/-- The class that a `ParseException` names. -/
inductive ParsingClass where
  | inetAddress
  | inetEndpoint
  | inetNetwork
  | integer
  deriving DecidableEq

/-- `ParseException`. The message is `none` where the source passes a cause or nothing. -/
structure ParseException where
  parsingClass : ParsingClass
  text : JString
  message : Option String
  deriving DecidableEq

/-- `BadConfigException.Section`. -/
inductive Section where
  | config
  | interface
  | peer
  deriving DecidableEq

/-- `BadConfigException.Location`. -/
inductive Location where
  | topLevel
  | address
  | allowedIps
  | dns
  | endpoint
  | excludedApplications
  | includedApplications
  | listenPort
  | mtu
  | persistentKeepalive
  | preSharedKey
  | privateKey
  | publicKey
  deriving DecidableEq

/-- `BadConfigException.Reason`. -/
inductive Reason where
  | invalidKey
  | invalidNumber
  | invalidValue
  | missingAttribute
  | missingSection
  | syntaxError
  | unknownAttribute
  | unknownSection
  deriving DecidableEq

structure BadConfigException where
  sect : Section
  location : Location
  reason : Reason
  text : Option JString
  deriving DecidableEq

namespace BadConfigException

/-- The constructor that takes a `KeyFormatException`. -/
def ofKeyFormat (sect : Section) (location : Location) : BadConfigException :=
  ⟨sect, location, .invalidKey, none⟩

/-- The constructor that takes a `NumberFormatException`. -/
def ofNumberFormat (sect : Section) (location : Location) (text : JString) : BadConfigException :=
  ⟨sect, location, .invalidNumber, some text⟩

/-- The constructor that takes a `ParseException`. -/
def ofParse (sect : Section) (location : Location) (e : ParseException) : BadConfigException :=
  ⟨sect, location, .invalidValue, some e.text⟩

end BadConfigException

/-! ## The platform -/

inductive InetAddress where
  | inet4 (addr : BitVec 32)
  | inet6 (addr : BitVec 128) (zone : Option JString)
  deriving DecidableEq

/-- `InetAddress.equals`: the zone of an IPv6 address does not count. -/
def InetAddress.equals : InetAddress → InetAddress → Bool
  | .inet4 a, .inet4 b => a == b
  | .inet6 a _, .inet6 b _ => a == b
  | _, _ => false

instance : BEq InetAddress := ⟨InetAddress.equals⟩

/-- `address instanceof Inet4Address` -/
def InetAddress.isInet4 : InetAddress → Bool
  | .inet4 _ => true
  | .inet6 _ _ => false

/-- The longest prefix of the address's family. -/
def InetAddress.maxMask (a : InetAddress) : Nat := if a.isInet4 then 32 else 128

theorem InetAddress.maxMask_le (a : InetAddress) : a.maxMask ≤ 128 := by
  unfold maxMask
  split <;> decide

/-- A `java.net.URI`, as far as it is read: host and port of a server-based authority. Without one
`getHost()` is `null` and `getPort()` is -1; an undefined port is -1 as well. -/
structure Uri where
  server : Option (JString × Int)
  deriving DecidableEq

/-- What the code uses of the Java platform. -/
structure Platform where
  /-- `parseNumericAddress`, when the platform has it; `none` is an `IllegalArgumentException`. -/
  parseNumericAddress : Option (JString → Option InetAddress)
  /-- `InetAddress.getByName`; `none` is an `UnknownHostException`. -/
  getByName : JString → Option InetAddress
  /-- `InetAddress.getHostAddress`. -/
  getHostAddress : InetAddress → JString
  /-- `new URI(s)`; `none` is a `URISyntaxException`. -/
  uri : JString → Option Uri

/-! ## Numeric addresses -/

namespace InetAddresses

def isHex (c : UInt16) : Bool := inRange '0' '9' c || inRange 'A' 'F' c || inRange 'a' 'f' c

private def ch (c : Char) : Regex UInt16 := .lit (unit c)
private def cc (lo hi : Char) : Regex UInt16 := .cls (inRange lo hi)
private def d : Regex UInt16 := cc '0' '9'

/-- `[0-9A-Fa-f]{1,4}` -/
def h16 : Regex UInt16 := Regex.between (.cls isHex) 1 4

/-- `[0-9A-Fa-f]{1,4}:` -/
def h16c : Regex UInt16 := .seq h16 (ch ':')

/-- `:[0-9A-Fa-f]{1,4}` -/
def ch16 : Regex UInt16 := .seq (ch ':') h16

/-- `25[0-5]|2[0-4]\d|1\d\d|[1-9]?\d` -/
def octet : Regex UInt16 :=
  .anyOf [.seq (ch '2') (.seq (ch '5') (cc '0' '5')), .seq (ch '2') (.seq (cc '0' '4') d),
    .seq (ch '1') (.seq d d), .seq (.opt (cc '1' '9')) d]

/-- An IPv4 tail: `octet(\.octet){3}`. -/
def dotted : Regex UInt16 := .seq octet (Regex.times (.seq (ch '.') octet) 3)

/-- `25[0-5]|2[0-4][0-9]|[01]?[0-9][0-9]?`, the octet of the IPv4 alternative. -/
def octet' : Regex UInt16 :=
  .anyOf [.seq (ch '2') (.seq (ch '5') (cc '0' '5')), .seq (ch '2') (.seq (cc '0' '4') d),
    .seq (.opt (cc '0' '1')) (.seq d (.opt d))]

/-- `.`: no line terminator. -/
def dot : Regex UInt16 :=
  .cls fun c => !(isBreak c || c == 0x85 || c == 0x2028 || c == 0x2029)

/-- The pattern that admits an address to `getByName`: the eight IPv6 forms with an optional zone,
or an IPv4 address. -/
def wontTouchResolver : Regex UInt16 :=
  .alt
    (.seq
      (.anyOf [
        .seq (h16c.times 7) (.alt h16 (ch ':')),
        .seq (h16c.times 6) (.anyOf [ch16, dotted, ch ':']),
        .seq (h16c.times 5) (.anyOf [ch16.between 1 2, .seq (ch ':') dotted, ch ':']),
        .seq (h16c.times 4)
          (.anyOf [ch16.between 1 3, .seq (.opt ch16) (.seq (ch ':') dotted), ch ':']),
        .seq (h16c.times 3)
          (.anyOf [ch16.between 1 4, .seq (ch16.upTo 2) (.seq (ch ':') dotted), ch ':']),
        .seq (h16c.times 2)
          (.anyOf [ch16.between 1 5, .seq (ch16.upTo 3) (.seq (ch ':') dotted), ch ':']),
        .seq (h16c.times 1)
          (.anyOf [ch16.between 1 6, .seq (ch16.upTo 4) (.seq (ch ':') dotted), ch ':']),
        .seq (ch ':')
          (.anyOf [ch16.between 1 7, .seq (ch16.upTo 5) (.seq (ch ':') dotted), ch ':'])])
      (.opt (.seq (ch '%') dot.plus)))
    (.seq (Regex.times (.seq octet' (ch '.')) 3) octet')

/-- One label: `[0-9A-Za-z](?:(?:[0-9A-Za-z]|-){0,61}[0-9A-Za-z])?` -/
def label : Regex UInt16 :=
  .seq (.cls isAlnum)
    (.opt (.seq (Regex.upTo (.alt (.cls isAlnum) (ch '-')) 61) (.cls isAlnum)))

/-- `VALID_HOSTNAME` after its lookahead. -/
def hostname : Regex UInt16 :=
  .seq label (.seq (.star (.seq (ch '.') label)) (.opt (ch '.')))

/-- The lookahead `(?=.{1,255}$)` bounds the length; the rest of the pattern admits no line
terminator that it could stop at. -/
def isHostname (s : JString) : Bool :=
  decide (1 ≤ s.length ∧ s.length ≤ 255) && hostname.accepts s

def parse (P : Platform) (address : JString) : Except ParseException InetAddress :=
  if address.isEmpty then .error ⟨.inetAddress, address, some "Empty address"⟩
  else
    match P.parseNumericAddress with
    | some parseNumericAddress =>
      match parseNumericAddress address with
      | some a => .ok a
      | none => .error ⟨.inetAddress, address, none⟩
    | none =>
      if wontTouchResolver.accepts address then
        match P.getByName address with
        | some a => .ok a
        | none => .error ⟨.inetAddress, address, none⟩
      else .error ⟨.inetAddress, address, some "Not an IP address"⟩

theorem parse_ne_nil {P : Platform} {s : JString} {a : InetAddress} (h : parse P s = .ok a) :
    s ≠ [] := by
  rintro rfl
  simp [parse] at h

/-- The characters of a host name. -/
theorem isHostname_chars {s : JString} (h : isHostname s = true) :
    s ≠ [] ∧ ∀ c ∈ s, isAlnum c = true ∨ c = unit '-' ∨ c = unit '.' := by
  simp only [isHostname, Bool.and_eq_true, decide_eq_true_eq] at h
  refine ⟨fun hs => by simp [hs] at h, ?_⟩
  have halnum : (Regex.cls isAlnum).ClassesIn
      fun c => isAlnum c = true ∨ c = unit '-' ∨ c = unit '.' := fun c hc => .inl hc
  have hdash : (ch '-').ClassesIn fun c => isAlnum c = true ∨ c = unit '-' ∨ c = unit '.' :=
    fun c hc => .inr (.inl (eq_of_beq hc))
  have hdot : (ch '.').ClassesIn fun c => isAlnum c = true ∨ c = unit '-' ∨ c = unit '.' :=
    fun c hc => .inr (.inr (eq_of_beq hc))
  have hlabel : label.ClassesIn fun c => isAlnum c = true ∨ c = unit '-' ∨ c = unit '.' :=
    ⟨halnum, ⟨Regex.classesIn_upTo (r := .alt _ _) ⟨halnum, hdash⟩ 61, halnum⟩, trivial⟩
  exact (Regex.accepts_iff.mp h.2).forall_mem ⟨hlabel, ⟨hdot, hlabel⟩, hdot, trivial⟩

end InetAddresses

/-- The platform prints an address so that it can be read back, in a text with no comma, no `#`
and no white space. -/
structure Platform.LawfulAddresses (P : Platform) : Prop where
  parse_getHostAddress : ∀ s a, InetAddresses.parse P s = .ok a →
    InetAddresses.parse P (P.getHostAddress a) = .ok a
  clean : ∀ s a, InetAddresses.parse P s = .ok a → ∀ c ∈ P.getHostAddress a,
    isTrim c = false ∧ c ≠ unit ',' ∧ c ≠ unit '#'

theorem Platform.LawfulAddresses.plain {P : Platform} (hP : P.LawfulAddresses) {s : JString}
    {a : InetAddress} (h : InetAddresses.parse P s = .ok a) : Plain (P.getHostAddress a) :=
  ⟨InetAddresses.parse_ne_nil (hP.parse_getHostAddress s a h), hP.clean s a h⟩

/-! ## Networks -/

structure InetNetwork where
  address : InetAddress
  mask : Nat
  deriving DecidableEq

namespace InetNetwork

def equals (n m : InetNetwork) : Bool := n.address == m.address && n.mask == m.mask

instance : BEq InetNetwork := ⟨equals⟩

/-- What `parse` does once the text is cut at its last slash. -/
def make (P : Platform) (rawAddress : JString) (rawMask : Int) (maskString : JString) :
    Except ParseException InetNetwork := do
  let address ← InetAddresses.parse P rawAddress
  let maxMask := address.maxMask
  if rawMask > maxMask then .error ⟨.inetNetwork, maskString, some "Invalid network mask"⟩
  else .ok ⟨address, if rawMask ≥ 0 then rawMask.toNat else maxMask⟩

def parse (P : Platform) (network : JString) : Except ParseException InetNetwork :=
  if network.contains (unit '/') then
    let maskString := network.rtakeWhile (· != unit '/')
    match parseInt maskString with
    | none => .error ⟨.integer, maskString, none⟩
    | some rawMask => make P (network.rdropWhile (· != unit '/')).dropLast rawMask maskString
  else make P network (-1) []

def toString (P : Platform) (n : InetNetwork) : JString :=
  P.getHostAddress n.address ++ unit '/' :: decimal n.mask

/-- A network that `parse` can return. -/
structure Parsed (P : Platform) (n : InetNetwork) : Prop where
  address : ∃ s, InetAddresses.parse P s = .ok n.address
  mask : n.mask ≤ n.address.maxMask

theorem make_eq_ok_iff {P : Platform} {r t : JString} {m : Int} {n : InetNetwork} :
    make P r m t = .ok n ↔ ∃ a, InetAddresses.parse P r = .ok a ∧ m ≤ a.maxMask ∧
      n = ⟨a, if m ≥ 0 then m.toNat else a.maxMask⟩ := by
  unfold make
  rw [Checked.bind_eq_ok]
  refine exists_congr fun a => and_congr_right fun _ => ?_
  dsimp only
  split
  · next hm => exact iff_of_false (fun h => nomatch h) fun h => absurd h.1 (Int.not_le.mpr hm)
  · next hm => rw [and_iff_right (Int.not_lt.mp hm), Except.ok.injEq, eq_comm]

theorem parsed_of_make {P : Platform} {s t : JString} {m : Int} {n : InetNetwork}
    (h : make P s m t = .ok n) : Parsed P n := by
  obtain ⟨a, ha, hm, rfl⟩ := make_eq_ok_iff.mp h
  refine ⟨⟨s, ha⟩, ?_⟩
  dsimp only
  split
  · exact Int.toNat_le.mpr hm
  · exact Nat.le_refl _

theorem parsed_of_parse {P : Platform} {s : JString} {n : InetNetwork} (h : parse P s = .ok n) :
    Parsed P n := by
  unfold parse at h
  split at h
  · dsimp only at h
    split at h
    · cases h
    · exact parsed_of_make h
  · exact parsed_of_make h

/-- The text is cut at its last slash. -/
theorem cut_at_slash {r t : JString} (h : unit '/' ∉ t) :
    (r ++ unit '/' :: t).rtakeWhile (· != unit '/') = t ∧
      ((r ++ unit '/' :: t).rdropWhile (· != unit '/')).dropLast = r := by
  have hrev : ∀ c ∈ t.reverse, (c != unit '/') = true := fun c hc =>
    bne_iff_ne.mpr fun hslash => h (hslash ▸ List.mem_reverse.mp hc)
  constructor
  · simp only [List.rtakeWhile, List.reverse_append, List.reverse_cons, List.append_assoc, List.singleton_append]
    rw [List.takeWhile_append_of_pos hrev]
    simp
  · simp only [List.rdropWhile, List.reverse_append, List.reverse_cons, List.append_assoc, List.singleton_append]
    rw [List.dropWhile_append_of_pos hrev]
    simp

theorem parse_of_slash {P : Platform} {r t : JString} (h : unit '/' ∉ t) :
    parse P (r ++ unit '/' :: t) =
      match parseInt t with
      | none => .error ⟨.integer, t, none⟩
      | some rawMask => make P r rawMask t := by
  unfold parse
  rw [if_pos (by simp), (cut_at_slash h).1, (cut_at_slash h).2]

theorem parse_of_no_slash {P : Platform} {s : JString} (h : unit '/' ∉ s) : parse P s = make P s (-1) [] := by
  unfold parse
  rw [if_neg (by simpa using h)]

/-- An address and a mask. -/
theorem parse_slash_decimal_iff {P : Platform} {s : JString} {mask : Nat} {n : InetNetwork} (hlt : mask < 2 ^ 31) :
    parse P (s ++ unit '/' :: decimal mask) = .ok n ↔
      ∃ a, InetAddresses.parse P s = .ok a ∧ mask ≤ a.maxMask ∧ n = ⟨a, mask⟩ := by
  have hslash : unit '/' ∉ decimal mask := fun hmem =>
    ne_of_isAlnum (isAlnum_of_mem_decimal hmem) (by decide : isAlnum (unit '/') = false) rfl
  rw [parse_of_slash hslash, parseInt_decimal hlt]
  refine make_eq_ok_iff.trans (exists_congr fun a => and_congr_right fun _ => and_congr Int.ofNat_le ?_)
  rw [if_pos (Int.natCast_nonneg _), Int.toNat_natCast]

theorem parse_slash_decimal {P : Platform} {s : JString} {a : InetAddress} {mask : Nat}
    (ha : InetAddresses.parse P s = .ok a) (hmask : mask ≤ a.maxMask) :
    parse P (s ++ unit '/' :: decimal mask) = .ok ⟨a, mask⟩ :=
  (parse_slash_decimal_iff (Nat.lt_of_le_of_lt (Nat.le_trans hmask a.maxMask_le) (by decide))).mpr
    ⟨a, ha, hmask, rfl⟩

/-- A network that was parsed is printed so that it parses back. -/
theorem parse_toString {P : Platform} (hP : P.LawfulAddresses) {n : InetNetwork}
    (h : Parsed P n) : parse P (n.toString P) = .ok n := by
  obtain ⟨s, hs⟩ := h.address
  exact parse_slash_decimal (hP.parse_getHostAddress _ _ hs) h.mask

/-! ### Address and prefix -/

end InetNetwork

/-- A numeric address is written without a slash, as is the interface that may follow it as a zone. -/
def Platform.SlashFree (P : Platform) : Prop := ∀ s a, InetAddresses.parse P s = .ok a → unit '/' ∉ s

namespace InetNetwork

/-- The network that a text denotes: an address alone, or an address, a slash and the length of the
prefix. -/
inductive Denotes (P : Platform) : JString → InetNetwork → Prop where
  | address {s : JString} {a : InetAddress} :
      InetAddresses.parse P s = .ok a → Denotes P s ⟨a, a.maxMask⟩
  | network {r t : JString} {a : InetAddress} {m : Nat} :
      InetAddresses.parse P r = .ok a → parseInt t = some (m : Int) → m ≤ a.maxMask →
        Denotes P (r ++ unit '/' :: t) ⟨a, m⟩

/-- An address and a negative number. -/
def NegativeMask (P : Platform) (s : JString) : Prop :=
  ∃ r t a m, s = r ++ unit '/' :: t ∧ InetAddresses.parse P r = .ok a ∧ parseInt t = some m ∧ m < 0

theorem not_mem_of_magnitude {d : UInt16} (hd : digit d = none) {t : JString} {n : Nat}
    (h : magnitude t = some n) : d ∉ t := by
  have hfold : ∀ (t : JString) (k : Nat), d ∈ t →
      t.foldlM (fun n c => (digit c).map fun d => n * 10 + d) k = none := by
    intro t
    induction t with
    | nil => exact fun _ hmem => absurd hmem List.not_mem_nil
    | cons c t ih =>
      intro k hmem
      rw [List.foldlM_cons]
      rcases List.mem_cons.mp hmem with rfl | hmem
      · rw [hd]
        rfl
      · cases digit c with
        | none => rfl
        | some d => exact ih _ hmem
  cases t with
  | nil => exact List.not_mem_nil
  | cons c t =>
    intro hmem
    have hnone : magnitude (c :: t) = none := hfold _ _ hmem
    rw [hnone] at h
    cases h

theorem not_mem_of_parseInt {d : UInt16} (hd : digit d = none) (hminus : d ≠ unit '-') (hplus : d ≠ unit '+')
    {t : JString} {m : Int} (h : parseInt t = some m) : d ∉ t := by
  unfold parseInt at h
  split at h
  · exact List.not_mem_nil
  · next c rest =>
    split at h
    · next hc =>
      obtain ⟨n, hn, -⟩ := Option.bind_eq_some_iff.mp h
      rw [List.mem_cons, not_or, hc]
      exact ⟨hminus, not_mem_of_magnitude hd hn⟩
    · obtain ⟨n, hn, -⟩ := Option.bind_eq_some_iff.mp h
      have hmem := not_mem_of_magnitude hd hn
      split at hmem
      · next hc =>
        rw [List.mem_cons, not_or, hc]
        exact ⟨hplus, hmem⟩
      · exact hmem

theorem slash_not_mem_of_parseInt {t : JString} {m : Int} (h : parseInt t = some m) : unit '/' ∉ t :=
  not_mem_of_parseInt (by decide) (by decide) (by decide) h

/-- A text with a slash has a last one. -/
theorem exists_last_slash {s : JString} (h : unit '/' ∈ s) : ∃ r t, s = r ++ unit '/' :: t ∧ unit '/' ∉ t := by
  obtain ⟨t, r, hrev, ht⟩ := List.eq_append_cons_of_mem (List.mem_reverse.mpr h)
  refine ⟨r.reverse, t.reverse, ?_, fun hmem => ht (List.mem_reverse.mp hmem)⟩
  rw [← List.reverse_reverse s, hrev]
  simp

section Denoted

variable {P : Platform} (hP : P.SlashFree)

theorem denotes_of_no_slash {s : JString} {n : InetNetwork} (h : unit '/' ∉ s) :
    Denotes P s n ↔ ∃ a, InetAddresses.parse P s = .ok a ∧ n = ⟨a, a.maxMask⟩ := by
  constructor
  · intro hn
    cases hn with
    | address ha => exact ⟨_, ha, rfl⟩
    | network ha hm hle => exact absurd (by simp) h
  · rintro ⟨a, ha, rfl⟩
    exact .address ha

include hP

theorem denotes_of_slash {r t : JString} {n : InetNetwork} (h : unit '/' ∉ t) :
    Denotes P (r ++ unit '/' :: t) n ↔ ∃ a, ∃ m : Nat, InetAddresses.parse P r = .ok a ∧
      parseInt t = some (m : Int) ∧ m ≤ a.maxMask ∧ n = ⟨a, m⟩ := by
  constructor
  · intro hn
    generalize hs : r ++ unit '/' :: t = s at hn
    cases hn with
    | address ha => exact absurd (hs ▸ by simp) (hP _ _ ha)
    | @network r' t' a m ha hm hle =>
      have ht' := slash_not_mem_of_parseInt hm
      obtain rfl : t = t' := by rw [← (cut_at_slash (r := r) h).1, hs, (cut_at_slash ht').1]
      obtain rfl : r = r' := by rw [← (cut_at_slash (r := r) h).2, hs, (cut_at_slash ht').2]
      exact ⟨a, m, ha, hm, hle, rfl⟩
  · rintro ⟨a, m, ha, hm, hle, rfl⟩
    exact .network ha hm hle

end Denoted

/-- `parse` returns what a text denotes, and nothing if it denotes none, unless the text is an address
with a negative number: then the number stands for a missing one. -/
theorem parse_denotes_iff (P : Platform) (s : JString) (hP : P.SlashFree) :
    (∀ n, parse P s = .ok n ↔ Denotes P s n) ↔ ¬ NegativeMask P s := by
  constructor
  · rintro h ⟨r, t, a, m, rfl, ha, hm, hneg⟩
    have ht := slash_not_mem_of_parseInt hm
    have hparse : parse P (r ++ unit '/' :: t) = .ok ⟨a, a.maxMask⟩ := by
      rw [parse_of_slash ht, hm]
      refine make_eq_ok_iff.mpr ⟨a, ha, Int.le_trans (Int.le_of_lt hneg) (Int.natCast_nonneg _), ?_⟩
      rw [if_neg (Int.not_le.mpr hneg)]
    obtain ⟨_, k, -, hk, -⟩ := (denotes_of_slash hP ht).mp ((h _).mp hparse)
    rw [hm] at hk
    cases hk
    exact absurd hneg (Int.not_lt.mpr (Int.natCast_nonneg k))
  · intro hneg n
    by_cases hslash : unit '/' ∈ s
    · obtain ⟨r, t, rfl, ht⟩ := exists_last_slash hslash
      rw [parse_of_slash ht, denotes_of_slash hP ht]
      cases hm : parseInt t with
      | none => exact iff_of_false (fun h => nomatch h) fun ⟨_, _, _, h, _⟩ => nomatch h
      | some m =>
        dsimp only
        rw [make_eq_ok_iff]
        refine exists_congr fun a => ?_
        constructor
        · rintro ⟨ha, hle, rfl⟩
          have hpos : 0 ≤ m := Int.not_lt.mp fun hlt => hneg ⟨r, t, a, m, rfl, ha, hm, hlt⟩
          refine ⟨m.toNat, ha, ?_, Int.toNat_le.mpr hle, ?_⟩
          · rw [Int.toNat_of_nonneg hpos]
          · rw [if_pos hpos]
        · rintro ⟨k, ha, hk, hle, rfl⟩
          cases hk
          refine ⟨ha, Int.ofNat_le.mpr hle, ?_⟩
          rw [if_pos (Int.natCast_nonneg k), Int.toNat_natCast]
    · rw [parse_of_no_slash hslash, make_eq_ok_iff, denotes_of_no_slash hslash]
      refine exists_congr fun a => and_congr_right fun _ => ?_
      exact and_iff_right (Int.le_trans (by decide) (Int.natCast_nonneg _))

theorem plain_toString {P : Platform} (hP : P.LawfulAddresses) {n : InetNetwork}
    (h : Parsed P n) : Plain (n.toString P) := by
  obtain ⟨s, hs⟩ := h.address
  refine ⟨by simp [toString], fun c hc => ?_⟩
  simp only [toString, List.mem_append, List.mem_cons] at hc
  rcases hc with hc | rfl | hc
  · exact hP.clean _ _ hs c hc
  · decide
  · exact (plain_decimal _).2 c hc

section List

variable {P : Platform} (hP : P.LawfulAddresses) {ns : List InetNetwork}
  (h : ∀ n ∈ ns, Parsed P n) (hne : ns ≠ [])
include hP h

theorem plain_of_mem_map : ∀ x ∈ ns.map (·.toString P), Plain x := by
  intro x hx
  obtain ⟨n, hn, rfl⟩ := List.mem_map.mp hx
  exact plain_toString hP (h n hn)

include hne

theorem cleanValue_join : Attribute.CleanValue (Attribute.join (ns.map (·.toString P))) :=
  Attribute.cleanValue_join_of_plain (plain_of_mem_map hP h) (by simpa using hne)

/-- A printed list of networks parses back. -/
theorem mapM_parse_split_join :
    (Attribute.split (Attribute.join (ns.map (·.toString P)))).mapM (parse P) = .ok ns := by
  rw [Attribute.split_join (Attribute.splittable_of_plain (plain_of_mem_map hP h)) (by simpa using hne),
    Checked.mapM_eq_ok, List.forall₂_map_left_iff, List.forall₂_same]
  exact fun n hn => parse_toString hP (h n hn)

end List

end InetNetwork

/-! ## Endpoints -/

/-- An endpoint. The cache of the last lookup is not part of it here. -/
structure InetEndpoint where
  host : JString
  isResolved : Bool
  port : Nat
  deriving DecidableEq

/-- The forms that `java.net.URI` documents for a host: a name (IPv4 addresses included) of letters,
digits, `-`, `.` and `_`, or an IPv6 literal in brackets, perhaps with a zone. -/
inductive UriHost : JString → Prop where
  | name {h : JString} : h ≠ [] →
      (∀ c ∈ h, isAlnum c = true ∨ c ∈ text "-._") → UriHost h
  | literal {inner : JString} : (∀ c ∈ inner, isAlnum c = true ∨ c ∈ text ":.%_-") →
      UriHost (unit '[' :: (inner ++ [unit ']']))

namespace InetEndpoint

/-- `BARE_IPV6`, the pattern `^[^\[\]]*:[^\[\]]*`. -/
def bareIpv6 : Regex UInt16 :=
  let other : Regex UInt16 := .star (.cls fun c => c != unit '[' && c != unit ']')
  .seq other (.seq (.lit (unit ':')) other)

/-- `FORBIDDEN_CHARACTERS`, the class `[/?#]`. -/
def forbidden (c : UInt16) : Bool := c == unit '/' || c == unit '?' || c == unit '#'

def parse (P : Platform) (endpoint : JString) : Except ParseException InetEndpoint :=
  if endpoint.any forbidden then .error ⟨.inetEndpoint, endpoint, some "Forbidden characters"⟩
  else
    match P.uri (text "wg://" ++ endpoint) with
    | none => .error ⟨.inetEndpoint, endpoint, none⟩
    | some ⟨none⟩ => .error ⟨.inetEndpoint, endpoint, some "Missing/invalid port number"⟩
    | some ⟨some (host, port)⟩ =>
      if port < 0 ∨ port > 65535 then
        .error ⟨.inetEndpoint, endpoint, some "Missing/invalid port number"⟩
      else
        match InetAddresses.parse P host with
        | .ok _ => .ok ⟨host, true, port.toNat⟩
        | .error _ => .ok ⟨host, false, port.toNat⟩

def toString (e : InetEndpoint) : JString :=
  let isBareIpv6 := e.isResolved && bareIpv6.accepts e.host
  (if isBareIpv6 then unit '[' :: (e.host ++ [unit ']']) else e.host) ++ unit ':' :: decimal e.port

end InetEndpoint

/-- What `java.net.URI` documents about the hosts and ports it returns: it splits them out again,
and a host has one of the documented forms. -/
structure Platform.LawfulUri (P : Platform) : Prop where
  split_back : ∀ s host (port : Nat), P.uri s = some ⟨some (host, (port : Int))⟩ →
    P.uri (text "wg://" ++ (host ++ unit ':' :: decimal port)) = some ⟨some (host, (port : Int))⟩
  host : ∀ s host (port : Nat), P.uri s = some ⟨some (host, (port : Int))⟩ → UriHost host

namespace InetEndpoint

/-- An endpoint that `parse` can return. -/
structure Parsed (P : Platform) (e : InetEndpoint) : Prop where
  uri : ∃ s, P.uri s = some ⟨some (e.host, (e.port : Int))⟩
  port : e.port ≤ 65535
  resolved : e.isResolved = (InetAddresses.parse P e.host).isOk

theorem parsed_of_parse {P : Platform} {s : JString} {e : InetEndpoint} (h : parse P s = .ok e) :
    Parsed P e := by
  unfold parse at h
  split at h
  · cases h
  · split at h
    · cases h
    · cases h
    · next host port huri =>
      split at h
      · cases h
      · next hport =>
        have hnat : ((port.toNat : Nat) : Int) = port := by omega
        have hle : port.toNat ≤ 65535 := by omega
        have huri' : P.uri (text "wg://" ++ s) = some ⟨some (host, ((port.toNat : Nat) : Int))⟩ := by
          rw [huri, hnat]
        split at h <;> next hparse =>
          cases h
          exact ⟨⟨_, huri'⟩, hle, by rw [hparse]; rfl⟩

/-- A character of a URI host is no blank, no separator and none that `parse` forbids. -/
theorem uriHost_chars {h : JString} (hh : UriHost h) {c : UInt16} (hc : c ∈ h) :
    isTrim c = false ∧ forbidden c = false ∧ c ≠ unit ',' := by
  have halnum : ∀ {c}, isAlnum c = true → isTrim c = false ∧ forbidden c = false ∧ c ≠ unit ',' := by
    intro c hc
    refine ⟨isTrim_of_isAlnum hc, ?_, ne_of_isAlnum hc (by decide)⟩
    simp only [forbidden, Bool.or_eq_false_iff, beq_eq_false_iff_ne]
    exact ⟨⟨ne_of_isAlnum hc (by decide), ne_of_isAlnum hc (by decide)⟩,
      ne_of_isAlnum hc (by decide)⟩
  have hpunct : ∀ c ∈ text "-._:%[]", isTrim c = false ∧ forbidden c = false ∧ c ≠ unit ',' := by
    decide
  cases hh with
  | name _ hall =>
    rcases hall c hc with h | h
    · exact halnum h
    · refine hpunct c ?_
      have : ∀ c ∈ text "-._", c ∈ text "-._:%[]" := by decide
      exact this c h
  | @literal inner hall =>
    simp only [List.mem_cons, List.mem_append, List.not_mem_nil, or_false] at hc
    rcases hc with rfl | hc | rfl
    · decide
    · rcases hall c hc with h | h
      · exact halnum h
      · refine hpunct c ?_
        have : ∀ c ∈ text ":.%_-", c ∈ text "-._:%[]" := by decide
        exact this c h
    · decide

/-- `BARE_IPV6` matches texts with a colon and without brackets only. -/
theorem bareIpv6_chars {h : JString} (hh : bareIpv6.accepts h = true) :
    unit ':' ∈ h ∧ unit '[' ∉ h := by
  have hlang := Regex.accepts_iff.mp hh
  refine ⟨?_, fun hb => ?_⟩
  · cases hlang with
    | seq _ hrest =>
      cases hrest with
      | seq hcolon _ =>
        cases hcolon with
        | cls hc =>
          rw [eq_of_beq hc]
          simp
  · have hother : (Regex.star (.cls fun c => c != unit '[' && c != unit ']')).ClassesIn
        fun c => c ≠ unit '[' := by
      intro c hc
      simp only [Bool.and_eq_true, bne_iff_ne] at hc
      exact hc.1
    refine hlang.forall_mem ⟨hother, fun c hc => ?_, hother⟩ _ hb rfl
    rw [eq_of_beq hc]
    decide

/-- A URI host with a colon is in brackets, so the printer adds none. -/
theorem bareIpv6_uriHost {h : JString} (hh : UriHost h) : bareIpv6.accepts h = false := by
  cases hacc : bareIpv6.accepts h with
  | false => rfl
  | true =>
    obtain ⟨hcolon, hbracket⟩ := bareIpv6_chars hacc
    cases hh with
    | name _ hall =>
      rcases hall _ hcolon with h | h
      · exact absurd h (by decide)
      · exact absurd h (by decide)
    | literal => exact absurd List.mem_cons_self hbracket

theorem toString_of_uriHost {e : InetEndpoint} (h : UriHost e.host) :
    e.toString = e.host ++ unit ':' :: decimal e.port := by
  simp [toString, bareIpv6_uriHost h]

/-- The host and the port of an endpoint that was parsed are printed so that they parse back. -/
theorem parse_toString {P : Platform} (hP : P.LawfulUri) {e : InetEndpoint} (h : Parsed P e) :
    parse P e.toString = .ok e := by
  obtain ⟨s, hs⟩ := h.uri
  have hhost := hP.host _ _ _ hs
  have hforbidden : (e.host ++ unit ':' :: decimal e.port).any forbidden = false := by
    rw [List.any_eq_false]
    intro c hc
    simp only [List.mem_append, List.mem_cons] at hc
    rcases hc with hc | rfl | hc
    · simp [(uriHost_chars hhost hc).2.1]
    · decide
    · have halnum := isAlnum_of_mem_decimal hc
      simp only [forbidden, Bool.or_eq_true, beq_iff_eq, not_or]
      exact ⟨⟨ne_of_isAlnum halnum (by decide), ne_of_isAlnum halnum (by decide)⟩,
        ne_of_isAlnum halnum (by decide)⟩
  have hport := h.port
  have hres := h.resolved
  rw [toString_of_uriHost hhost, parse, if_neg (by simp [hforbidden]), hP.split_back _ _ _ hs]
  dsimp only
  rw [if_neg (by omega)]
  obtain ⟨host, isResolved, port⟩ := e
  cases hparse : InetAddresses.parse P host <;> rw [hparse] at hres <;> simp_all [Except.isOk, Except.toBool]

theorem plain_toString {P : Platform} (hP : P.LawfulUri) {e : InetEndpoint} (h : Parsed P e) :
    Plain e.toString := by
  obtain ⟨s, hs⟩ := h.uri
  have hhost := hP.host _ _ _ hs
  rw [toString_of_uriHost hhost]
  refine ⟨by simp, fun c hc => ?_⟩
  simp only [List.mem_append, List.mem_cons] at hc
  rcases hc with hc | rfl | hc
  · obtain ⟨htrim, hforbidden, hcomma⟩ := uriHost_chars hhost hc
    refine ⟨htrim, hcomma, ?_⟩
    rintro rfl
    exact absurd hforbidden (by decide)
  · decide
  · exact (plain_decimal _).2 c hc

end InetEndpoint

/-! ## A concrete platform -/

/-- Some addresses, the text that is printed for an address before its other spellings. -/
def sampleAddresses : List (JString × InetAddress) :=
  [(text "192.0.2.0", .inet4 0xC0000200),
   (text "192.0.2.1", .inet4 0xC0000201),
   (text "192.0.2.2", .inet4 0xC0000202),
   (text "0.0.0.0", .inet4 0),
   (text "2001:db8:ffff:ffff:ffff:ffff:ffff:ffff",
     .inet6 0x20010db8ffffffffffffffffffffffff none),
   (text "::", .inet6 0 none),
   (text "::0", .inet6 0 none)]

/-- A platform that knows `sampleAddresses` and one server URI. -/
def samplePlatform : Platform where
  parseNumericAddress := some fun s => sampleAddresses.lookup s
  getByName s := sampleAddresses.lookup s
  getHostAddress a := ((sampleAddresses.find? fun e => e.2 = a).map Prod.fst).getD []
  uri s := [(text "wg://192.0.2.1:51820", Uri.mk (some (text "192.0.2.1", 51820)))].lookup s

theorem mem_of_lookup {α β : Type} [BEq α] [LawfulBEq α] {l : List (α × β)} {a : α} {b : β}
    (h : l.lookup a = some b) : (a, b) ∈ l := by
  obtain ⟨l₁, l₂, rfl, _⟩ := List.lookup_eq_some_iff.mp h
  simp

theorem mem_of_sampleParse {s : JString} {a : InetAddress}
    (h : InetAddresses.parse samplePlatform s = .ok a) : (s, a) ∈ sampleAddresses := by
  unfold InetAddresses.parse at h
  split at h
  · cases h
  · dsimp only [samplePlatform] at h
    split at h
    · next hl =>
      cases h
      exact mem_of_lookup hl
    · cases h

theorem samplePlatform_lawfulAddresses : samplePlatform.LawfulAddresses := by
  have hall : ∀ e ∈ sampleAddresses,
      sampleAddresses.lookup (samplePlatform.getHostAddress e.2) = some e.2 ∧
      samplePlatform.getHostAddress e.2 ≠ [] ∧
      ∀ c ∈ samplePlatform.getHostAddress e.2,
        isTrim c = false ∧ c ≠ unit ',' ∧ c ≠ unit '#' := by
    decide
  refine ⟨fun s a h => ?_, fun s a h => (hall _ (mem_of_sampleParse h)).2.2⟩
  obtain ⟨hlookup, hne, _⟩ := hall _ (mem_of_sampleParse h)
  unfold InetAddresses.parse
  rw [if_neg (by simpa using hne)]
  change (match sampleAddresses.lookup _ with | some a => _ | none => _) = _
  rw [hlookup]

theorem samplePlatform_lawfulUri : samplePlatform.LawfulUri := by
  have hmem : ∀ s host (port : Nat), samplePlatform.uri s = some ⟨some (host, (port : Int))⟩ →
      host = text "192.0.2.1" ∧ port = 51820 := by
    intro s host port h
    have := mem_of_lookup h
    simp only [List.mem_singleton, Prod.mk.injEq, Uri.mk.injEq, Option.some.injEq] at this
    exact ⟨this.2.1, by omega⟩
  refine ⟨fun s host port h => ?_, fun s host port h => ?_⟩
  · obtain ⟨rfl, rfl⟩ := hmem s host port h
    decide
  · obtain ⟨rfl, rfl⟩ := hmem s host port h
    exact .name (by decide) (by decide)

theorem samplePlatform_slashFree : samplePlatform.SlashFree := by
  have hall : ∀ e ∈ sampleAddresses, unit '/' ∉ e.1 := by decide
  exact fun _ _ h => hall _ (mem_of_sampleParse h)

namespace InetNetwork

theorem parse_denotes_sample :
    parse samplePlatform (text "192.0.2.0/24") = .ok ⟨.inet4 0xC0000200, 24⟩ := by
  refine ((parse_denotes_iff samplePlatform (text "192.0.2.0/24") samplePlatform_slashFree).mpr ?_ _).mpr
    (.network (r := text "192.0.2.0") (t := text "24") (by decide) (by decide) (by decide))
  rintro ⟨r, t, a, m, hs, -, hm, hneg⟩
  have ht := (cut_at_slash (r := r) (slash_not_mem_of_parseInt hm)).1
  rw [← hs] at ht
  rw [← ht, show parseInt _ = some 24 by decide] at hm
  cases hm
  exact absurd hneg (by decide)

/-- A negative number is taken for a missing one. -/
theorem parse_negative :
    parse samplePlatform (text "192.0.2.1/-1") = .ok ⟨.inet4 0xC0000201, 32⟩ ∧
      ∀ n, ¬ Denotes samplePlatform (text "192.0.2.1/-1") n := by
  refine ⟨by decide, fun n hn => ?_⟩
  have hs : text "192.0.2.1/-1" = text "192.0.2.1" ++ unit '/' :: text "-1" := by decide
  rw [hs, denotes_of_slash samplePlatform_slashFree (by decide)] at hn
  obtain ⟨_, m, -, hm, -⟩ := hn
  rw [show parseInt (text "-1") = some (-1) by decide] at hm
  exact absurd (Option.some.inj hm) (by omega)

end InetNetwork

end WgAndroid
