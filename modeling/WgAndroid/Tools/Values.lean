import WgAndroid.Tools.Printed

/-!
# Addresses and endpoints in the native tools

What `wg` and wg-quick hold for the networks and endpoints of a configuration, and that they read them
from the printed texts.

Results:
1. `readsAs_network`: `parse_allowedips` reads a printed network.
2. `mapM_read_setAddr`: `set_addr` hands on the printed addresses.
3. `splitEndpoint_toString`: the host and the port that `parse_endpoint` resolves.
-/

namespace WgAndroid

/-! ## The same values on the other side -/

/-- What the native tools hold for an address without a zone. -/
def InetAddress.native : InetAddress → IpAddr
  | .inet4 a => .inet a
  | .inet6 a _ => .inet6 a

def InetAddress.zone : InetAddress → Option JString
  | .inet4 _ => none
  | .inet6 _ zone => zone

/-- Family, address and prefix length. -/
def InetNetwork.native (n : InetNetwork) : IpAddr × Nat := (n.address.native, n.mask)

/-- A host without its brackets. -/
def InetEndpoint.bareHost (e : InetEndpoint) : JString :=
  if e.host.head? = some (unit '[') then e.host.tail.dropLast else e.host

/-- The address in a command of wg-quick. -/
def AddrCommand.read (L : Libc) : AddrCommand → Option (IpAddr × Nat)
  | .ip6 addr => parseNetwork L addr
  | .setcfg addr mask => (L.inetPton4 addr).map fun a => (.inet a, mask)

/-- How the C library reads what the Java platform prints: an address without a zone is printed in
one of the two usual notations and `inet_pton` reads it back, and a numeric service is that port. -/
structure Libc.Agrees (L : Libc) (P : Platform) : Prop where
  pton4 : ∀ s a, InetAddresses.parse P s = .ok (.inet4 a) →
    L.inetPton4 (ascii (P.getHostAddress (.inet4 a))) = some a
  pton6 : ∀ s a, InetAddresses.parse P s = .ok (.inet6 a none) →
    L.inetPton6 (ascii (P.getHostAddress (.inet6 a none))) = some a
  text4 : ∀ s a, InetAddresses.parse P s = .ok (.inet4 a) →
    ∀ c ∈ P.getHostAddress (.inet4 a), isDigit c = true ∨ c = unit '.'
  text6 : ∀ s a, InetAddresses.parse P s = .ok (.inet6 a none) →
    unit ':' ∈ P.getHostAddress (.inet6 a none) ∧
    ∀ c ∈ P.getHostAddress (.inet6 a none),
      InetAddresses.isHex c = true ∨ c = unit ':' ∨ c = unit '.'
  service : ∀ n ≤ 65535, ∃ a, L.getaddrinfo none (ascii (decimal n)) 0 = .resolved a ∧
    a.port = some n

/-! ## Networks -/

theorem isAlnum_of_isHex {c : UInt16} (h : InetAddresses.isHex c = true) : isAlnum c = true := by
  have hF : unit 'F' ≤ unit 'Z' := by decide
  have hf : unit 'f' ≤ unit 'z' := by decide
  simp only [InetAddresses.isHex, isAlnum, inRange, Bool.or_eq_true, Bool.and_eq_true,
    decide_eq_true_eq] at h ⊢
  rcases h with (h | h) | h
  · exact .inl (.inl h)
  · exact .inl (.inr ⟨h.1, UInt16.le_trans h.2 hF⟩)
  · exact .inr ⟨h.1, UInt16.le_trans h.2 hf⟩

section Address

variable {P : Platform} {L : Libc} (hP : P.LawfulAddresses) (hL : L.Agrees P)
  {a : InetAddress} (ha : ∃ s, InetAddresses.parse P s = .ok a) (hzone : a.zone = none)
include hL ha hzone

theorem hostAddress_chars : ∀ c ∈ P.getHostAddress a,
    InetAddresses.isHex c = true ∨ c = unit ':' ∨ c = unit '.' := by
  obtain ⟨s, hs⟩ := ha
  cases a with
  | inet4 a =>
    intro c hc
    refine (hL.text4 s a hs c hc).imp (fun h => ?_) .inr
    simp only [InetAddresses.isHex, Bool.or_eq_true]
    exact .inl (.inl h)
  | inet6 a zone =>
    cases hzone
    exact (hL.text6 s a hs).2

include hP in
theorem native_hostAddress : Native (P.getHostAddress a) := by
  have hchars := hostAddress_chars hL ha hzone
  obtain ⟨s, hs⟩ := ha
  refine ⟨hP.plain hs, fun c hc => ?_⟩
  rcases hchars c hc with h | rfl | rfl
  · exact ascii_of_isAlnum (isAlnum_of_isHex h)
  · decide
  · decide

include hP in
/-- A colon tells the families apart. -/
theorem contains_colon :
    (ascii (P.getHostAddress a)).contains (byte ':') = !a.isInet4 := by
  have hnative := native_hostAddress hP hL ha hzone
  obtain ⟨s, hs⟩ := ha
  cases a with
  | inet4 a =>
    show _ = false
    rw [Bool.eq_false_iff, ne_eq, List.contains_iff_mem]
    intro hmem
    rcases hL.text4 s a hs _ (toUInt16_mem hnative.ascii hmem) with h | h
    · exact absurd h (by decide)
    · exact absurd h (by decide)
  | inet6 a zone =>
    cases hzone
    show _ = true
    rw [List.contains_iff_mem]
    exact List.mem_map.mpr ⟨_, (hL.text6 s a hs).1, by decide⟩

include hP in
/-- `parse_ip` reads a printed address. -/
theorem parseIp_hostAddress : parseIp L (ascii (P.getHostAddress a)) = some a.native := by
  have hcolon := contains_colon hP hL ha hzone
  obtain ⟨s, hs⟩ := ha
  rw [parseIp, hcolon]
  cases a with
  | inet4 a =>
    show (L.inetPton4 _).map _ = _
    rw [hL.pton4 s a hs]
    rfl
  | inet6 a zone =>
    cases hzone
    show (L.inetPton6 _).map _ = _
    rw [hL.pton6 s a hs]
    rfl

end Address

theorem ascii_network (P : Platform) (n : InetNetwork) : ascii (n.toString P) =
    ascii (P.getHostAddress n.address) ++ byte '/' :: ascii (decimal n.mask) := by
  rw [InetNetwork.toString, ascii_append]
  rfl

theorem mask_le {P : Platform} {n : InetNetwork} (hn : InetNetwork.Parsed P n) :
    n.mask ≤ n.address.native.maxCidr := by
  refine hn.mask.trans_eq ?_
  cases n.address <;> rfl

section Network

variable {P : Platform} {L : Libc} (hP : P.LawfulAddresses) (hL : L.Agrees P) {n : InetNetwork}
  (hn : InetNetwork.Parsed P n) (hzone : n.address.zone = none)
include hP hL hn hzone

theorem native_network : Native (n.toString P) := by
  refine ⟨InetNetwork.plain_toString hP hn, fun c hc => ?_⟩
  simp only [InetNetwork.toString, List.mem_append, List.mem_cons] at hc
  rcases hc with hc | rfl | hc
  · exact (native_hostAddress hP hL hn.address hzone).ascii c hc
  · decide
  · exact (native_decimal _).ascii c hc

/-- None of the characters that the readers treat specially occurs in a printed network. -/
theorem network_bytes : ∀ b ∈ ascii (n.toString P),
    b ≠ byte ',' ∧ b ≠ byte '-' ∧ b ≠ byte '+' ∧ b ≠ 0x27 ∧ b ≠ 0x5C := by
  intro b hb
  have hmem := toUInt16_mem (native_network hP hL hn hzone).ascii hb
  simp only [InetNetwork.toString, List.mem_append, List.mem_cons] at hmem
  refine forall_byte (p := fun b => (InetAddresses.isHex b.toUInt16 = true ∨
    b.toUInt16 = unit ':' ∨ b.toUInt16 = unit '.') ∨ b.toUInt16 = unit '/' ∨
      isDigit b.toUInt16 = true →
    b ≠ byte ',' ∧ b ≠ byte '-' ∧ b ≠ byte '+' ∧ b ≠ 0x27 ∧ b ≠ 0x5C) (by decide +kernel) b ?_
  exact hmem.imp (hostAddress_chars hL hn.address hzone _) (.imp_right isDigit_of_mem_decimal)

theorem slash_not_mem_hostAddress : byte '/' ∉ ascii (P.getHostAddress n.address) := by
  intro hmem
  rcases hostAddress_chars hL hn.address hzone _
    (toUInt16_mem (native_hostAddress hP hL hn.address hzone).ascii hmem) with h | h | h
  all_goals exact absurd h (by decide)

theorem parseNetwork_network : parseNetwork L (ascii (n.toString P)) = some n.native := by
  rw [ascii_network]
  exact parseNetwork_append (slash_not_mem_hostAddress hP hL hn hzone)
    (parseIp_hostAddress hP hL hn.address hzone) (mask_le hn)

/-- `wg` reads a printed network. -/
theorem readsAs_network : ReadsAs L (ascii (n.toString P)) n.native where
  nonempty h := (native_network hP hL hn hzone).plain.1 (List.map_eq_nil_iff.mp h)
  comma h := (network_bytes hP hL hn hzone _ h).1 rfl
  minus h := (network_bytes hP hL hn hzone _ (List.mem_of_mem_head? h)).2.1 rfl
  plus h := (network_bytes hP hL hn hzone _ (List.mem_of_mem_head? h)).2.2.1 rfl
  network := parseNetwork_network hP hL hn hzone

/-- wg-quick hands a printed network on. -/
theorem read_addAddr : (addAddr (ascii (n.toString P))).read L = some n.native := by
  have hcolon : (ascii (n.toString P)).contains (byte ':') = !n.address.isInet4 := by
    have hdigits : (ascii (decimal n.mask)).contains (byte ':') = false := by
      rw [Bool.eq_false_iff, ne_eq, List.contains_iff_mem]
      intro hmem
      exact absurd (isDigit_of_mem_decimal (toUInt16_mem (native_decimal _).ascii hmem)) (by decide)
    have hslash : (byte ':' == byte '/') = false := by decide
    rw [ascii_network, List.contains_append, contains_colon hP hL hn.address hzone,
      List.contains_cons, hdigits, hslash, Bool.or_false, Bool.or_false]
  rw [addAddr, hcolon]
  cases hfamily : n.address.isInet4 with
  | false => exact parseNetwork_network hP hL hn hzone
  | true =>
    have hslash : (ascii (n.toString P)).contains (byte '/') = true := by
      rw [ascii_network]
      simp
    obtain ⟨htake, hdrop⟩ :=
      cut_append (slash_not_mem_hostAddress hP hL hn hzone) (ascii (decimal n.mask))
    rw [Bool.not_true, if_neg Bool.false_ne_true, if_pos hslash, ascii_network, htake, hdrop,
      List.tail_cons, atoi_decimal]
    obtain ⟨s, hs⟩ := hn.address
    have hmask := mask_le hn
    obtain ⟨address, mask⟩ := n
    cases address with
    | inet6 => cases hfamily
    | inet4 a =>
      have hle : mask ≤ 32 := hmask
      show (L.inetPton4 _).map _ = some (IpAddr.inet a, mask)
      rw [hL.pton4 s a hs, Option.map_some]
      refine congrArg (fun m => some (IpAddr.inet a, m)) ?_
      show ((mask : Int) % 2 ^ 8).toNat = mask
      omega

end Network

section Networks

variable {P : Platform} {L : Libc} (hP : P.LawfulAddresses) (hL : L.Agrees P)
  {ns : List InetNetwork} (hn : ∀ n ∈ ns, InetNetwork.Parsed P n)
  (hzone : ∀ n ∈ ns, n.address.zone = none)
include hP hL hn hzone

theorem native_networks : ∀ x ∈ ns.map (·.toString P), Native x := by
  intro x hx
  obtain ⟨n, hmem, rfl⟩ := List.mem_map.mp hx
  exact native_network hP hL (hn n hmem) (hzone n hmem)

/-- The addresses that `set_addr` sets. -/
theorem mapM_read_setAddr :
    (setAddr ([byte ','].intercalate ((ns.map (·.toString P)).map ascii))).mapM (AddrCommand.read L) =
      some (ns.map InetNetwork.native) := by
  have hbytes : ∀ t ∈ (ns.map (·.toString P)).map ascii, t ≠ [] ∧
      (∀ b ∈ t, (cstring ", \t\n").contains b = false) ∧ 0x27 ∉ t ∧ 0x5C ∉ t := by
    intro t ht
    simp only [List.map_map, List.mem_map, Function.comp_apply] at ht
    obtain ⟨n, hmem, rfl⟩ := ht
    have hnative := native_network hP hL (hn n hmem) (hzone n hmem)
    have hchars := network_bytes hP hL (hn n hmem) (hzone n hmem)
    refine ⟨fun h => hnative.plain.1 (List.map_eq_nil_iff.mp h), fun b hb => ?_,
      fun h => (hchars _ h).2.2.2.1 rfl, fun h => (hchars _ h).2.2.2.2 rfl⟩
    exact forall_byte (p := fun b => isspace b = false → b ≠ byte ',' →
      (cstring ", \t\n").contains b = false) (by decide +kernel) b (native_bytes hnative b hb).1
      (hchars b hb).1
  have hkeep : (((ns.map (·.toString P)).map ascii).filter fun addr =>
      !(addr.contains 0x27 || addr.contains 0x5C)) = (ns.map (·.toString P)).map ascii := by
    refine List.filter_eq_self.mpr fun t ht => ?_
    obtain ⟨_, _, hquote, hbackslash⟩ := hbytes t ht
    simp [hquote, hbackslash]
  rw [setAddr, strtok_intercalate (by decide) fun t ht => ⟨(hbytes t ht).1, (hbytes t ht).2.1⟩, hkeep,
    List.map_map, List.map_map, List.mapM_map]
  exact Checked.mapM_eq_some fun n hmem => read_addAddr hP hL (hn n hmem) (hzone n hmem)

end Networks

/-! ## Endpoints -/

theorem isAscii_uriHost {h : JString} (hh : UriHost h) : IsAscii h := by
  have hname : ∀ c ∈ text "-._", c < 0x80 := by decide
  have hliteral : ∀ c ∈ text ":.%_-", c < 0x80 := by decide
  intro c hc
  cases hh with
  | name _ hall => exact (hall c hc).elim ascii_of_isAlnum (hname c)
  | literal hall =>
    simp only [List.mem_cons, List.mem_append, List.not_mem_nil, or_false] at hc
    rcases hc with rfl | hc | rfl
    · decide
    · exact (hall c hc).elim ascii_of_isAlnum (hliteral c)
    · decide

theorem native_endpoint {P : Platform} (hU : P.LawfulUri) {e : InetEndpoint}
    (he : InetEndpoint.Parsed P e) : Native e.toString := by
  obtain ⟨s, hs⟩ := he.uri
  have hhost := hU.host _ _ _ hs
  refine ⟨InetEndpoint.plain_toString hU he, fun c hc => ?_⟩
  rw [InetEndpoint.toString_of_uriHost hhost] at hc
  simp only [List.mem_append, List.mem_cons] at hc
  rcases hc with hc | rfl | hc
  · exact isAscii_uriHost hhost c hc
  · decide
  · exact (native_decimal _).ascii c hc

/-- The host and the port that are handed to `getaddrinfo`. -/
theorem splitEndpoint_toString {e : InetEndpoint} (h : UriHost e.host) :
    splitEndpoint (ascii e.toString) = some (ascii e.bareHost, ascii (decimal e.port)) := by
  have hascii : ascii e.toString = ascii e.host ++ byte ':' :: ascii (decimal e.port) := by
    rw [InetEndpoint.toString_of_uriHost h, ascii_append]
    rfl
  have hport : ascii (decimal e.port) ≠ [] := fun h => decimal_ne_nil _ (List.map_eq_nil_iff.mp h)
  rw [hascii]
  obtain ⟨host, isResolved, port⟩ := e
  cases h with
  | name hne hall =>
    have hbracket : host.head? ≠ some (unit '[') := by
      intro hhead
      rcases hall _ (List.mem_of_mem_head? hhead) with h | h
      all_goals exact absurd h (by decide)
    have hbracket' : (ascii host).head? ≠ some (byte '[') := by
      intro hhead
      have hmem := toUInt16_mem (isAscii_uriHost (.name hne hall)) (List.mem_of_mem_head? hhead)
      rcases hall _ hmem with h | h
      all_goals exact absurd h (by decide)
    have hcolon : byte ':' ∉ ascii (decimal port) := by
      intro hmem
      exact absurd (isDigit_of_mem_decimal (toUInt16_mem (native_decimal _).ascii hmem)) (by decide)
    rw [splitEndpoint_name hbracket' (fun h => hne (List.map_eq_nil_iff.mp h)) hport hcolon,
      InetEndpoint.bareHost, if_neg hbracket]
  | @literal inner hall =>
    have hascii' : IsAscii inner := fun c hc => isAscii_uriHost (.literal hall) c (by simp [hc])
    have hinner : byte ']' ∉ ascii inner := by
      intro hmem
      rcases hall _ (toUInt16_mem hascii' hmem) with h | h
      all_goals exact absurd h (by decide)
    have hbare : InetEndpoint.bareHost ⟨unit '[' :: (inner ++ [unit ']']), isResolved, port⟩ =
        inner := by
      exact (if_pos rfl).trans List.dropLast_concat
    have hsplit : ascii (unit '[' :: (inner ++ [unit ']'])) ++ byte ':' :: ascii (decimal port) =
        byte '[' :: (ascii inner ++ byte ']' :: byte ':' :: ascii (decimal port)) := by
      show byte '[' :: (ascii (inner ++ [unit ']']) ++ _) = _
      rw [ascii_append, List.append_assoc]
      rfl
    rw [hbare, hsplit, splitEndpoint_literal hinner hport]

end WgAndroid
