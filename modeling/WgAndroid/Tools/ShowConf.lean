import WgAndroid.Backend.Statistics
import WgAndroid.Tools.Agreement

/-!
# A device as a file

`showconf_main` of `showconf.c` prints a device in the format that `config.c` reads. What it leaves out
is zero.

Results:
1. `showconf_eq`: the printed text, line by line.
2. `parseEndpoint_text`, `readsAs_allowedIp`, `parseFwmark_hex`: what is printed is read.
3. `addconf_showconf`: what is read of the whole text.
-/

namespace WgAndroid

namespace Show

/-! ## The printer -/

/-- The loop over the allowed IPs; of a family other than the two nothing is printed. -/
def confAllowedIps (N : Names) : List AllowedIp → JString
  | [] => []
  | a :: rest =>
    (if a.address.isNone then []
    else allowedIp N a ++ if rest.isEmpty then [] else text ", ") ++ confAllowedIps N rest

def confEndpoint (N : Names) (addr : SockAddr) : JString :=
  match addr with
  | .other => []
  | addr =>
    match N.getnameinfo addr with
    | .error _ => []
    | .ok (host, service) =>
      if isInet6 addr && host.contains (unit ':') then
        text "Endpoint = [" ++ host ++ text "]:" ++ service ++ [LF]
      else text "Endpoint = " ++ host ++ text ":" ++ service ++ [LF]

/-- One round of the loop over the peers, without the empty line at its end. -/
def confPeer (N : Names) (p : Peer) : JString :=
  text "[Peer]" ++ [LF] ++ text "PublicKey = " ++ key p.publicKey ++ [LF] ++
    p.presharedKey.elim [] (fun k => text "PresharedKey = " ++ key k ++ [LF]) ++
    (if p.allowedIps.isEmpty then [] else text "AllowedIPs = ") ++ confAllowedIps N p.allowedIps ++
    (if p.allowedIps.isEmpty then [] else [LF]) ++
    confEndpoint N p.endpoint ++
    if p.persistentKeepaliveInterval ≠ 0 then
      text "PersistentKeepalive = " ++ decimal p.persistentKeepaliveInterval.toNat ++ [LF]
    else []

def confPeers (N : Names) : List Peer → JString
  | [] => []
  | p :: rest => confPeer N p ++ (if rest.isEmpty then [] else [LF]) ++ confPeers N rest

/-- `showconf_main`, once it has the device. -/
def showconf (N : Names) (d : Device) : JString :=
  text "[Interface]" ++ [LF] ++
    (if d.listenPort ≠ 0 then text "ListenPort = " ++ decimal d.listenPort.toNat ++ [LF] else []) ++
    (if d.fwmark ≠ 0 then text "FwMark = " ++ hex d.fwmark.toNat ++ [LF] else []) ++
    d.privateKey.elim [] (fun k => text "PrivateKey = " ++ key k ++ [LF]) ++
    [LF] ++ confPeers N d.peers

/-! ## What is read back -/

/-- A number that is left out if it is zero. -/
def nonzero (n : ℕ) : Option ℕ := if n ≠ 0 then some n else none

def AllowedIp.read (a : AllowedIp) : Option WgAndroid.AllowedIp :=
  a.address.map fun address => ⟨address, a.cidr.toNat, false⟩

def readEndpoint : SockAddr → Option SockAddr
  | .other => none
  | addr => some addr

def Peer.read (p : Peer) : WgPeer where
  publicKey := some p.publicKey.bytes
  presharedKey := p.presharedKey.map Key.bytes
  endpoint := readEndpoint p.endpoint
  persistentKeepalive := nonzero p.persistentKeepaliveInterval.toNat
  replaceAllowedIps := true
  allowedIps := p.allowedIps.filterMap AllowedIp.read

def Device.read (d : Device) : WgDevice where
  privateKey := d.privateKey.map Key.bytes
  fwmark := nonzero d.fwmark.toNat
  listenPort := nonzero d.listenPort.toNat
  peers := d.peers.map Peer.read

/-- What the kernel has: networks of the two families, and ports. -/
structure Peer.Printable (p : Peer) : Prop where
  allowedIps : ∀ a ∈ p.allowedIps, ∃ address, a.address = some address ∧ a.cidr.toNat ≤ address.maxCidr
  port : ∀ n ∈ p.endpoint.port, n ≤ 65535

end Show

/-- The C library reads what it prints. `getnameinfo` is called for numbers, so that it prints what
`inet_ntop` does. -/
structure Libc.Prints (L : Libc) (N : Names) : Prop where
  pton4 : ∀ a, L.inetPton4 (ascii (N.inetNtop4 a)) = some a
  pton6 : ∀ a, L.inetPton6 (ascii (N.inetNtop6 a)) = some a
  nonempty4 : ∀ a, N.inetNtop4 a ≠ []
  text4 : ∀ a, ∀ c ∈ N.inetNtop4 a, isDigit c = true ∨ c = unit '.'
  colon6 : ∀ a, unit ':' ∈ N.inetNtop6 a
  text6 : ∀ a, ∀ c ∈ N.inetNtop6 a, InetAddresses.isHex c = true ∨ c = unit ':' ∨ c = unit '.'
  name4 : ∀ a, ∀ n ≤ 65535, N.getnameinfo (.inet a n) = .ok (N.inetNtop4 a, decimal n)
  name6 : ∀ a, ∀ n ≤ 65535, N.getnameinfo (.inet6 a n) = .ok (N.inetNtop6 a, decimal n)
  addr4 : ∀ a, ∀ n ≤ 65535,
    L.getaddrinfo (some (ascii (N.inetNtop4 a))) (ascii (decimal n)) 0 = .resolved (.inet a n)
  addr6 : ∀ a, ∀ n ≤ 65535,
    L.getaddrinfo (some (ascii (N.inetNtop6 a))) (ascii (decimal n)) 0 = .resolved (.inet6 a n)
  service : ∀ n ≤ 65535, ∃ a, L.getaddrinfo none (ascii (decimal n)) 0 = .resolved a ∧
    a.port = some n

namespace Show

/-! ## Lines -/

/-- The text of an endpoint that is printed. -/
def endpointText (N : Names) (addr : SockAddr) : Option JString :=
  match addr with
  | .other => none
  | addr => some (endpoint N addr)

def peerLines (N : Names) (p : Peer) : List JString :=
  [Attribute.line "PublicKey" p.publicKey.toBase64] ++
    Attribute.optLine "PresharedKey" (p.presharedKey.map Key.toBase64) ++
    Attribute.listLine "AllowedIPs" (p.allowedIps.map (allowedIp N)) ++
    Attribute.optLine "Endpoint" (endpointText N p.endpoint) ++
    Attribute.optLine "PersistentKeepalive"
      ((nonzero p.persistentKeepaliveInterval.toNat).map decimal)

def peersLines (N : Names) : List Peer → List JString
  | [] => []
  | p :: rest =>
    text "[Peer]" :: peerLines N p ++ (if rest.isEmpty then [] else [[]]) ++ peersLines N rest

def deviceLines (d : Device) : List JString :=
  Attribute.optLine "ListenPort" ((nonzero d.listenPort.toNat).map decimal) ++
    Attribute.optLine "FwMark" ((nonzero d.fwmark.toNat).map hex) ++
    Attribute.optLine "PrivateKey" (d.privateKey.map Key.toBase64)

def confLines (N : Names) (d : Device) : List JString :=
  text "[Interface]" :: deviceLines d ++ [] :: peersLines N d.peers

theorem unlines_cons (l : JString) (ls : List JString) : unlines (l :: ls) = l ++ [LF] ++ unlines ls := by
  rw [unlines, List.flatMap_cons]
  rfl

theorem unlines_append (ls ms : List JString) : unlines (ls ++ ms) = unlines ls ++ unlines ms :=
  List.flatMap_append

/-- The name of an attribute as `printf` has it. -/
theorem text_assign (name : String) : text (name ++ " = ") = text name ++ text " = " := by
  rw [text, String.toList_append, List.map_append]
  rfl

theorem unlines_optLine (name : String) (o : Option JString) :
    unlines (Attribute.optLine name o) = o.elim [] fun v => text name ++ text " = " ++ v ++ [LF] := by
  cases o with
  | none => rfl
  | some v => simp [Attribute.optLine, Attribute.line, unlines]

variable {N : Names}

theorem confAllowedIps_eq {as : List AllowedIp} (h : ∀ a ∈ as, a.address.isNone = false) :
    confAllowedIps N as = Attribute.join (as.map (allowedIp N)) := by
  induction as with
  | nil => rfl
  | cons a rest ih =>
    have hrest := ih fun b hb => h b (List.mem_cons_of_mem a hb)
    rw [confAllowedIps, h a List.mem_cons_self, if_neg Bool.false_ne_true, hrest]
    cases rest with
    | nil => simp [Attribute.join]
    | cons b rest =>
      simp [Attribute.join, List.intercalate_cons_cons]

theorem endpoint_inet {L : Libc} (hL : L.Prints N) (a : BitVec 32) {n : ℕ} (hn : n ≤ 65535) :
    endpoint N (.inet a n) = N.inetNtop4 a ++ unit ':' :: decimal n := by
  rw [endpoint, hL.name4 a n hn]
  exact List.append_assoc ..

theorem endpoint_inet6 {L : Libc} (hL : L.Prints N) (a : BitVec 128) {n : ℕ} (hn : n ≤ 65535) :
    endpoint N (.inet6 a n) =
      unit '[' :: (N.inetNtop6 a ++ unit ']' :: unit ':' :: decimal n) := by
  have hcolon : (isInet6 (.inet6 a n) && (N.inetNtop6 a).contains (unit ':')) = true := by
    simpa [isInet6] using hL.colon6 a
  rw [endpoint, hL.name6 a n hn]
  simp only [if_pos hcolon, List.append_assoc]
  rfl

theorem confEndpoint_eq {L : Libc} (hL : L.Prints N) {addr : SockAddr}
    (hport : ∀ n ∈ addr.port, n ≤ 65535) : confEndpoint N addr =
      unlines (Attribute.optLine "Endpoint" (endpointText N addr)) := by
  rw [unlines_optLine]
  cases addr with
  | other => rfl
  | inet a n =>
    have hn := hport n rfl
    simp only [endpointText, Option.elim_some, endpoint_inet hL a hn, confEndpoint, hL.name4 a n hn]
    simp only [isInet6, Bool.false_and, if_neg Bool.false_ne_true, List.append_assoc]
    rfl
  | inet6 a n =>
    have hn := hport n rfl
    have hcolon : (isInet6 (.inet6 a n) && (N.inetNtop6 a).contains (unit ':')) = true := by
      simpa [isInet6] using hL.colon6 a
    simp only [endpointText, Option.elim_some, endpoint_inet6 hL a hn, confEndpoint, hL.name6 a n hn,
      if_pos hcolon, List.append_assoc, List.cons_append]
    rfl

theorem elim_nonzero (n : ℕ) (f : ℕ → JString) :
    (nonzero n).elim [] f = if n ≠ 0 then f n else [] := by
  unfold nonzero
  split_ifs <;> rfl

theorem unlines_nonzero (name : String) (n : ℕ) (f : ℕ → JString) :
    unlines (Attribute.optLine name ((nonzero n).map f)) =
      if n ≠ 0 then text name ++ text " = " ++ f n ++ [LF] else [] := by
  rw [unlines_optLine, nonzero]
  split_ifs <;> rfl

theorem unlines_keys (name : String) (k : Option Key) :
    unlines (Attribute.optLine name (k.map Key.toBase64)) =
      k.elim [] fun k => text name ++ text " = " ++ key k ++ [LF] := by
  rw [unlines_optLine]
  cases k with
  | none => rfl
  | some k => rw [Option.map_some, Option.elim_some, Option.elim_some, key_eq]

theorem unlines_listLine (name : String) (vs : List JString) :
    unlines (Attribute.listLine name vs) =
      if vs.isEmpty then [] else text name ++ text " = " ++ Attribute.join vs ++ [LF] := by
  unfold Attribute.listLine
  split_ifs
  · rfl
  · simp [Attribute.line, unlines]

theorem confPeer_eq {L : Libc} (hL : L.Prints N) {p : Peer} (hp : p.Printable) :
    confPeer N p = unlines (text "[Peer]" :: peerLines N p) := by
  have hips : ∀ a ∈ p.allowedIps, a.address.isNone = false := by
    intro a ha
    obtain ⟨address, haddress, -⟩ := hp.allowedIps a ha
    rw [haddress]
    rfl
  have hzero : p.persistentKeepaliveInterval.toNat ≠ 0 ↔ p.persistentKeepaliveInterval ≠ 0 :=
    not_congr (UInt16.toNat_inj (b := 0))
  have hnil : unlines [] = [] := rfl
  have hlist : (if p.allowedIps.isEmpty then [] else text "AllowedIPs = ") ++
      confAllowedIps N p.allowedIps ++ (if p.allowedIps.isEmpty then [] else [LF]) =
        if p.allowedIps.isEmpty then []
        else text "AllowedIPs = " ++ confAllowedIps N p.allowedIps ++ [LF] := by
    cases p.allowedIps with
    | nil => rfl
    | cons => rfl
  simp only [List.append_assoc] at hlist
  simp only [peerLines, unlines_cons, unlines_append, unlines_keys, unlines_listLine, unlines_nonzero,
    ← confEndpoint_eq hL hp.port, ← confAllowedIps_eq hips, hzero, confPeer, List.isEmpty_map, key_eq,
    Attribute.line, ← text_assign, String.reduceAppend, hnil, List.append_assoc, List.nil_append]
  have hpublicKey := text_assign "PublicKey"
  simp only [String.reduceAppend] at hpublicKey
  rw [← hlist, hpublicKey]
  simp only [List.append_assoc]

theorem confPeers_eq {L : Libc} (hL : L.Prints N) {ps : List Peer} (hp : ∀ p ∈ ps, p.Printable) :
    confPeers N ps = unlines (peersLines N ps) := by
  induction ps with
  | nil => rfl
  | cons p rest ih =>
    have hrest := ih fun q hq => hp q (List.mem_cons_of_mem p hq)
    have hblank : (if rest.isEmpty then [] else [LF]) =
        unlines (if rest.isEmpty then [] else [[]]) := by
      split_ifs <;> rfl
    rw [confPeers, peersLines, confPeer_eq hL (hp p List.mem_cons_self), hrest, hblank,
      unlines_append, unlines_append]

/-- The printed text, line by line. -/
theorem showconf_eq {L : Libc} (hL : L.Prints N) {d : Device} (hd : ∀ p ∈ d.peers, p.Printable) :
    showconf N d = unlines (confLines N d) := by
  have hport : d.listenPort.toNat ≠ 0 ↔ d.listenPort ≠ 0 :=
    not_congr (UInt16.toNat_inj (b := 0))
  have hmark : d.fwmark.toNat ≠ 0 ↔ d.fwmark ≠ 0 := not_congr (UInt32.toNat_inj (b := 0))
  simp only [showconf, confLines, deviceLines, unlines_append, unlines_cons, unlines_keys,
    unlines_nonzero, ← confPeers_eq hL hd, hport, hmark, ← text_assign, String.reduceAppend,
    List.append_assoc, List.nil_append]

/-! ## Texts that are read as they are -/

theorem native_of_chars {s : JString} (hne : s ≠ [])
    (h : ∀ c ∈ s, isAlnum c = true ∨ c ∈ text ":./[]") : Native s := by
  have hother : ∀ c ∈ text ":./[]", (isTrim c = false ∧ c ≠ unit ',' ∧ c ≠ unit '#') ∧ c < 0x80 := by
    decide
  refine ⟨⟨hne, fun c hc => ?_⟩, fun c hc => ?_⟩
  · exact (h c hc).elim plain_char_of_isAlnum fun hc => (hother c hc).1
  · exact (h c hc).elim ascii_of_isAlnum fun hc => (hother c hc).2

theorem alnum_of_mem_decimal {n : ℕ} {c : UInt16} (h : c ∈ decimal n) :
    isAlnum c = true ∨ c ∈ text ":./[]" :=
  .inl (isAlnum_of_mem_decimal h)

theorem chars_hex (n : ℕ) : ∀ c ∈ hex n, isAlnum c = true := by
  have hdigit : ∀ d : Fin 16, isAlnum (unit (Nat.digitChar d)) = true := by decide
  intro c hc
  rcases List.mem_append.mp hc with hc | hc
  · exact (by decide : ∀ c ∈ text "0x", isAlnum c = true) c hc
  · obtain ⟨c, hmem, rfl⟩ := List.mem_map.mp hc
    obtain ⟨d, rfl⟩ := exists_of_mem_toDigits hmem
    exact hdigit d

theorem native_hex (n : ℕ) : Native (hex n) :=
  native_of_chars (List.append_ne_nil_of_left_ne_nil (by decide) _) fun c hc => .inl (chars_hex n c hc)

/-- An address as `inet_ntop` prints it. -/
def addressText (N : Names) : IpAddr → JString
  | .inet a => N.inetNtop4 a
  | .inet6 a => N.inetNtop6 a

theorem ip_eq {a : AllowedIp} {address : IpAddr} (h : a.address = some address) :
    ip N a = addressText N address := by
  rw [ip, h]
  cases address <;> rfl

theorem bytes_allowedIp {a : AllowedIp} {address : IpAddr} (h : a.address = some address) :
    ascii (allowedIp N a) =
      ascii (addressText N address) ++ byte '/' :: ascii (decimal a.cidr.toNat) := by
  rw [allowedIp, ip_eq h, List.append_assoc, ascii_append]
  rfl

section Texts

variable {L : Libc} (hL : L.Prints N)
include hL

theorem chars_addressText (address : IpAddr) : ∀ c ∈ addressText N address,
    InetAddresses.isHex c = true ∨ c = unit ':' ∨ c = unit '.' := by
  cases address with
  | inet a =>
    intro c hc
    refine (hL.text4 a c hc).imp (fun h => ?_) .inr
    simp only [InetAddresses.isHex, Bool.or_eq_true]
    exact .inl (.inl h)
  | inet6 a => exact hL.text6 a

theorem native_addressText (address : IpAddr) : Native (addressText N address) := by
  refine native_of_chars ?_ fun c hc => ?_
  · cases address with
    | inet a => exact hL.nonempty4 a
    | inet6 a => exact List.ne_nil_of_mem (hL.colon6 a)
  · rcases chars_addressText hL address c hc with h | rfl | rfl
    · exact .inl (isAlnum_of_isHex h)
    · exact .inr (by decide)
    · exact .inr (by decide)

theorem bytes_addressText (address : IpAddr) {b : UInt8} (h : b ∈ ascii (addressText N address)) :
    InetAddresses.isHex b.toUInt16 = true ∨ b.toUInt16 = unit ':' ∨ b.toUInt16 = unit '.' :=
  chars_addressText hL address _ (toUInt16_mem (native_addressText hL address).ascii h)

theorem colon_not_mem_ntop4 (a : BitVec 32) : byte ':' ∉ ascii (N.inetNtop4 a) := by
  intro hmem
  rcases hL.text4 a _ (toUInt16_mem (native_addressText hL (.inet a)).ascii hmem) with h | h
  · exact absurd h (by decide)
  · exact absurd h (by decide)

theorem colon_mem_ntop6 (a : BitVec 128) : byte ':' ∈ ascii (N.inetNtop6 a) :=
  List.mem_map.mpr ⟨_, hL.colon6 a, by decide⟩

/-- `parse_ip` reads a printed address. -/
theorem parseIp_addressText (address : IpAddr) :
    parseIp L (ascii (addressText N address)) = some address := by
  cases address with
  | inet a =>
    rw [addressText, parseIp, if_neg (List.contains_iff_mem.not.mpr (colon_not_mem_ntop4 hL a)),
      hL.pton4]
    rfl
  | inet6 a =>
    rw [addressText, parseIp, if_pos (List.contains_iff_mem.mpr (colon_mem_ntop6 hL a)), hL.pton6]
    rfl

theorem native_allowedIp {a : AllowedIp} {address : IpAddr} (h : a.address = some address) :
    Native (allowedIp N a) := by
  have haddress := native_addressText hL address
  have hslash : ∀ c ∈ text "/", isAlnum c = true ∨ c ∈ text ":./[]" := by decide
  rw [allowedIp, ip_eq h, List.append_assoc]
  refine native_of_chars (List.append_ne_nil_of_left_ne_nil haddress.plain.1 _) fun c hc => ?_
  rcases List.mem_append.mp hc with hc | hc
  · rcases chars_addressText hL address c hc with h | rfl | rfl
    · exact .inl (isAlnum_of_isHex h)
    · exact .inr (by decide)
    · exact .inr (by decide)
  · rcases List.mem_append.mp hc with hc | hc
    · exact hslash c hc
    · exact .inl (isAlnum_of_mem_decimal hc)

/-- `parse_allowedips` reads a printed network. -/
theorem readsAs_allowedIp {a : AllowedIp} {address : IpAddr} (h : a.address = some address)
    (hcidr : a.cidr.toNat ≤ address.maxCidr) :
    ReadsAs L (ascii (allowedIp N a)) (address, a.cidr.toNat) := by
  have hnative := native_allowedIp hL h
  have hne : ascii (addressText N address) ≠ [] := fun hnil =>
    (native_addressText hL address).plain.1 (List.map_eq_nil_iff.mp hnil)
  have hhead : ∀ {b : UInt8}, (ascii (allowedIp N a)).head? = some b →
      b ∈ ascii (addressText N address) := by
    intro b hb
    rw [bytes_allowedIp h, List.head?_append_of_ne_nil _ hne] at hb
    exact List.mem_of_mem_head? hb
  refine ⟨fun hnil => hnative.plain.1 (List.map_eq_nil_iff.mp hnil), fun hcomma => ?_, fun hminus => ?_,
    fun hplus => ?_, ?_⟩
  · exact (hnative.plain.2 _ (toUInt16_mem hnative.ascii hcomma)).2.1 rfl
  · rcases bytes_addressText hL address (hhead hminus) with h | h | h <;> exact absurd h (by decide)
  · rcases bytes_addressText hL address (hhead hplus) with h | h | h <;> exact absurd h (by decide)
  · rw [bytes_allowedIp h]
    refine parseNetwork_append (fun hslash => ?_) (parseIp_addressText hL address) hcidr
    rcases bytes_addressText hL address hslash with h | h | h <;> exact absurd h (by decide)

end Texts

/-! ## Numbers -/

theorem isHexDigit_digitChar : ∀ d : Fin 16,
    isHexDigit (unit (Nat.digitChar d)).toUInt8 = true ∧
      hexDigitValue (unit (Nat.digitChar d)).toUInt8 = d := by
  decide

theorem foldl_hexDigitValue (n : ℕ) :
    (ascii ((Nat.toDigits 16 n).map unit)).foldl (fun m b => m * 16 + hexDigitValue b) 0 = n := by
  induction n using Nat.strong_induction_on with
  | h n ih =>
    rw [Nat.toDigits_eq_if (by decide)]
    split
    · next hn => exact (Nat.zero_add _).trans (isHexDigit_digitChar ⟨n, hn⟩).2
    · next hn =>
      have hlast := (isHexDigit_digitChar ⟨n % 16, Nat.mod_lt n (by decide)⟩).2
      rw [List.map_append, ascii_append, List.foldl_append,
        ih (n / 16) (Nat.div_lt_self (by omega) (by decide))]
      simp only [ascii, List.map_cons, List.map_nil, List.foldl_cons, List.foldl_nil]
      rw [hlast]
      exact Nat.div_add_mod' n 16

theorem isHexDigit_of_mem {n : ℕ} {b : UInt8} (h : b ∈ ascii ((Nat.toDigits 16 n).map unit)) :
    isHexDigit b = true := by
  simp only [ascii, List.map_map, List.mem_map] at h
  obtain ⟨c, hc, rfl⟩ := h
  obtain ⟨d, rfl⟩ := exists_of_mem_toDigits hc
  exact (isHexDigit_digitChar d).1

/-- `parse_fwmark` reads a printed mark. -/
theorem parseFwmark_hex {n : ℕ} (hn : n < 2 ^ 32) : parseFwmark (ascii (hex n)) = some n := by
  have hread : strtoulHex (ascii (hex n)) = (n, []) := by
    have hall : ∀ b ∈ ascii ((Nat.toDigits 16 n).map unit), isHexDigit b = true := fun b =>
      isHexDigit_of_mem
    have htake := List.takeWhile_eq_self_iff.mpr hall
    have hdrop := List.dropWhile_eq_nil_iff.mpr hall
    have htext : (ascii (hex n)).drop 2 = ascii ((Nat.toDigits 16 n).map unit) := rfl
    have hne : ¬(ascii ((Nat.toDigits 16 n).map unit)).isEmpty = true := by
      rw [List.isEmpty_iff, ascii, List.map_eq_nil_iff, List.map_eq_nil_iff]
      exact Nat.toDigits_ne_nil
    simp only [strtoulHex, htext, htake, hdrop, foldl_hexDigitValue]
    rw [if_neg hne, min_eq_left (by omega)]
  have hlength : (ascii (hex n)).length > 2 := by
    have hpos := List.length_pos_iff.mpr (Nat.toDigits_ne_nil (b := 16) (n := n))
    simp only [hex, ascii, List.length_map, List.length_append, text]
    exact Nat.lt_add_of_pos_right hpos
  have hoff : strcaseeq (ascii (hex n)) (cstring "off") = false := rfl
  have hdigit : startsWithDigit (ascii (hex n)) = true := rfl
  have hzero : ((ascii (hex n)).take 2 == cstring "0x") = true := rfl
  have hlarge : ¬n > 0xFFFFFFFF := by omega
  simp only [parseFwmark, hoff, hdigit, hzero, decide_eq_true hlength, hread]
  simp [hlarge]

/-! ## What is read -/

theorem keyMatch_fwMark {v : Bytes} (hv : v ≠ []) :
    keyMatch (cstring "FwMark" ++ (cstring "=" ++ v)) deviceKeys = some (.fwMark, v) := by
  simp only [cstring_key, String.reduceAppend]
  rw [deviceKeys, keyMatch_cons_of_ne rfl, keyMatch_cons (by decide) hv]

theorem keyMatch_presharedKey {v : Bytes} (hv : v ≠ []) :
    keyMatch (cstring "PresharedKey" ++ (cstring "=" ++ v)) wgPeerKeys = some (.presharedKey, v) := by
  simp only [cstring_key, String.reduceAppend]
  rw [wgPeerKeys, keyMatch_cons_of_ne rfl, keyMatch_cons_of_ne rfl, keyMatch_cons_of_ne rfl,
    keyMatch_cons_of_ne rfl, keyMatch_cons (by decide) hv]

theorem native_nonempty {s : JString} (h : Native s) : ascii s ≠ [] := fun hnil =>
  h.plain.1 (List.map_eq_nil_iff.mp hnil)

/-- The line of an optional attribute of the device, if any, does what its value does. -/
theorem foldlM_deviceLine {L : Libc} {α : Type} {name : String} {f : α → JString} {o : Option α}
    {d r : WgDevice} (hkey : Attribute.IsKey (text name)) (hf : ∀ x ∈ o, Native (f x))
    (hnone : o = none → d = r)
    (hsome : ∀ x ∈ o, ascii (f x) ≠ [] →
      processDevice L d (cstring name ++ (cstring "=" ++ ascii (f x))) = some r) :
    ((Attribute.optLine name (o.map f)).map encode).foldlM (configReadLine L) ⟨d, false, true⟩ =
      some ⟨r, false, true⟩ := by
  cases o with
  | none => exact congrArg (fun d => some (⟨d, false, true⟩ : ConfigCtx)) (hnone rfl)
  | some x =>
    have hx := hf x rfl
    show [encode (Attribute.line name (f x))].foldlM (configReadLine L) _ = _
    rw [List.foldlM_cons, configReadLine_device hkey (Attribute.cleanValue_of_plain hx.plain),
      clean_native hx, hsome x rfl (native_nonempty hx)]
    rfl

theorem mem_nonzero {n m : ℕ} (h : nonzero n = some m) : m = n := by
  unfold nonzero at h
  split_ifs at h
  exact (Option.some.inj h).symm

section Read

variable {L : Libc} (hL : L.Prints N)
include hL

theorem parsePort_decimal {n : ℕ} (hn : n ≤ 65535) : parsePort L (ascii (decimal n)) = some n := by
  obtain ⟨a, hresolved, ha⟩ := hL.service n hn
  rw [parsePort, List.isEmpty_eq_false_iff.mpr (native_nonempty (native_decimal n)),
    if_neg Bool.false_ne_true, hresolved]
  exact ha

theorem foldlM_listenPort {d : WgDevice} {n : ℕ} (hn : n ≤ 65535) (hnone : d.listenPort = none) :
    ((Attribute.optLine "ListenPort" ((nonzero n).map decimal)).map encode).foldlM (configReadLine L)
        ⟨d, false, true⟩ = some ⟨{ d with listenPort := nonzero n }, false, true⟩ := by
  refine foldlM_deviceLine (by decide) (fun m _ => native_decimal m) (fun h => ?_) fun m hm hne => ?_
  · rw [h, ← hnone]
  · rw [processDevice, keyMatch_listenPort hne]
    simp only [parsePort_decimal hL (mem_nonzero hm ▸ hn)]
    rw [hm]
    rfl

omit hL in
theorem foldlM_fwMark {d : WgDevice} {n : ℕ} (hn : n < 2 ^ 32) (hnone : d.fwmark = none) :
    ((Attribute.optLine "FwMark" ((nonzero n).map hex)).map encode).foldlM (configReadLine L)
        ⟨d, false, true⟩ = some ⟨{ d with fwmark := nonzero n }, false, true⟩ := by
  refine foldlM_deviceLine (by decide) (fun m _ => native_hex m) (fun h => ?_) fun m hm hne => ?_
  · rw [h, ← hnone]
  · rw [processDevice, keyMatch_fwMark hne]
    simp only [parseFwmark_hex (mem_nonzero hm ▸ hn)]
    rw [hm]
    rfl

omit hL in
theorem foldlM_privateKey {d : WgDevice} {k : Option Key} (hnone : d.privateKey = none) :
    ((Attribute.optLine "PrivateKey" (k.map Key.toBase64)).map encode).foldlM (configReadLine L)
        ⟨d, false, true⟩ = some ⟨{ d with privateKey := k.map Key.bytes }, false, true⟩ := by
  refine foldlM_deviceLine (by decide) (fun k _ => native_toBase64 k) (fun h => ?_) fun x hx hne => ?_
  · rw [h, Option.map_none, ← hnone]
  · rw [processDevice, keyMatch_privateKey hne]
    simp only [keyFromBase64_toBase64]
    rw [hx]
    rfl

theorem foldlM_deviceLines (d : Device) :
    ((deviceLines d).map encode).foldlM (configReadLine L) ⟨⟨none, none, none, []⟩, false, true⟩ =
      some ⟨{ d.read with peers := [] }, false, true⟩ := by
  have hport : d.listenPort.toNat ≤ 65535 := Nat.le_of_lt_succ d.listenPort.toNat_lt
  rw [deviceLines, List.map_append, List.map_append, List.foldlM_append, List.foldlM_append,
    foldlM_listenPort hL hport rfl, Option.bind_eq_bind, Option.bind_some,
    foldlM_fwMark d.fwmark.toNat_lt rfl, Option.bind_some, foldlM_privateKey rfl]
  rfl

/-! ### Peers -/

omit hL in
theorem parseEndpoint_of_split {value node service : Bytes} {addr : SockAddr}
    (hsplit : splitEndpoint value = some (node, service)) (haddr : addr ≠ .other)
    (hresolved : L.getaddrinfo (some node) service 0 = .resolved addr) :
    parseEndpoint L value = some addr := by
  have hresolve : resolve L node service 0 dnsRetries = .resolved addr := by
    rw [dnsRetries, resolve, hresolved]
  rw [parseEndpoint, hsplit]
  show resolveEndpoint L node service = some addr
  rw [resolveEndpoint, hresolve]
  cases addr with
  | other => exact absurd rfl haddr
  | inet => rfl
  | inet6 => rfl

/-- `parse_endpoint` reads a printed endpoint. -/
theorem parseEndpoint_text {addr : SockAddr} (hport : ∀ n ∈ addr.port, n ≤ 65535) {v : JString}
    (hv : endpointText N addr = some v) : Native v ∧ parseEndpoint L (ascii v) = some addr := by
  have hdigits : ∀ n, byte ':' ∉ ascii (decimal n) := fun n hmem =>
    absurd (isDigit_of_mem_decimal (toUInt16_mem (native_decimal n).ascii hmem)) (by decide)
  have hchars : ∀ (address : IpAddr) n, ∀ c, c ∈ addressText N address ∨ c ∈ decimal n →
      isAlnum c = true ∨ c ∈ text ":./[]" := by
    intro address n c hc
    rcases hc with hc | hc
    · rcases chars_addressText hL address c hc with h | rfl | rfl
      · exact .inl (isAlnum_of_isHex h)
      · exact .inr (by decide)
      · exact .inr (by decide)
    · exact .inl (isAlnum_of_mem_decimal hc)
  cases addr with
  | other => cases hv
  | inet a n =>
    have hn := hport n rfl
    have hhost := native_addressText hL (.inet a)
    obtain rfl : N.inetNtop4 a ++ unit ':' :: decimal n = v :=
      (endpoint_inet hL a hn).symm.trans (Option.some.inj hv)
    constructor
    · refine native_of_chars (List.append_ne_nil_of_left_ne_nil hhost.plain.1 _) fun c hc => ?_
      rcases List.mem_append.mp hc with hc | hc
      · exact hchars (.inet a) n c (.inl hc)
      · rcases List.mem_cons.mp hc with rfl | hc
        · exact .inr (by decide)
        · exact hchars (.inet a) n c (.inr hc)
    · rw [ascii_append]
      refine parseEndpoint_of_split (splitEndpoint_name (fun hhead => ?_) (native_nonempty hhost)
        (native_nonempty (native_decimal n)) (hdigits n)) (by simp) (hL.addr4 a n hn)
      rcases bytes_addressText hL (.inet a) (List.mem_of_mem_head? hhead) with h | h | h <;>
        exact absurd h (by decide)
  | inet6 a n =>
    have hn := hport n rfl
    obtain rfl : unit '[' :: (N.inetNtop6 a ++ unit ']' :: unit ':' :: decimal n) = v :=
      (endpoint_inet6 hL a hn).symm.trans (Option.some.inj hv)
    have hascii : ascii (unit '[' :: (N.inetNtop6 a ++ unit ']' :: unit ':' :: decimal n)) =
        byte '[' :: (ascii (N.inetNtop6 a) ++ byte ']' :: byte ':' :: ascii (decimal n)) := by
      rw [ascii, List.map_cons, List.map_append]
      rfl
    constructor
    · refine native_of_chars (List.cons_ne_nil _ _) fun c hc => ?_
      rcases List.mem_cons.mp hc with rfl | hc
      · exact .inr (by decide)
      · rcases List.mem_append.mp hc with hc | hc
        · exact hchars (.inet6 a) n c (.inl hc)
        · rcases List.mem_cons.mp hc with rfl | hc
          · exact .inr (by decide)
          · rcases List.mem_cons.mp hc with rfl | hc
            · exact .inr (by decide)
            · exact hchars (.inet6 a) n c (.inr hc)
    · rw [hascii]
      refine parseEndpoint_of_split (splitEndpoint_literal (fun hmem => ?_)
        (native_nonempty (native_decimal n))) (by simp) (hL.addr6 a n hn)
      rcases bytes_addressText hL (.inet6 a) hmem with h | h | h <;>
        exact absurd h (by decide)

omit hL in
theorem foldlM_presharedKey {q : WgPeer} {k : Option Key} (hnone : q.presharedKey = none) :
    (Attribute.optLine "PresharedKey" (k.map Key.toBase64)).foldlM (readPeer L) q =
      some { q with presharedKey := k.map Key.bytes } := by
  refine foldlM_optLine (by decide) (fun k _ => native_toBase64 k) (fun h => ?_) fun x hx hne => ?_
  · rw [h, Option.map_none, ← hnone]
  · rw [processPeer, keyMatch_presharedKey hne]
    simp only [keyFromBase64_toBase64]
    rw [hx]
    rfl

theorem foldlM_allowedIpLine {q : WgPeer} {as : List AllowedIp}
    (has : ∀ a ∈ as, ∃ address, a.address = some address ∧ a.cidr.toNat ≤ address.maxCidr)
    (hnil : q.allowedIps = []) (hreplace : q.replaceAllowedIps = true) :
    (Attribute.listLine "AllowedIPs" (as.map (allowedIp N))).foldlM (readPeer L) q =
      some { q with allowedIps := as.filterMap AllowedIp.read } := by
  have hnative : ∀ x ∈ as.map (allowedIp N), Native x := by
    intro x hx
    obtain ⟨a, ha, rfl⟩ := List.mem_map.mp hx
    obtain ⟨address, haddress, -⟩ := has a ha
    exact native_allowedIp hL haddress
  unfold Attribute.listLine
  split
  · next hempty =>
    rw [List.isEmpty_map, List.isEmpty_iff] at hempty
    rw [hempty, List.filterMap_nil, ← hnil]
    rfl
  · next hne =>
    have hne' : as.map (allowedIp N) ≠ [] := fun h => hne (List.isEmpty_iff.mpr h)
    obtain ⟨networks, hreads, hread⟩ : ∃ networks : List (IpAddr × ℕ),
        List.Forall₂ (ReadsAs L) ((as.map (allowedIp N)).map ascii) networks ∧
          networks.map (fun n => (⟨n.1, n.2, false⟩ : WgAndroid.AllowedIp)) =
            as.filterMap AllowedIp.read := by
      clear hnative hne hne'
      induction as with
      | nil => exact ⟨[], .nil, rfl⟩
      | cons a as ih =>
        obtain ⟨address, haddress, hcidr⟩ := has a List.mem_cons_self
        obtain ⟨networks, hreads, hread⟩ := ih fun b hb => has b (List.mem_cons_of_mem a hb)
        refine ⟨(address, a.cidr.toNat) :: networks,
          .cons (readsAs_allowedIp hL haddress hcidr) hreads, ?_⟩
        have ha : a.read = some ⟨address, a.cidr.toNat, false⟩ := by rw [AllowedIp.read, haddress]; rfl
        rw [List.map_cons, hread, List.filterMap_cons_some ha]
    have hvalue := clean_join_ne_nil hne' fun x hx => (hnative x hx).plain
    rw [List.foldlM_cons, readPeer_line (by decide), processPeer, keyMatch_allowedIps hvalue,
      clean_join hnative]
    simp only [parseAllowedips_intercalate hreads (by simpa using hne') q hnil, hread, hreplace]
    rfl

theorem foldlM_endpointLine {q : WgPeer} {addr : SockAddr} (hport : ∀ n ∈ addr.port, n ≤ 65535)
    (hnone : q.endpoint = none) :
    (Attribute.optLine "Endpoint" (endpointText N addr)).foldlM (readPeer L) q =
      some { q with endpoint := readEndpoint addr } := by
  have hread : ∀ v, endpointText N addr = some v → readEndpoint addr = some addr := by
    intro v hv
    cases addr with
    | other => cases hv
    | inet => rfl
    | inet6 => rfl
  rw [← Option.map_id' (x := endpointText N addr)]
  refine foldlM_optLine (by decide) (fun v hv => (parseEndpoint_text hL hport hv).1) (fun h => ?_)
    fun v hv hne => ?_
  · have hother : readEndpoint addr = none := by
      cases addr with
      | other => rfl
      | inet => cases h
      | inet6 => cases h
    rw [hother, ← hnone]
  · rw [processPeer, keyMatch_endpoint hne]
    simp only [(parseEndpoint_text hL hport hv).2, hread v hv]
    rfl

omit hL in
theorem foldlM_keepaliveLine {q : WgPeer} {n : ℕ} (hn : n ≤ 65535)
    (hnone : q.persistentKeepalive = none) :
    (Attribute.optLine "PersistentKeepalive" ((nonzero n).map decimal)).foldlM (readPeer L) q =
      some { q with persistentKeepalive := nonzero n } := by
  refine foldlM_keepalive (fun m hm => ?_) hnone
  have hm' := mem_nonzero hm
  subst hm'
  refine ⟨Nat.pos_of_ne_zero ?_, hn⟩
  rintro rfl
  cases hm

/-- What `config.c` reads from the lines of a peer. -/
theorem foldlM_peerLines {p : Peer} (hp : p.Printable) :
    (peerLines N p).foldlM (readPeer L) .new = some p.read := by
  have hkeepalive := Nat.le_of_lt_succ p.persistentKeepaliveInterval.toNat_lt
  simp only [peerLines, List.foldlM_append, foldlM_publicKey, Option.bind_eq_bind, Option.bind_some]
  rw [foldlM_presharedKey rfl, Option.bind_some, foldlM_allowedIpLine hL hp.allowedIps rfl rfl,
    Option.bind_some, foldlM_endpointLine hL hp.port rfl, Option.bind_some,
    foldlM_keepaliveLine hkeepalive rfl]
  rfl

/-! ### The whole text -/

/-- A line that is printed as it is read. -/
def PrintedLine (l : JString) : Prop := Attribute.CleanLine l ∧ IsAscii l

omit hL in
theorem printedLine {name : String} (hkey : Attribute.IsKey (text name)) {v : JString}
    (hv : Attribute.CleanValue v) (hascii : IsAscii v) : PrintedLine (Attribute.line name v) := by
  have hsep : IsAscii (text " = ") := by decide
  refine ⟨⟨name, v, hkey, hv, rfl⟩, fun c hc => ?_⟩
  simp only [Attribute.line, List.mem_append] at hc
  rcases hc with hc | hc | hc
  · exact (bytes_of_isKey hkey).1 c hc
  · exact hsep c hc
  · exact hascii c hc

omit hL in
theorem printedLine_of_mem_optLine {name : String} (hkey : Attribute.IsKey (text name))
    {o : Option JString} (ho : ∀ v, o = some v → Native v) :
    ∀ l ∈ Attribute.optLine name o, PrintedLine l := by
  intro l hl
  obtain ⟨v, hv, rfl⟩ := Attribute.mem_optLine.mp hl
  exact printedLine hkey (Attribute.cleanValue_of_plain (ho v hv).plain) (ho v hv).ascii

omit hL in
theorem native_map {α : Type} {f : α → JString} (hf : ∀ x, Native (f x)) {o : Option α} {v : JString}
    (h : o.map f = some v) : Native v := by
  obtain ⟨x, -, rfl⟩ := Option.map_eq_some_iff.mp h
  exact hf x

theorem printedLine_of_mem_peerLines {p : Peer} (hp : p.Printable) :
    ∀ l ∈ peerLines N p, PrintedLine l := by
  have hips : ∀ x ∈ p.allowedIps.map (allowedIp N), Native x := by
    intro x hx
    obtain ⟨a, ha, rfl⟩ := List.mem_map.mp hx
    obtain ⟨address, haddress, -⟩ := hp.allowedIps a ha
    exact native_allowedIp hL haddress
  intro l hl
  simp only [peerLines, List.mem_append, List.mem_singleton] at hl
  rcases hl with (((rfl | hl) | hl) | hl) | hl
  · have hkey := native_toBase64 p.publicKey
    exact printedLine (by decide) (Attribute.cleanValue_of_plain hkey.plain) hkey.ascii
  · exact printedLine_of_mem_optLine (by decide) (fun v => native_map native_toBase64) l hl
  · obtain ⟨hne, rfl⟩ := Attribute.mem_listLine.mp hl
    exact printedLine (by decide)
      (Attribute.cleanValue_join_of_plain (fun x hx => (hips x hx).plain) hne) (isAscii_join hips)
  · exact printedLine_of_mem_optLine (by decide)
      (fun v hv => (parseEndpoint_text hL hp.port hv).1) l hl
  · exact printedLine_of_mem_optLine (by decide) (fun v => native_map native_decimal) l hl

omit hL in
theorem printedLine_of_mem_deviceLines (d : Device) : ∀ l ∈ deviceLines d, PrintedLine l := by
  intro l hl
  simp only [deviceLines, List.mem_append] at hl
  rcases hl with (hl | hl) | hl
  · exact printedLine_of_mem_optLine (by decide) (fun v => native_map native_decimal) l hl
  · exact printedLine_of_mem_optLine (by decide) (fun v => native_map native_hex) l hl
  · exact printedLine_of_mem_optLine (by decide) (fun v => native_map native_toBase64) l hl

/-- Every line is a header, empty or an attribute. -/
theorem confLines_cases {d : Device} (hd : ∀ p ∈ d.peers, p.Printable) :
    ∀ l ∈ confLines N d, l = text "[Interface]" ∨ l = text "[Peer]" ∨ l = [] ∨ PrintedLine l := by
  have hpeers : ∀ ps : List Peer, (∀ p ∈ ps, p.Printable) → ∀ l ∈ peersLines N ps,
      l = text "[Peer]" ∨ l = [] ∨ PrintedLine l := by
    intro ps
    induction ps with
    | nil => exact fun _ l hl => absurd hl List.not_mem_nil
    | cons p rest ih =>
      intro hps l hl
      rw [peersLines, List.append_assoc, List.cons_append, List.mem_cons, List.mem_append,
        List.mem_append] at hl
      rcases hl with rfl | hl | hl | hl
      · exact .inl rfl
      · exact .inr (.inr (printedLine_of_mem_peerLines hL (hps p List.mem_cons_self) l hl))
      · split_ifs at hl
        · cases hl
        · exact .inr (.inl (List.mem_singleton.mp hl))
      · exact ih (fun q hq => hps q (List.mem_cons_of_mem p hq)) l hl
  intro l hl
  rw [confLines, List.cons_append, List.mem_cons, List.mem_append, List.mem_cons] at hl
  rcases hl with rfl | hl | rfl | hl
  · exact .inl rfl
  · exact .inr (.inr (.inr (printedLine_of_mem_deviceLines d l hl)))
  · exact .inr (.inr (.inl rfl))
  · exact .inr (hpeers d.peers hd l hl)

theorem getlines_showconf {d : Device} (hd : ∀ p ∈ d.peers, p.Printable) :
    getlines (ascii (showconf N d)) = (confLines N d).map encode := by
  have hinterface : IsAscii (text "[Interface]") := by decide
  have hpeer : IsAscii (text "[Peer]") := by decide
  have hascii : IsAscii (unlines (confLines N d)) := by
    intro c hc
    obtain ⟨l, hl, hc⟩ := List.mem_flatMap.mp hc
    rcases List.mem_append.mp hc with hc | hc
    · rcases confLines_cases hL hd l hl with rfl | rfl | rfl | hline
      · exact hinterface c hc
      · exact hpeer c hc
      · cases hc
      · exact hline.2 c hc
    · cases List.mem_singleton.mp hc
      decide
  rw [showconf_eq hL hd, ← getBytes_of_isAscii hascii]
  refine getlines_unlines fun l hl c hc => ?_
  rcases confLines_cases hL hd l hl with rfl | rfl | rfl | hline
  · exact (by decide : ∀ c ∈ text "[Interface]", isBreak c = false) c hc
  · exact (by decide : ∀ c ∈ text "[Peer]", isBreak c = false) c hc
  · cases hc
  · exact (hline.1.chars c hc).1

theorem foldlM_peersLines {ps : List Peer} (hp : ∀ p ∈ ps, p.Printable) (ctx : ConfigCtx) :
    ∃ ctx', ((peersLines N ps).map encode).foldlM (configReadLine L) ctx = some ctx' ∧
      ctx'.device = { ctx.device with peers := ctx.device.peers ++ ps.map Peer.read } := by
  induction ps generalizing ctx with
  | nil => exact ⟨ctx, rfl, by rw [List.map_nil, List.append_nil]⟩
  | cons p rest ih =>
    have hpp := hp p List.mem_cons_self
    obtain ⟨ctx', hread, hdevice⟩ := ih (fun q hq => hp q (List.mem_cons_of_mem p hq))
      (.inPeer ctx.device p.read)
    have hblank : ((if rest.isEmpty then [] else [[]]).map encode).foldlM (configReadLine L)
        (.inPeer ctx.device p.read) = some (.inPeer ctx.device p.read) := by
      split_ifs <;> rfl
    refine ⟨ctx', ?_, ?_⟩
    · rw [peersLines, List.map_append, List.map_append, List.map_cons, List.foldlM_append,
        List.foldlM_append, List.foldlM_cons, configReadLine_peerHeader]
      simp only [Option.bind_eq_bind, Option.bind_some]
      rw [foldlM_inPeer fun l hl => (printedLine_of_mem_peerLines hL hpp l hl).1,
        foldlM_peerLines hL hpp, Option.map_some, Option.bind_some, hblank, Option.bind_some, hread]
    · rw [hdevice, ConfigCtx.inPeer, List.map_cons]
      simp

/-- What `config.c` reads from the text that `showconf` prints. -/
theorem addconf_showconf {d : Device} (hd : ∀ p ∈ d.peers, p.Printable) :
    addconf L (ascii (showconf N d)) = some d.read := by
  obtain ⟨ctx, hread, hdevice⟩ := foldlM_peersLines hL hd
    ⟨{ d.read with peers := [] }, false, true⟩
  have hheader : configReadLine L .init (encode (text "[Interface]")) =
      some ⟨⟨none, none, none, []⟩, false, true⟩ := rfl
  have hall : (d.peers.map Peer.read).all (fun p => p.publicKey.isSome) = true := by
    simp [Peer.read]
  rw [addconf, getlines_showconf hL hd, confLines, List.map_append, List.map_cons, List.map_cons,
    List.foldlM_append, List.foldlM_cons, hheader]
  simp only [Option.bind_eq_bind, Option.bind_some]
  rw [foldlM_deviceLines hL, Option.bind_some, List.foldlM_cons, configReadLine_blank,
    Option.bind_eq_bind, Option.bind_some, hread, Option.bind_some, configReadFinish, hdevice]
  exact if_pos hall

end Read

end Show

end WgAndroid
