import WgAndroid.Lib.Checked
import WgAndroid.Tools.Encoding

/-!
# The configuration reader of wg

`config.c`: `config_read_line`, `process_line` and `config_read_finish`, as `wg addconf` calls them.
Addresses are read by `inet_pton` and resolved by `getaddrinfo` of the C library: `Libc`.

Results:
1. `getValue_append`: a key is found whatever its case, with the value that follows it.
2. `parseNetwork_append`, `foldlM_parseAllowedip`: what is read from a list of networks.
3. `processLine_device`, `processLine_inPeer`: what a line that is no header does in its section.
4. `splitEndpoint_name`, `splitEndpoint_literal`: where an endpoint is cut.
-/

namespace WgAndroid

/-! ## The C library -/

inductive SockAddr where
  | inet (addr : BitVec 32) (port : Nat)
  | inet6 (addr : BitVec 128) (port : Nat)
  | other
  deriving DecidableEq

/-- What `getaddrinfo` returns: the first address found, or an error that is permanent
(`EAI_NONAME`, `EAI_FAIL`, `EAI_NODATA`) or may go away. -/
inductive GaiResult where
  | resolved (first : SockAddr)
  | permanent
  | transient
  deriving DecidableEq

structure Libc where
  inetPton4 : Bytes → Option (BitVec 32)
  inetPton6 : Bytes → Option (BitVec 128)
  /-- The node, the service, and how often the same call was made before. -/
  getaddrinfo : Option Bytes → Bytes → Nat → GaiResult

/-! ## The device -/

inductive IpAddr where
  | inet (addr : BitVec 32)
  | inet6 (addr : BitVec 128)
  deriving DecidableEq

def IpAddr.maxCidr : IpAddr → Nat
  | .inet _ => 32
  | .inet6 _ => 128

/-- `struct wgallowedip`; `remove` is the flag `WGALLOWEDIP_REMOVE_ME`. -/
structure AllowedIp where
  address : IpAddr
  cidr : Nat
  remove : Bool
  deriving DecidableEq

/-- `struct wgpeer`. A field that a flag announces is an option, the zeroed endpoint is `none`. -/
structure WgPeer where
  publicKey : Option Bytes
  presharedKey : Option Bytes
  endpoint : Option SockAddr
  persistentKeepalive : Option Nat
  replaceAllowedIps : Bool
  allowedIps : List AllowedIp
  deriving DecidableEq

/-- A peer from `calloc` with the flag that `[Peer]` sets. -/
def WgPeer.new : WgPeer := ⟨none, none, none, none, true, []⟩

/-- `struct wgdevice`, as far as the reader fills it. -/
structure WgDevice where
  privateKey : Option Bytes
  fwmark : Option Nat
  listenPort : Option Nat
  peers : List WgPeer
  deriving DecidableEq

/-- `struct config_ctx`. The last peer is the last of the device, and the last allowed IP is the last
of that peer. -/
structure ConfigCtx where
  device : WgDevice
  isPeerSection : Bool
  isDeviceSection : Bool
  deriving DecidableEq

/-- `config_read_init` with `append`, as for `wg addconf`: no flag is set. -/
def ConfigCtx.init : ConfigCtx := ⟨⟨none, none, none, []⟩, false, false⟩

/-! ## Values -/

/-- `get_value` -/
def getValue (line key : Bytes) : Option Bytes :=
  if key.length ≥ line.length then none
  else if strncaseeq line key key.length then some (line.drop key.length)
  else none

def SockAddr.port : SockAddr → Option Nat
  | .inet _ port => some port
  | .inet6 _ port => some port
  | .other => none

/-- `parse_port` -/
def parsePort (L : Libc) (value : Bytes) : Option Nat :=
  if value.isEmpty then none
  else
    match L.getaddrinfo none value 0 with
    | .resolved a => a.port
    | _ => none

def startsWithDigit (value : Bytes) : Bool := value.head?.any charIsDigit

def isHexDigit (c : UInt8) : Bool :=
  charIsDigit c || (decide (0x61 ≤ tolower c) && decide (tolower c ≤ 0x66))

def hexDigitValue (c : UInt8) : Nat :=
  if charIsDigit c then c.toNat - 0x30 else (tolower c).toNat - 0x57

/-- `strtoul(s, &end, 16)` on a text that starts with `0x`: without a digit after it, only the zero is
read. -/
def strtoulHex (s : Bytes) : Nat × Bytes :=
  let digits := (s.drop 2).takeWhile isHexDigit
  if digits.isEmpty then (0, s.drop 1)
  else (min (digits.foldl (fun n b => n * 16 + hexDigitValue b) 0) (2 ^ 64 - 1),
    (s.drop 2).dropWhile isHexDigit)

/-- `parse_fwmark` -/
def parseFwmark (value : Bytes) : Option Nat :=
  if strcaseeq value (cstring "off") then some 0
  else if !startsWithDigit value then none
  else
    let (ret, rest) :=
      if value.length > 2 && value.take 2 == cstring "0x" then strtoulHex value else strtoul value
    if !rest.isEmpty || ret > 0xFFFFFFFF then none else some ret

/-- `parse_ip` -/
def parseIp (L : Libc) (value : Bytes) : Option IpAddr :=
  if value.contains (byte ':') then (L.inetPton6 value).map .inet6
  else (L.inetPton4 value).map .inet

/-- The node and the service that `parse_endpoint` hands to `getaddrinfo`. -/
def splitEndpoint (value : Bytes) : Option (Bytes × Bytes) :=
  if value.head? = some (byte '[') then
    match value.tail.dropWhile (· != byte ']') with
    | [] => none
    | _ :: rest =>
      if rest.head? = some (byte ':') ∧ rest.tail ≠ [] then
        some (value.tail.takeWhile (· != byte ']'), rest.tail)
      else none
  else if value.contains (byte ':') ∧ value.rtakeWhile (· != byte ':') ≠ [] then
    some ((value.rdropWhile (· != byte ':')).dropLast, value.rtakeWhile (· != byte ':'))
  else none

/-- The loop of `parse_endpoint`, with `retries` left. -/
def resolve (L : Libc) (node service : Bytes) : (attempt retries : Nat) → GaiResult
  | attempt, 0 => L.getaddrinfo (some node) service attempt
  | attempt, retries + 1 =>
    match L.getaddrinfo (some node) service attempt with
    | .transient => resolve L node service (attempt + 1) retries
    | r => r

/-- `parse_dns_retries` without `WG_ENDPOINT_RESOLUTION_RETRIES` in the environment. -/
def dnsRetries : Nat := 15

/-- What `parse_endpoint` stores for a node and a service. -/
def resolveEndpoint (L : Libc) (node service : Bytes) : Option SockAddr :=
  match resolve L node service 0 dnsRetries with
  | .resolved .other => none
  | .resolved a => some a
  | _ => none

/-- `parse_endpoint` -/
def parseEndpoint (L : Libc) (value : Bytes) : Option SockAddr := do
  let (node, service) ← splitEndpoint value
  resolveEndpoint L node service

/-- `parse_persistent_keepalive` -/
def parsePersistentKeepalive (value : Bytes) : Option Nat :=
  if strcaseeq value (cstring "off") then some 0
  else if !startsWithDigit value then none
  else
    let (ret, rest) := strtoul value
    if !rest.isEmpty || ret > 65535 then none else some ret

/-- The prefix length after the slash; without a slash, the longest one. -/
def parseCidr (address : IpAddr) (mask : Option Bytes) : Option Nat :=
  match mask with
  | none => some address.maxCidr
  | some mask =>
    if !startsWithDigit mask then none
    else
      let (cidr, rest) := strtoul mask
      if !rest.isEmpty || cidr > address.maxCidr then none else some cidr

/-- One entry of `parse_allowedips` after its sign: the parts before and after the first slash. -/
def parseNetwork (L : Libc) (entry : Bytes) : Option (IpAddr × Nat) := do
  let address ← parseIp L (entry.takeWhile (· != byte '/'))
  let mask := if entry.contains (byte '/') then some (entry.dropWhile (· != byte '/')).tail else none
  let cidr ← parseCidr address mask
  pure (address, cidr)

/-- One round of the loop of `parse_allowedips`. -/
def parseAllowedip (L : Libc) (peer : WgPeer) (entry : Bytes) : Option WgPeer := do
  let sign := entry.head?
  let signed := sign = some (byte '-') ∨ sign = some (byte '+')
  let (address, cidr) ← parseNetwork L (if signed then entry.tail else entry)
  pure { peer with
    replaceAllowedIps := peer.replaceAllowedIps && !decide signed
    allowedIps := peer.allowedIps ++ [⟨address, cidr, decide (sign = some (byte '-'))⟩] }

/-- `parse_allowedips` -/
def parseAllowedips (L : Libc) (peer : WgPeer) (value : Bytes) : Option WgPeer :=
  let peer := { peer with replaceAllowedIps := true }
  if value.isEmpty then some peer else (value.splitOn (byte ',')).foldlM (parseAllowedip L) peer

/-! ## Lines -/

/-- The chain of `key_match` tests: the first key that the line starts with, and its value. -/
def keyMatch {κ : Type} (line : Bytes) : List (String × κ) → Option (κ × Bytes)
  | [] => none
  | (name, key) :: keys =>
    match getValue line (cstring name) with
    | some value => some (key, value)
    | none => keyMatch line keys

inductive DeviceKey where
  | listenPort
  | fwMark
  | privateKey

def deviceKeys : List (String × DeviceKey) :=
  [("ListenPort=", .listenPort), ("FwMark=", .fwMark), ("PrivateKey=", .privateKey)]

/-- The device section of `process_line`. -/
def processDevice (L : Libc) (device : WgDevice) (line : Bytes) : Option WgDevice :=
  match keyMatch line deviceKeys with
  | some (.listenPort, value) =>
    (parsePort L value).map fun port => { device with listenPort := some port }
  | some (.fwMark, value) =>
    (parseFwmark value).map fun fwmark => { device with fwmark := some fwmark }
  | some (.privateKey, value) =>
    (keyFromBase64 value).map fun key => { device with privateKey := some key }
  | none => none

inductive WgPeerKey where
  | endpoint
  | publicKey
  | allowedIps
  | persistentKeepalive
  | presharedKey

def wgPeerKeys : List (String × WgPeerKey) :=
  [("Endpoint=", .endpoint), ("PublicKey=", .publicKey), ("AllowedIPs=", .allowedIps),
   ("PersistentKeepalive=", .persistentKeepalive), ("PresharedKey=", .presharedKey)]

/-- The peer section of `process_line`. -/
def processPeer (L : Libc) (peer : WgPeer) (line : Bytes) : Option WgPeer :=
  match keyMatch line wgPeerKeys with
  | some (.endpoint, value) =>
    (parseEndpoint L value).map fun endpoint => { peer with endpoint := some endpoint }
  | some (.publicKey, value) =>
    (keyFromBase64 value).map fun key => { peer with publicKey := some key }
  | some (.allowedIps, value) => parseAllowedips L peer value
  | some (.persistentKeepalive, value) =>
    (parsePersistentKeepalive value).map fun i => { peer with persistentKeepalive := some i }
  | some (.presharedKey, value) =>
    (keyFromBase64 value).map fun key => { peer with presharedKey := some key }
  | none => none

/-- `process_line`; `none` is a failure, after which the device is freed. -/
def processLine (L : Libc) (ctx : ConfigCtx) (line : Bytes) : Option ConfigCtx :=
  if strcaseeq line (cstring "[Interface]") then
    some { ctx with isPeerSection := false, isDeviceSection := true }
  else if strcaseeq line (cstring "[Peer]") then
    some ⟨{ ctx.device with peers := ctx.device.peers ++ [.new] }, true, false⟩
  else if ctx.isDeviceSection then do
    let device ← processDevice L ctx.device line
    pure { ctx with device }
  else if ctx.isPeerSection then do
    let peer ← ctx.device.peers.getLast?
    let peer ← processPeer L peer line
    pure { ctx with device := { ctx.device with peers := ctx.device.peers.dropLast ++ [peer] } }
  else none

/-- What `config_read_line` keeps of a line. -/
def cleanInput (input : Bytes) : Bytes :=
  ((cstr input).takeWhile (· != byte '#')).filter fun c => !charIsSpace c

/-- `config_read_line` -/
def configReadLine (L : Libc) (ctx : ConfigCtx) (input : Bytes) : Option ConfigCtx :=
  if (cleanInput input).isEmpty then some ctx else processLine L ctx (cleanInput input)

/-- `config_read_finish` -/
def configReadFinish (ctx : ConfigCtx) : Option WgDevice :=
  if ctx.device.peers.all fun p => p.publicKey.isSome then some ctx.device else none

/-- The reading part of `wg addconf`. -/
def addconf (L : Libc) (file : Bytes) : Option WgDevice := do
  let ctx ← (getlines file).foldlM (configReadLine L) .init
  configReadFinish ctx

/-! ## Keys -/

theorem getValue_append {name key v : Bytes} (h : strcaseeq name key = true) (hv : v ≠ []) :
    getValue (name ++ v) key = some v := by
  have hmap : name.map tolower = key.map tolower := eq_of_beq h
  have hlen : name.length = key.length := by simpa using congrArg List.length hmap
  have hpos := List.length_pos_iff.mpr hv
  rw [getValue, if_neg (by rw [List.length_append]; omega), if_pos, ← hlen, List.drop_left]
  rw [strncaseeq, ← hlen, List.take_left, hlen, List.take_length]
  exact h

theorem getValue_of_ne {line key : Bytes} (h : strncaseeq line key key.length = false) :
    getValue line key = none := by
  rw [getValue, h]
  split <;> rfl

theorem keyMatch_cons_of_ne {κ : Type} {line : Bytes} {name : String} {k : κ}
    {keys : List (String × κ)} (h : strncaseeq line (cstring name) (cstring name).length = false) :
    keyMatch line ((name, k) :: keys) = keyMatch line keys := by
  rw [keyMatch, getValue_of_ne h]

theorem keyMatch_cons {κ : Type} {s v : Bytes} {name : String} {k : κ} {keys : List (String × κ)}
    (h : strcaseeq s (cstring name) = true) (hv : v ≠ []) :
    keyMatch (s ++ v) ((name, k) :: keys) = some (k, v) := by
  rw [keyMatch, getValue_append h hv]

section Keys

variable {v : Bytes} (hv : v ≠ [])
include hv

theorem keyMatch_listenPort :
    keyMatch (cstring "ListenPort" ++ (cstring "=" ++ v)) deviceKeys = some (.listenPort, v) := by
  simp only [cstring_key, String.reduceAppend]
  rw [deviceKeys, keyMatch_cons (by decide) hv]

theorem keyMatch_privateKey :
    keyMatch (cstring "PrivateKey" ++ (cstring "=" ++ v)) deviceKeys = some (.privateKey, v) := by
  simp only [cstring_key, String.reduceAppend]
  rw [deviceKeys, keyMatch_cons_of_ne rfl, keyMatch_cons_of_ne rfl, keyMatch_cons (by decide) hv]

theorem keyMatch_endpoint :
    keyMatch (cstring "Endpoint" ++ (cstring "=" ++ v)) wgPeerKeys = some (.endpoint, v) := by
  simp only [cstring_key, String.reduceAppend]
  rw [wgPeerKeys, keyMatch_cons (by decide) hv]

theorem keyMatch_publicKey :
    keyMatch (cstring "PublicKey" ++ (cstring "=" ++ v)) wgPeerKeys = some (.publicKey, v) := by
  simp only [cstring_key, String.reduceAppend]
  rw [wgPeerKeys, keyMatch_cons_of_ne rfl, keyMatch_cons (by decide) hv]

theorem keyMatch_allowedIps :
    keyMatch (cstring "AllowedIPs" ++ (cstring "=" ++ v)) wgPeerKeys = some (.allowedIps, v) := by
  simp only [cstring_key, String.reduceAppend]
  rw [wgPeerKeys, keyMatch_cons_of_ne rfl, keyMatch_cons_of_ne rfl, keyMatch_cons (by decide) hv]

theorem keyMatch_persistentKeepalive :
    keyMatch (cstring "PersistentKeepalive" ++ (cstring "=" ++ v)) wgPeerKeys =
      some (.persistentKeepalive, v) := by
  simp only [cstring_key, String.reduceAppend]
  rw [wgPeerKeys, keyMatch_cons_of_ne rfl, keyMatch_cons_of_ne rfl, keyMatch_cons_of_ne rfl,
    keyMatch_cons (by decide) hv]

-- The app writes `PreSharedKey`; the case of the letters does not count.
theorem keyMatch_preSharedKey :
    keyMatch (cstring "PreSharedKey" ++ (cstring "=" ++ v)) wgPeerKeys = some (.presharedKey, v) := by
  simp only [cstring_key, String.reduceAppend]
  rw [wgPeerKeys, keyMatch_cons_of_ne rfl, keyMatch_cons_of_ne rfl, keyMatch_cons_of_ne rfl,
    keyMatch_cons_of_ne rfl, keyMatch_cons (by decide) hv]

end Keys

/-! ## Sections -/

/-- The context while the lines of a peer are read, which is the last one so far. -/
def ConfigCtx.inPeer (d : WgDevice) (q : WgPeer) : ConfigCtx :=
  ⟨{ d with peers := d.peers ++ [q] }, true, false⟩

section Sections

variable (L : Libc) {line : Bytes} (hhead : line.head? ≠ some (byte '['))
include hhead

theorem processLine_device (d : WgDevice) : processLine L ⟨d, false, true⟩ line =
    (processDevice L d line).map fun d => ⟨d, false, true⟩ := by
  have hinterface : strcaseeq line (cstring "[Interface]") = false := strcaseeq_bracket hhead
  have hpeer : strcaseeq line (cstring "[Peer]") = false := strcaseeq_bracket hhead
  rw [processLine, hinterface, hpeer]
  cases processDevice L d line <;> rfl

theorem processLine_inPeer (d : WgDevice) (q : WgPeer) :
    processLine L (.inPeer d q) line = (processPeer L q line).map (.inPeer d) := by
  have hinterface : strcaseeq line (cstring "[Interface]") = false := strcaseeq_bracket hhead
  have hpeer : strcaseeq line (cstring "[Peer]") = false := strcaseeq_bracket hhead
  rw [processLine, hinterface, hpeer]
  show (do
    let peer ← (d.peers ++ [q]).getLast?
    let peer ← processPeer L peer line
    pure (⟨{ d with peers := (d.peers ++ [q]).dropLast ++ [peer] }, true, false⟩ : ConfigCtx)) = _
  rw [List.getLast?_concat, List.dropLast_concat]
  show (processPeer L q line).bind _ = _
  cases processPeer L q line <;> rfl

end Sections

/-! ## Values -/

theorem startsWithDigit_decimal (n : Nat) : startsWithDigit (ascii (decimal n)) = true := by
  obtain ⟨c, rest, hc, hdigit⟩ := exists_digit_cons n
  rw [hc]
  exact hdigit

theorem strcaseeq_off_decimal (n : Nat) : strcaseeq (ascii (decimal n)) (cstring "off") = false := by
  obtain ⟨c, rest, hc, hdigit⟩ := exists_digit_cons n
  have hne : tolower c ≠ byte 'o' :=
    forall_byte (p := fun c => charIsDigit c = true → tolower c ≠ byte 'o') (by decide +kernel) c hdigit
  rw [hc, strcaseeq, beq_eq_false_iff_ne]
  intro heq
  exact hne (List.cons.inj heq).1

theorem parsePersistentKeepalive_decimal {n : Nat} (h : n ≤ 65535) :
    parsePersistentKeepalive (ascii (decimal n)) = some n := by
  simp only [parsePersistentKeepalive, strcaseeq_off_decimal, startsWithDigit_decimal,
    strtoul_decimal (by omega : n < 2 ^ 64)]
  simp [h]

theorem IpAddr.maxCidr_le (a : IpAddr) : a.maxCidr ≤ 128 := by
  cases a with
  | inet => exact (by decide : 32 ≤ 128)
  | inet6 => exact (by decide : 128 ≤ 128)

theorem parseCidr_decimal {a : IpAddr} {n : Nat} (h : n ≤ a.maxCidr) :
    parseCidr a (some (ascii (decimal n))) = some n := by
  have := a.maxCidr_le
  simp only [parseCidr, startsWithDigit_decimal, strtoul_decimal (by omega : n < 2 ^ 64)]
  simp [h]

section Network

variable {L : Libc}

/-- An address and a prefix length around a slash. -/
theorem parseNetwork_append {ip : Bytes} {a : IpAddr} {n : Nat} (hslash : byte '/' ∉ ip)
    (ha : parseIp L ip = some a) (hn : n ≤ a.maxCidr) :
    parseNetwork L (ip ++ byte '/' :: ascii (decimal n)) = some (a, n) := by
  obtain ⟨htake, hdrop⟩ := cut_append hslash (ascii (decimal n))
  have hcontains : (ip ++ byte '/' :: ascii (decimal n)).contains (byte '/') = true := by simp
  rw [parseNetwork, htake, ha, hcontains, if_pos rfl, hdrop, List.tail_cons]
  show (parseCidr a _).bind _ = _
  rw [parseCidr_decimal hn]
  rfl

/-- An entry of a list of networks without a sign. -/
structure ReadsAs (L : Libc) (entry : Bytes) (network : IpAddr × Nat) : Prop where
  nonempty : entry ≠ []
  comma : byte ',' ∉ entry
  minus : entry.head? ≠ some (byte '-')
  plus : entry.head? ≠ some (byte '+')
  network : parseNetwork L entry = some network

theorem parseAllowedip_eq {entry : Bytes} {network : IpAddr × Nat} (h : ReadsAs L entry network)
    (peer : WgPeer) :
    parseAllowedip L peer entry =
      some { peer with allowedIps := peer.allowedIps ++ [⟨network.1, network.2, false⟩] } := by
  have hsign : ¬(entry.head? = some (byte '-') ∨ entry.head? = some (byte '+')) :=
    not_or.mpr ⟨h.minus, h.plus⟩
  simp only [parseAllowedip, if_neg hsign, h.network]
  simp [h.minus, h.plus]

theorem foldlM_parseAllowedip {entries : List Bytes} {networks : List (IpAddr × Nat)}
    (h : List.Forall₂ (ReadsAs L) entries networks) (peer : WgPeer) :
    entries.foldlM (parseAllowedip L) peer = some { peer with
      allowedIps := peer.allowedIps ++ networks.map fun n => ⟨n.1, n.2, false⟩ } := by
  induction h generalizing peer with
  | nil => simp
  | @cons entry network entries networks hentry _ ih =>
    rw [List.foldlM_cons, parseAllowedip_eq hentry]
    show entries.foldlM (parseAllowedip L) _ = _
    rw [ih]
    simp

/-- The networks of a list that is separated by commas, each one as it is read. -/
theorem parseAllowedips_intercalate {entries : List Bytes} {networks : List (IpAddr × Nat)}
    (h : List.Forall₂ (ReadsAs L) entries networks) (hne : entries ≠ []) (peer : WgPeer)
    (hnil : peer.allowedIps = []) :
    parseAllowedips L peer ([byte ','].intercalate entries) = some { peer with
      replaceAllowedIps := true, allowedIps := networks.map fun n => ⟨n.1, n.2, false⟩ } := by
  have hentries : ∀ e ∈ entries, e ≠ [] ∧ byte ',' ∉ e := fun e he => by
    obtain ⟨n, _, hn⟩ := Checked.exists_of_mem_left h he
    exact ⟨hn.nonempty, hn.comma⟩
  have hsplit := List.splitOn_intercalate (byte ',') (fun e he => (hentries e he).2) hne
  have hvalue : ([byte ','].intercalate entries).isEmpty = false := by
    rw [List.isEmpty_eq_false_iff]
    intro hempty
    -- an empty text is one empty entry
    rw [hempty, List.splitOn_nil] at hsplit
    exact (hentries [] (hsplit ▸ List.mem_cons_self)).1 rfl
  simp only [parseAllowedips, hvalue, hsplit, foldlM_parseAllowedip h]
  simp [hnil]

end Network

/-! ## Endpoints -/

theorem splitEndpoint_name {host port : Bytes} (hbracket : host.head? ≠ some (byte '['))
    (hne : host ≠ []) (hport : port ≠ []) (hcolon : byte ':' ∉ port) :
    splitEndpoint (host ++ byte ':' :: port) = some (host, port) := by
  have hhead : (host ++ byte ':' :: port).head? ≠ some (byte '[') := by
    rwa [List.head?_append_of_ne_nil _ hne]
  have hp : ∀ c ∈ port.reverse, (c != byte ':') = true := fun c hc =>
    bne_iff_ne.mpr fun h => hcolon (h ▸ List.mem_reverse.mp hc)
  have htake : (host ++ byte ':' :: port).rtakeWhile (· != byte ':') = port := by
    simp only [List.rtakeWhile, List.reverse_append, List.reverse_cons, List.append_assoc,
      List.singleton_append]
    rw [List.takeWhile_append_of_pos hp]
    simp
  have hdrop : ((host ++ byte ':' :: port).rdropWhile (· != byte ':')).dropLast = host := by
    simp only [List.rdropWhile, List.reverse_append, List.reverse_cons, List.append_assoc,
      List.singleton_append]
    rw [List.dropWhile_append_of_pos hp]
    simp
  rw [splitEndpoint, if_neg hhead, htake, hdrop, if_pos ⟨by simp, hport⟩]

theorem splitEndpoint_literal {inner port : Bytes} (hinner : byte ']' ∉ inner) (hport : port ≠ []) :
    splitEndpoint (byte '[' :: (inner ++ byte ']' :: byte ':' :: port)) = some (inner, port) := by
  obtain ⟨htake, hdrop⟩ := cut_append hinner (byte ':' :: port)
  have hhead : (byte '[' :: (inner ++ byte ']' :: byte ':' :: port)).head? = some (byte '[') := rfl
  rw [splitEndpoint, if_pos hhead, List.tail_cons, hdrop, htake]
  exact if_pos ⟨rfl, hport⟩

end WgAndroid
