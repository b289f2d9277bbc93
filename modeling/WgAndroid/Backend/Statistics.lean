import WgAndroid.Lib.AssocList
import WgAndroid.Tools.WgConfig

/-!
# Statistics of a tunnel

`wg show NAME dump` prints the device and its peers with tabs between the fields (`dump_print` of
`show.c`), and `WgQuickBackend.getStatistics` reads the lines back. Names of addresses come from the
C library: `Names`.

Results:
1. `dumpPrint_eq`: the printed text is a line of four fields and a line of eight fields per peer.
2. `getStatistics_dump`: the reader finds the peers and nothing else.
-/

namespace WgAndroid

/-! ## wg show dump -/

/-- How the C library prints addresses. `getnameinfo` is called for numbers only; an error is the text
of `gai_strerror`. -/
structure Names where
  inetNtop4 : BitVec 32 → JString
  inetNtop6 : BitVec 128 → JString
  getnameinfo : SockAddr → Except JString (JString × JString)

namespace Show

/-- `struct wgallowedip` as it is printed. Any family other than the two has no address. -/
structure AllowedIp where
  address : Option IpAddr
  cidr : UInt8

/-- `struct wgpeer` as it is printed. A key that a flag announces is an option. -/
structure Peer where
  publicKey : Key
  presharedKey : Option Key
  endpoint : SockAddr
  allowedIps : List AllowedIp
  tvSec : BitVec 64
  rxBytes : UInt64
  txBytes : UInt64
  persistentKeepaliveInterval : UInt16

/-- `struct wgdevice` as it is printed. -/
structure Device where
  name : JString
  privateKey : Option Key
  publicKey : Option Key
  listenPort : UInt16
  fwmark : UInt32
  peers : List Peer

def tab : UInt16 := unit '\t'

def key (k : Key) : JString := widen (keyToBase64 k.bytes)

def maybeKey (k : Option Key) : JString := k.elim (text "(none)") key

def ip (L : Names) (a : AllowedIp) : JString :=
  match a.address with
  | some (.inet addr) => L.inetNtop4 addr
  | some (.inet6 addr) => L.inetNtop6 addr
  | none => []

def isInet6 : SockAddr → Bool
  | .inet6 _ _ => true
  | _ => false

def endpoint (L : Names) (addr : SockAddr) : JString :=
  match L.getnameinfo addr with
  | .error message => message
  | .ok (host, service) =>
    if isInet6 addr && host.contains (unit ':') then
      text "[" ++ host ++ text "]:" ++ service
    else host ++ text ":" ++ service

/-- The field of the endpoint: only two families have one. -/
def endpointField (L : Names) (p : Peer) : JString :=
  match p.endpoint with
  | .other => text "(none)"
  | addr => endpoint L addr

/-- One round of the loop over the allowed IPs, without the character at its end. -/
def allowedIp (L : Names) (a : AllowedIp) : JString := ip L a ++ text "/" ++ decimal a.cidr.toNat

/-- The loop over the allowed IPs: a tab stands after the last one. -/
def allowedIps (L : Names) : List AllowedIp → JString
  | [] => []
  | [a] => allowedIp L a ++ [tab]
  | a :: rest => allowedIp L a ++ text "," ++ allowedIps L rest

/-- `printf("0x%x", n)` -/
def hex (n : Nat) : JString := text "0x" ++ (Nat.toDigits 16 n).map unit

def withName (d : Device) (withInterface : Bool) : JString :=
  if withInterface then d.name ++ [tab] else []

def deviceText (d : Device) (withInterface : Bool) : JString :=
  withName d withInterface ++ maybeKey d.privateKey ++ [tab] ++ maybeKey d.publicKey ++ [tab] ++
    decimal d.listenPort.toNat ++ [tab] ++
    (if d.fwmark ≠ 0 then hex d.fwmark.toNat ++ [LF] else text "off" ++ [LF])

def peerText (L : Names) (d : Device) (withInterface : Bool) (p : Peer) : JString :=
  withName d withInterface ++ key p.publicKey ++ [tab] ++ maybeKey p.presharedKey ++ [tab] ++
    endpointField L p ++ [tab] ++
    (if p.allowedIps.isEmpty then text "(none)" ++ [tab] else allowedIps L p.allowedIps) ++
    decimal p.tvSec.toNat ++ [tab] ++
    decimal p.rxBytes.toNat ++ [tab] ++ decimal p.txBytes.toNat ++ [tab] ++
    (if p.persistentKeepaliveInterval ≠ 0 then
      decimal p.persistentKeepaliveInterval.toNat ++ [LF]
    else text "off" ++ [LF])

def dumpPrint (L : Names) (d : Device) (withInterface : Bool) : JString :=
  deviceText d withInterface ++ d.peers.flatMap (peerText L d withInterface)

end Show

/-! ## The reader -/

/-- `Statistics.PeerStats` -/
structure PeerStats where
  rxBytes : Int
  txBytes : Int
  latestHandshakeEpochMillis : Int
  deriving DecidableEq

/-- The map of `Statistics`. -/
abbrev Statistics := AList fun _ : Key => PeerStats

def Statistics.add (stats : Statistics) (key : Key) (s : PeerStats) : Statistics := stats.insert key s

namespace WgQuickBackend

/-- `line.split("\\t")`: empty pieces at the end are dropped, unless there is no tab at all. -/
def splitTabs (line : JString) : List JString :=
  if line.contains Show.tab then (line.splitOn Show.tab).rdropWhile List.isEmpty else [line]

/-- The product of two `long`s. -/
def longMul (a b : Int) : Int := (a * b).bmod (2 ^ 64)

/-- The entry of a line. What throws is ignored. -/
def statsOfParts : List JString → Option (Key × PeerStats)
  | [publicKey, _, _, _, handshake, rx, tx, _] => do
    let key ← (Key.fromBase64 publicKey).toOption
    let rx ← parseLong rx
    let tx ← parseLong tx
    let handshake ← parseLong handshake
    pure (key, ⟨rx, tx, longMul handshake 1000⟩)
  | _ => none

def addLine (stats : Statistics) (line : JString) : Statistics :=
  match statsOfParts (splitTabs line) with
  | some (key, s) => stats.add key s
  | none => stats

/-- What `rootShell.run` gives: `none` if it threw, else the exit status and the lines. -/
def getStatistics (run : Option (Int × List JString)) : Statistics :=
  match run with
  | none => ∅
  | some (status, output) => if status ≠ 0 then ∅ else output.foldl addLine ∅

end WgQuickBackend

/-! ## Fields -/

namespace Show

/-- A field of a line: it has no tab and no line break in it. -/
def IsField (s : JString) : Prop := ∀ c ∈ s, c ≠ tab ∧ isBreak c = false

instance (s : JString) : Decidable (IsField s) :=
  inferInstanceAs (Decidable (∀ c ∈ s, c ≠ tab ∧ isBreak c = false))

theorem isField_append {s t : JString} : IsField (s ++ t) ↔ IsField s ∧ IsField t :=
  List.forall_mem_append

theorem IsField.append {s t : JString} (hs : IsField s) (ht : IsField t) : IsField (s ++ t) :=
  isField_append.mpr ⟨hs, ht⟩

theorem isField_of_plain {s : JString} (h : Plain s) : IsField s := by
  intro c hc
  have htrim := (h.2 c hc).1
  refine ⟨?_, isBreak_of_isTrim_false htrim⟩
  rintro rfl
  exact absurd htrim (by decide)

theorem isField_decimal (n : Nat) : IsField (decimal n) := isField_of_plain (plain_decimal n)

theorem key_eq (k : Key) : key k = k.toBase64 := by
  rw [key, keyToBase64_eq (Chunked.triples_of_length (n := 10) k.length_eq), widen_encode64, Key.toBase64_eq]

theorem isField_key (k : Key) : IsField (key k) := by
  rw [key_eq]
  exact isField_of_plain (Key.plain_toBase64 k)

theorem isField_maybeKey (k : Option Key) : IsField (maybeKey k) := by
  cases k with
  | none => exact fun c hc => by revert c; decide
  | some k => exact isField_key k

end Show

/-- What is documented of the texts of the C library: addresses and ports in numeric form, and messages
of one line. -/
structure Names.Numeric (L : Names) : Prop where
  inetNtop4 : ∀ a, Show.IsField (L.inetNtop4 a)
  inetNtop6 : ∀ a, Show.IsField (L.inetNtop6 a)
  host : ∀ a h s, L.getnameinfo a = .ok (h, s) → Show.IsField h ∧ Show.IsField s
  message : ∀ a m, L.getnameinfo a = .error m → Show.IsField m

namespace Show

variable {L : Names}

theorem isField_ip (hL : L.Numeric) (a : AllowedIp) : IsField (ip L a) := by
  unfold ip
  split
  · exact hL.inetNtop4 _
  · exact hL.inetNtop6 _
  · exact fun c hc => absurd hc List.not_mem_nil

theorem isField_endpoint (hL : L.Numeric) (addr : SockAddr) : IsField (endpoint L addr) := by
  unfold endpoint
  split
  · next m h => exact hL.message addr m h
  · next host service h =>
    obtain ⟨hhost, hservice⟩ := hL.host addr host service h
    have hopen : IsField (text "[") := by decide
    have hclose : IsField (text "]:") := by decide
    have hcolon : IsField (text ":") := by decide
    split
    · exact ((hopen.append hhost).append hclose).append hservice
    · exact (hhost.append hcolon).append hservice

theorem isField_endpointField (hL : L.Numeric) (p : Peer) : IsField (endpointField L p) := by
  unfold endpointField
  split
  · decide
  · exact isField_endpoint hL _

theorem isField_allowedIp (hL : L.Numeric) (a : AllowedIp) : IsField (allowedIp L a) :=
  ((isField_ip hL a).append (by decide)).append (isField_decimal _)

/-- The field of the allowed IPs. -/
def allowedField (L : Names) (as : List AllowedIp) : JString :=
  if as.isEmpty then text "(none)" else (text ",").intercalate (as.map (allowedIp L))

theorem allowedIps_cons (a : AllowedIp) (rest : List AllowedIp) :
    allowedIps L (a :: rest) =
      (text ",").intercalate ((a :: rest).map (allowedIp L)) ++ [tab] := by
  induction rest generalizing a with
  | nil => simp [allowedIps]
  | cons b rest ih =>
    rw [allowedIps, ih b, List.map_cons (a := a), List.map_cons, List.intercalate_cons_cons]
    · simp
    · exact List.cons_ne_nil b rest

theorem allowedIps_eq (as : List AllowedIp) :
    (if as.isEmpty then text "(none)" ++ [tab] else allowedIps L as) =
      allowedField L as ++ [tab] := by
  cases as with
  | nil => rfl
  | cons a rest => exact allowedIps_cons a rest

theorem isField_allowedField (hL : L.Numeric) (as : List AllowedIp) :
    IsField (allowedField L as) := by
  unfold allowedField
  split
  · decide
  · have hcomma : IsField (text ",") := by decide
    intro c hc
    rcases Delimited.mem_intercalate hc with hc | ⟨s, hs, hc⟩
    · exact hcomma c hc
    · obtain ⟨a, -, rfl⟩ := List.mem_map.mp hs
      exact isField_allowedIp hL a c hc

/-- A line of fields. -/
def line (fields : List JString) : JString := [tab].intercalate fields

def fwmarkField (d : Device) : JString := if d.fwmark ≠ 0 then hex d.fwmark.toNat else text "off"

def deviceFields (d : Device) : List JString :=
  [maybeKey d.privateKey, maybeKey d.publicKey, decimal d.listenPort.toNat, fwmarkField d]

def keepaliveField (p : Peer) : JString :=
  if p.persistentKeepaliveInterval ≠ 0 then decimal p.persistentKeepaliveInterval.toNat
  else text "off"

def peerFields (L : Names) (p : Peer) : List JString :=
  [key p.publicKey, maybeKey p.presharedKey, endpointField L p, allowedField L p.allowedIps,
    decimal p.tvSec.toNat, decimal p.rxBytes.toNat, decimal p.txBytes.toNat, keepaliveField p]

/-- The lines of a dump. -/
def dumpLines (L : Names) (d : Device) : List JString :=
  line (deviceFields d) :: d.peers.map fun p => line (peerFields L p)

theorem deviceText_eq (d : Device) : deviceText d false = line (deviceFields d) ++ [LF] := by
  unfold deviceText line deviceFields fwmarkField
  split <;> simp [withName, List.intercalate, List.intersperse]

theorem peerText_eq (d : Device) (p : Peer) :
    peerText L d false p = line (peerFields L p) ++ [LF] := by
  unfold peerText line peerFields keepaliveField
  rw [allowedIps_eq]
  split <;> simp [withName, List.intercalate, List.intersperse]

/-- The printed text is a line of four fields and a line of eight fields per peer. -/
theorem dumpPrint_eq (d : Device) : dumpPrint L d false = unlines (dumpLines L d) := by
  rw [dumpPrint, dumpLines, unlines, List.flatMap_cons, deviceText_eq, List.flatMap_map]
  exact congrArg _ (List.flatMap_congr fun p _ => peerText_eq d p)

theorem exists_of_mem_toDigits {n : Nat} {c : Char} (h : c ∈ Nat.toDigits 16 n) :
    ∃ d : Fin 16, c = Nat.digitChar d := by
  induction n using Nat.strong_induction_on with
  | h n ih =>
    rw [Nat.toDigits_eq_if (by decide)] at h
    split at h
    · next hn => exact ⟨⟨n, hn⟩, List.mem_singleton.mp h⟩
    · next hn =>
      rcases List.mem_append.mp h with h | h
      · exact ih (n / 16) (Nat.div_lt_self (by omega) (by decide)) h
      · exact ⟨⟨n % 16, Nat.mod_lt n (by decide)⟩, List.mem_singleton.mp h⟩

theorem isField_hex (n : Nat) : IsField (hex n) := by
  have hdigit : ∀ d : Fin 16, unit (Nat.digitChar d) ≠ tab ∧ isBreak (unit (Nat.digitChar d)) = false := by
    decide
  refine IsField.append (by decide) fun c hc => ?_
  obtain ⟨c, hmem, rfl⟩ := List.mem_map.mp hc
  obtain ⟨d, rfl⟩ := exists_of_mem_toDigits hmem
  exact hdigit d

theorem isField_deviceFields (d : Device) : ∀ f ∈ deviceFields d, IsField f := by
  have hfwmark : IsField (fwmarkField d) := by
    unfold fwmarkField
    split
    · exact isField_hex _
    · decide
  simp only [deviceFields, List.forall_mem_cons]
  exact ⟨isField_maybeKey _, isField_maybeKey _, isField_decimal _, hfwmark,
    fun f hf => absurd hf List.not_mem_nil⟩

theorem isField_keepaliveField (p : Peer) : IsField (keepaliveField p) := by
  unfold keepaliveField
  split
  · exact isField_decimal _
  · decide

theorem isField_peerFields (hL : L.Numeric) (p : Peer) : ∀ f ∈ peerFields L p, IsField f := by
  simp only [peerFields, List.forall_mem_cons]
  exact ⟨isField_key _, isField_maybeKey _, isField_endpointField hL p,
    isField_allowedField hL _, isField_decimal _, isField_decimal _, isField_decimal _,
    isField_keepaliveField p, fun f hf => absurd hf List.not_mem_nil⟩

/-- A line of fields has no break in it. -/
theorem line_no_break {fields : List JString} (h : ∀ f ∈ fields, IsField f) :
    ∀ c ∈ line fields, isBreak c = false := by
  intro c hc
  rcases Delimited.mem_intercalate hc with hc | ⟨f, hf, hc⟩
  · rw [List.mem_singleton] at hc
    rw [hc]
    decide
  · exact (h f hf c hc).2

theorem readLines_dumpPrint (hL : L.Numeric) (d : Device) :
    readLines (dumpPrint L d false) = dumpLines L d := by
  rw [dumpPrint_eq]
  refine readLines_unlines fun l hl => ?_
  rcases List.mem_cons.mp hl with rfl | hl
  · exact line_no_break (isField_deviceFields d)
  · obtain ⟨p, -, rfl⟩ := List.mem_map.mp hl
    exact line_no_break (isField_peerFields hL p)

theorem splitOn_line {fields : List JString} (h : ∀ f ∈ fields, IsField f) (hne : fields ≠ []) :
    (line fields).splitOn tab = fields :=
  List.splitOn_intercalate tab (fun f hf hmem => (h f hf tab hmem).1 rfl) hne

end Show

/-! ## Reading the lines -/

namespace WgQuickBackend

open Show

/-- The device line has four fields, so it is never taken for a peer. -/
theorem addLine_device (stats : Statistics) (d : Device) :
    addLine stats (line (deviceFields d)) = stats := by
  have hlength : (splitTabs (line (deviceFields d))).length ≤ 4 := by
    unfold splitTabs
    split
    · rw [splitOn_line (isField_deviceFields d) (List.cons_ne_nil _ _)]
      exact (List.rdropWhile_prefix _ _).length_le
    · exact Nat.succ_le_of_lt (by decide : 0 < 4)
  have hnone : statsOfParts (splitTabs (line (deviceFields d))) = none := by
    unfold statsOfParts
    split
    · next h =>
      rw [h] at hlength
      simp only [List.length_cons, List.length_nil] at hlength
      omega
    · rfl
  rw [addLine, hnone]

/-- What the reader is to find for a peer. -/
def statsOf (p : Show.Peer) : PeerStats :=
  ⟨p.rxBytes.toNat, p.txBytes.toNat, 1000 * p.tvSec.toNat⟩

/-- The bounds under which the numbers of a peer are `long`s. -/
structure Bounded (p : Show.Peer) : Prop where
  rxBytes : p.rxBytes.toNat < 2 ^ 63
  txBytes : p.txBytes.toNat < 2 ^ 63
  handshake : 1000 * p.tvSec.toNat < 2 ^ 63

theorem splitTabs_peer {L : Names} (hL : L.Numeric) (p : Show.Peer) :
    splitTabs (line (peerFields L p)) = peerFields L p := by
  have hsplit := splitOn_line (isField_peerFields hL p) (List.cons_ne_nil _ _)
  have htab : (line (peerFields L p)).contains tab = true := by
    simp [line, peerFields, List.intercalate, List.intersperse]
  have hlast : keepaliveField p ≠ [] := by
    unfold keepaliveField
    split
    · exact decimal_ne_nil _
    · decide
  rw [splitTabs, if_pos htab, hsplit]
  refine List.rdropWhile_eq_self_iff.mpr fun _ => ?_
  simpa [peerFields] using hlast

theorem longMul_handshake {n : Nat} (h : 1000 * n < 2 ^ 63) : longMul n 1000 = 1000 * n := by
  unfold longMul
  rw [Int.mul_comm, Int.bmod_eq_of_le]
  all_goals omega

theorem addLine_peer {L : Names} (hL : L.Numeric) (stats : Statistics) {p : Show.Peer}
    (hp : Bounded p) :
    addLine stats (line (peerFields L p)) = stats.add p.publicKey (statsOf p) := by
  have hseconds : p.tvSec.toNat < 2 ^ 63 := by have := hp.handshake; omega
  have hparts : statsOfParts (peerFields L p) = some (p.publicKey, statsOf p) := by
    rw [peerFields, statsOfParts, key_eq, Key.fromBase64_toBase64, parseLong_decimal hp.rxBytes,
      parseLong_decimal hp.txBytes, parseLong_decimal hseconds]
    simp only [Except.toOption, Option.bind_eq_bind, Option.bind_some, Option.pure_def,
      longMul_handshake hp.handshake]
    rfl
  rw [addLine, splitTabs_peer hL, hparts]

/-- The peers are added one after the other, and nothing else is. -/
theorem getStatistics_eq {L : Names} (hL : L.Numeric) (d : Device) (hd : ∀ p ∈ d.peers, Bounded p) :
    getStatistics (some (0, readLines (dumpPrint L d false))) =
      AssocList.insertAll Show.Peer.publicKey statsOf ∅ d.peers := by
  have hrun : getStatistics (some (0, dumpLines L d)) = (dumpLines L d).foldl addLine ∅ := rfl
  rw [readLines_dumpPrint hL, hrun, dumpLines, List.foldl_cons, addLine_device, List.foldl_map]
  exact List.foldl_ext _ _ _ fun stats p hp => addLine_peer hL stats (hd p hp)

/-- The reader finds every peer of the device and nothing else. Peers with one public key cannot all
have an entry of their own in a map: the last one has. -/
theorem getStatistics_dump {L : Names} (hL : L.Numeric) (d : Device)
    (hd : ∀ p ∈ d.peers, Bounded p) :
    (∀ key, (getStatistics (some (0, readLines (dumpPrint L d false)))).lookup key =
      (d.peers.reverse.find? fun p => p.publicKey = key).map statsOf) ∧
    (d.peers.Pairwise (fun p q => p.publicKey ≠ q.publicKey) →
      (getStatistics (some (0, readLines (dumpPrint L d false)))).entries.Perm
        (d.peers.map fun p => ⟨p.publicKey, statsOf p⟩)) := by
  rw [getStatistics_eq hL d hd]
  constructor
  · intro key
    rw [AssocList.lookup_insertAll, AList.lookup_empty, Option.or_none]
  · intro hdistinct
    have hperm := AssocList.entries_insertAll Show.Peer.publicKey statsOf (s := ∅)
      (fun p _ => AList.notMem_empty p.publicKey) hdistinct
    simpa using hperm

/-- The C library for the addresses of `sampleDevice`. -/
def sampleNames : Names where
  inetNtop4 _ := text "10.0.0.2"
  inetNtop6 _ := text "fd00::2"
  getnameinfo _ := .ok (text "192.0.2.1", text "51820")

def samplePeer (tag : UInt8) (presharedKey : Option Key) (endpoint : SockAddr)
    (allowedIps : List Show.AllowedIp) : Show.Peer where
  publicKey := ⟨List.replicate 32 tag, List.length_replicate⟩
  presharedKey := presharedKey
  endpoint := endpoint
  allowedIps := allowedIps
  tvSec := 1700000000
  rxBytes := 1024
  txBytes := 2048
  persistentKeepaliveInterval := 25

/-- One peer with all its fields, and one with placeholders only. -/
def sampleDevice : Device where
  name := text "wg0"
  privateKey := none
  publicKey := none
  listenPort := 51820
  fwmark := 0
  peers :=
    [samplePeer 1 (some ⟨List.replicate 32 7, List.length_replicate⟩) (.inet 0xC0000201 51820)
      [⟨some (.inet 0x0A000002), 32⟩, ⟨some (.inet6 0xFD000000000000000000000000000002), 128⟩],
    samplePeer 2 none .other []]

theorem sampleNames_numeric : sampleNames.Numeric where
  inetNtop4 _ := by show Show.IsField (text "10.0.0.2"); decide
  inetNtop6 _ := by show Show.IsField (text "fd00::2"); decide
  host _ h s heq := by
    obtain ⟨rfl, rfl⟩ := Prod.mk.inj (Except.ok.inj heq)
    decide
  message _ m heq := by cases heq

theorem getStatistics_sampleDevice :
    (getStatistics (some (0, readLines (dumpPrint sampleNames sampleDevice false)))).entries.Perm
      (sampleDevice.peers.map fun p => ⟨p.publicKey, ⟨1024, 2048, 1700000000000⟩⟩) := by
  have hbounded : ∀ p ∈ sampleDevice.peers, Bounded p := by
    simp only [sampleDevice, List.forall_mem_cons]
    exact ⟨⟨by decide, by decide, by decide⟩, ⟨by decide, by decide, by decide⟩, by simp⟩
  exact (getStatistics_dump sampleNames_numeric sampleDevice hbounded).2 (by decide)

end WgQuickBackend

end WgAndroid
