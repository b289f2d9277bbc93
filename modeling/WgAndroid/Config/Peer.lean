import WgAndroid.Config.Interface

/-!
# The [Peer] section

`com.wireguard.config.Peer` with its builder, parser and printer.

Results:
1. `parsed_of_parse`: what holds of every peer that `parse` returns.
2. `parse_quickLines`: its printed lines give the same peer back.
-/

namespace WgAndroid

open Delimited

/-- `Peer.Builder`. The setter of the interval keeps the range. -/
structure PeerBuilder where
  allowedIps : LinkedSet InetNetwork
  endpoint : Option InetEndpoint
  persistentKeepalive : Option Nat
  preSharedKey : Option Key
  publicKey : Option Key
  keepalive_range : ∀ k ∈ persistentKeepalive, 0 < k ∧ k ≤ 65535

structure Peer where
  allowedIps : LinkedSet InetNetwork
  endpoint : Option InetEndpoint
  persistentKeepalive : Option Nat
  preSharedKey : Option Key
  publicKey : Key
  keepalive_range : ∀ k ∈ persistentKeepalive, 0 < k ∧ k ≤ 65535

namespace PeerBuilder

def init : PeerBuilder := ⟨.empty, none, none, none, none, port_range_none⟩

def parseAllowedIPs (P : Platform) (b : PeerBuilder) (allowedIps : JString) :
    Except BadConfigException PeerBuilder := do
  let networks ← ((Attribute.split allowedIps).mapM (InetNetwork.parse P)).mapError
    (.ofParse .peer .allowedIps)
  pure { b with allowedIps := b.allowedIps.addAll networks }

def parseEndpoint (P : Platform) (b : PeerBuilder) (endpoint : JString) :
    Except BadConfigException PeerBuilder := do
  let e ← (InetEndpoint.parse P endpoint).mapError (.ofParse .peer .endpoint)
  pure { b with endpoint := some e }

def setPersistentKeepalive (b : PeerBuilder) (persistentKeepalive : Int) :
    Except BadConfigException PeerBuilder :=
  if h : persistentKeepalive < 0 ∨ persistentKeepalive > 65535 then
    .error ⟨.peer, .persistentKeepalive, .invalidValue, some (valueOf persistentKeepalive)⟩
  else
    .ok { b with
      persistentKeepalive := positive persistentKeepalive
      keepalive_range := port_range h }

def parsePersistentKeepalive (b : PeerBuilder) (persistentKeepalive : JString) :
    Except BadConfigException PeerBuilder :=
  match parseInt persistentKeepalive with
  | some i => b.setPersistentKeepalive i
  | none => .error (.ofNumberFormat .peer .persistentKeepalive persistentKeepalive)

def parsePreSharedKey (b : PeerBuilder) (preSharedKey : JString) :
    Except BadConfigException PeerBuilder :=
  match Key.fromBase64 preSharedKey with
  | .ok key => .ok { b with preSharedKey := some key }
  | .error _ => .error (.ofKeyFormat .peer .preSharedKey)

def parsePublicKey (b : PeerBuilder) (publicKey : JString) :
    Except BadConfigException PeerBuilder :=
  match Key.fromBase64 publicKey with
  | .ok key => .ok { b with publicKey := some key }
  | .error _ => .error (.ofKeyFormat .peer .publicKey)

def build (b : PeerBuilder) : Except BadConfigException Peer :=
  match b.publicKey with
  | none => .error ⟨.peer, .publicKey, .missingAttribute, none⟩
  | some publicKey => .ok { b with publicKey }

end PeerBuilder

/-- The keys that the `switch` of `Peer.parse` knows. -/
inductive PeerKey where
  | allowedIps
  | endpoint
  | persistentKeepalive
  | preSharedKey
  | publicKey
  deriving DecidableEq

def PeerKey.ofText (key : JString) : Option PeerKey :=
  [(text "allowedips", allowedIps),
   (text "endpoint", endpoint),
   (text "persistentkeepalive", persistentKeepalive),
   (text "presharedkey", preSharedKey),
   (text "publickey", publicKey)].lookup (toLowerCase key)

namespace Peer

/-- The `switch` in the loop of `Peer.parse`. -/
def parseValue (P : Platform) (b : PeerBuilder) (value : JString) :
    PeerKey → Except BadConfigException PeerBuilder
  | .allowedIps => b.parseAllowedIPs P value
  | .endpoint => b.parseEndpoint P value
  | .persistentKeepalive => b.parsePersistentKeepalive value
  | .preSharedKey => b.parsePreSharedKey value
  | .publicKey => b.parsePublicKey value

/-- The body of the loop of `Peer.parse`. -/
def parseLine (P : Platform) (b : PeerBuilder) (line : JString) :
    Except BadConfigException PeerBuilder :=
  match Attribute.parse line with
  | none => .error ⟨.peer, .topLevel, .syntaxError, some line⟩
  | some attr =>
    match PeerKey.ofText attr.key with
    | some key => parseValue P b attr.value key
    | none => .error ⟨.peer, .topLevel, .unknownAttribute, some attr.key⟩

def parse (P : Platform) (lines : List JString) : Except BadConfigException Peer := do
  let b ← lines.foldlM (parseLine P) .init
  b.build

/-- The lines of `toWgQuickString`. -/
def quickLines (P : Platform) (p : Peer) : List JString :=
  Attribute.listLine "AllowedIPs" (p.allowedIps.elems.map (·.toString P)) ++
  (Attribute.optLine "Endpoint" (p.endpoint.map InetEndpoint.toString) ++
  (Attribute.optLine "PersistentKeepalive" (p.persistentKeepalive.map decimal) ++
  (Attribute.optLine "PreSharedKey" (p.preSharedKey.map Key.toBase64) ++
  [Attribute.line "PublicKey" p.publicKey.toBase64])))

def toWgQuickString (P : Platform) (p : Peer) : JString := unlines (p.quickLines P)

/-! ## What a parsed peer looks like -/

open PeerBuilder

/-- A peer that `parse` can return. -/
structure Parsed (P : Platform) (p : Peer) : Prop where
  allowedIps : ∀ n ∈ p.allowedIps.elems, InetNetwork.Parsed P n
  endpoint : ∀ e ∈ p.endpoint, InetEndpoint.Parsed P e

/-- The same for a builder. -/
structure BuilderParsed (P : Platform) (b : PeerBuilder) : Prop where
  allowedIps : ∀ n ∈ b.allowedIps.elems, InetNetwork.Parsed P n
  endpoint : ∀ e ∈ b.endpoint, InetEndpoint.Parsed P e

theorem parseValue_parsed {P : Platform} {b b' : PeerBuilder} {v : JString} {key : PeerKey}
    (hb : BuilderParsed P b) (h : parseValue P b v key = .ok b') : BuilderParsed P b' := by
  cases key with
  | allowedIps =>
    simp only [parseValue, parseAllowedIPs, Checked.bind_eq_ok, Checked.mapError_eq_ok,
      Checked.mapM_eq_ok] at h
    obtain ⟨networks, hn, h⟩ := h
    cases h
    refine ⟨fun n hmem => ?_, hb.endpoint⟩
    rcases LinkedSet.mem_addAll hmem with h | h
    · exact hb.allowedIps n h
    · obtain ⟨s, _, hs⟩ := Checked.exists_of_mem_right hn h
      exact InetNetwork.parsed_of_parse hs
  | endpoint =>
    simp only [parseValue, parseEndpoint, Checked.bind_eq_ok, Checked.mapError_eq_ok] at h
    obtain ⟨e, he, h⟩ := h
    cases h
    refine ⟨hb.allowedIps, fun e' he' => ?_⟩
    cases he'
    exact InetEndpoint.parsed_of_parse he
  | persistentKeepalive =>
    simp only [parseValue, parsePersistentKeepalive, setPersistentKeepalive] at h
    split at h
    · split at h
      · cases h
      · cases h; exact ⟨hb.allowedIps, hb.endpoint⟩
    · cases h
  | preSharedKey =>
    simp only [parseValue, parsePreSharedKey] at h
    split at h
    · cases h; exact ⟨hb.allowedIps, hb.endpoint⟩
    · cases h
  | publicKey =>
    simp only [parseValue, parsePublicKey] at h
    split at h
    · cases h; exact ⟨hb.allowedIps, hb.endpoint⟩
    · cases h

theorem parseLine_parsed {P : Platform} {b b' : PeerBuilder} {line : JString}
    (hb : BuilderParsed P b) (h : parseLine P b line = .ok b') : BuilderParsed P b' := by
  unfold parseLine at h
  split at h
  · cases h
  · split at h
    · exact parseValue_parsed hb h
    · cases h

theorem foldlM_parsed {P : Platform} {b b' : PeerBuilder} {lines : List JString}
    (hb : BuilderParsed P b) (h : lines.foldlM (parseLine P) b = .ok b') : BuilderParsed P b' :=
  Checked.foldlM_invariant (fun b _ b' => BuilderParsed P b → BuilderParsed P b') (fun _ => id)
    (fun hline hrest hb => hrest (parseLine_parsed hb hline)) h hb

/-- What holds of every peer that `parse` returns. -/
theorem parsed_of_parse {P : Platform} {lines : List JString} {p : Peer}
    (h : parse P lines = .ok p) : Parsed P p := by
  simp only [parse, Checked.bind_eq_ok] at h
  obtain ⟨b, hfold, hbuild⟩ := h
  have hb : BuilderParsed P b :=
    foldlM_parsed ⟨by simp [init], by simp [init]⟩ hfold
  unfold build at hbuild
  split at hbuild
  · cases hbuild
  · cases hbuild
    exact ⟨hb.allowedIps, hb.endpoint⟩

/-! ## Printing and parsing back -/

def toBuilder (p : Peer) : PeerBuilder := { p with publicKey := some p.publicKey }

section Lines

variable {P : Platform} {b : PeerBuilder}

theorem parseLine_line {name : String} {k : PeerKey} {v : JString}
    (hkey : Attribute.IsKey (text name)) (hof : PeerKey.ofText (text name) = some k)
    (hv : Attribute.CleanValue v) :
    parseLine P b (Attribute.line name v) = parseValue P b v k := by
  simp [parseLine, Attribute.parse_line hkey hv.isValue, hof]

theorem parseAllowedIPs_join {s : LinkedSet InetNetwork} (hP : P.LawfulAddresses)
    (hb : b.allowedIps = .empty) (h : ∀ n ∈ s.elems, InetNetwork.Parsed P n) (hne : s.elems ≠ []) :
    b.parseAllowedIPs P (Attribute.join (s.elems.map (·.toString P))) = .ok { b with allowedIps := s } := by
  rw [parseAllowedIPs, InetNetwork.mapM_parse_split_join hP h hne, Except.mapError, Checked.ok_bind, hb,
    LinkedSet.addAll_distinct]
  rfl

theorem parseEndpoint_toString {e : InetEndpoint} (hP : P.LawfulUri) (h : InetEndpoint.Parsed P e) :
    b.parseEndpoint P e.toString = .ok { b with endpoint := some e } := by
  rw [parseEndpoint, InetEndpoint.parse_toString hP h]
  rfl

theorem parsePersistentKeepalive_decimal {n : Nat} (h : ∀ k ∈ some n, 0 < k ∧ k ≤ 65535) :
    b.parsePersistentKeepalive (decimal n) =
      .ok { b with persistentKeepalive := some n, keepalive_range := h } := by
  obtain ⟨hpos, hle⟩ := h n rfl
  rw [parsePersistentKeepalive, parseInt_decimal (by omega)]
  simp only [setPersistentKeepalive, positive_natCast hpos]
  rw [dif_neg (by omega)]

theorem parsePreSharedKey_toBase64 {k : Key} :
    b.parsePreSharedKey k.toBase64 = .ok { b with preSharedKey := some k } := by
  rw [parsePreSharedKey, Key.fromBase64_toBase64]

theorem parsePublicKey_toBase64 {k : Key} : b.parsePublicKey k.toBase64 = .ok { b with publicKey := some k } := by
  rw [parsePublicKey, Key.fromBase64_toBase64]

theorem foldlM_allowedIps {s : LinkedSet InetNetwork} (hP : P.LawfulAddresses)
    (hb : b.allowedIps = .empty) (h : ∀ n ∈ s.elems, InetNetwork.Parsed P n) :
    (Attribute.listLine "AllowedIPs" (s.elems.map (·.toString P))).foldlM (parseLine P) b =
      .ok { b with allowedIps := s } := by
  unfold Attribute.listLine
  split
  · next hnil =>
    have hnil' : s.elems = [] := by simpa using hnil
    rw [← LinkedSet.addAll_distinct s, hnil', LinkedSet.addAll_nil, ← hb]
    rfl
  · next hne =>
    have hne' : s.elems ≠ [] := by simpa using hne
    rw [List.foldlM_cons, parseLine_line (k := .allowedIps) (by decide) (by decide)
      (InetNetwork.cleanValue_join hP h hne'), parseValue, parseAllowedIPs_join hP hb h hne']
    rfl

/-- The line of an optional attribute, if any, does what its value does. -/
theorem foldlM_optLine {name : String} {k : PeerKey} {value : Option JString}
    {b' : PeerBuilder} (hkey : Attribute.IsKey (text name))
    (hof : PeerKey.ofText (text name) = some k) (hnone : value = none → b = b')
    (hsome : ∀ v, value = some v → Plain v ∧ parseValue P b v k = .ok b') :
    (Attribute.optLine name value).foldlM (parseLine P) b = .ok b' := by
  cases value with
  | none =>
    rw [hnone rfl]
    rfl
  | some v =>
    obtain ⟨hplain, hparse⟩ := hsome v rfl
    simp only [Attribute.optLine, Option.toList_some, List.map_cons, List.map_nil,
      List.foldlM_cons]
    rw [parseLine_line hkey hof (Attribute.cleanValue_of_plain hplain), hparse]
    rfl

theorem foldlM_endpoint {e : Option InetEndpoint} (hP : P.LawfulUri)
    (h : ∀ x ∈ e, InetEndpoint.Parsed P x) (hb : b.endpoint = none) :
    (Attribute.optLine "Endpoint" (e.map InetEndpoint.toString)).foldlM (parseLine P) b =
      .ok { b with endpoint := e } := by
  refine foldlM_optLine (k := .endpoint) (by decide) (by decide) (fun hnone => ?_) fun v hv => ?_
  · rw [Option.map_eq_none_iff.mp hnone, ← hb]
  · obtain ⟨x, rfl, rfl⟩ := Option.map_eq_some_iff.mp hv
    exact ⟨InetEndpoint.plain_toString hP (h x rfl), parseEndpoint_toString hP (h x rfl)⟩

theorem foldlM_keepalive {k : Option Nat} (h : ∀ n ∈ k, 0 < n ∧ n ≤ 65535)
    (hb : b.persistentKeepalive = none) :
    (Attribute.optLine "PersistentKeepalive" (k.map decimal)).foldlM (parseLine P) b =
      .ok { b with persistentKeepalive := k, keepalive_range := h } := by
  refine foldlM_optLine (k := .persistentKeepalive) (by decide) (by decide) (fun hnone => ?_)
    fun v hv => ?_
  · cases b
    cases hb
    cases Option.map_eq_none_iff.mp hnone
    rfl
  · obtain ⟨n, rfl, rfl⟩ := Option.map_eq_some_iff.mp hv
    exact ⟨plain_decimal n, parsePersistentKeepalive_decimal h⟩

theorem foldlM_preSharedKey {k : Option Key} (hb : b.preSharedKey = none) :
    (Attribute.optLine "PreSharedKey" (k.map Key.toBase64)).foldlM (parseLine P) b =
      .ok { b with preSharedKey := k } := by
  refine foldlM_optLine (k := .preSharedKey) (by decide) (by decide) (fun hnone => ?_)
    fun v hv => ?_
  · rw [Option.map_eq_none_iff.mp hnone, ← hb]
  · obtain ⟨key, rfl, rfl⟩ := Option.map_eq_some_iff.mp hv
    exact ⟨key.plain_toBase64, parsePreSharedKey_toBase64⟩

theorem foldlM_publicKey {k : Key} :
    [Attribute.line "PublicKey" k.toBase64].foldlM (parseLine P) b =
      .ok { b with publicKey := some k } := by
  rw [List.foldlM_cons, parseLine_line (k := .publicKey) (by decide) (by decide)
    (Attribute.cleanValue_of_plain k.plain_toBase64), parseValue, parsePublicKey_toBase64]
  rfl

end Lines

/-- The printed lines of a peer that was parsed give it back. -/
theorem parse_quickLines {P : Platform} (hP : P.LawfulAddresses) (hU : P.LawfulUri) {p : Peer}
    (h : Parsed P p) : parse P (p.quickLines P) = .ok p := by
  have hfold : (p.quickLines P).foldlM (parseLine P) .init = .ok p.toBuilder := by
    simp only [quickLines, List.foldlM_append, Checked.bind_eq_ok]
    exact ⟨_, foldlM_allowedIps hP rfl h.allowedIps, _, foldlM_endpoint hU h.endpoint rfl,
      _, foldlM_keepalive p.keepalive_range rfl, _, foldlM_preSharedKey rfl, foldlM_publicKey⟩
  rw [parse, hfold]
  rfl

theorem cleanLine_of_mem_quickLines {P : Platform} (hP : P.LawfulAddresses) (hU : P.LawfulUri)
    {p : Peer} (h : Parsed P p) {l : JString} (hl : l ∈ p.quickLines P) :
    Attribute.CleanLine l := by
  simp only [quickLines, List.mem_append, List.mem_singleton] at hl
  rcases hl with hl | hl | hl | hl | rfl
  · exact Attribute.cleanLine_of_mem_listLine (by decide)
      (fun hne => InetNetwork.cleanValue_join hP h.allowedIps (by simpa using hne)) hl
  · refine Attribute.cleanLine_of_mem_optLine (by decide) (fun v hv => ?_) hl
    obtain ⟨e, he, rfl⟩ := Option.map_eq_some_iff.mp hv
    exact Attribute.cleanValue_of_plain (InetEndpoint.plain_toString hU (h.endpoint e he))
  · refine Attribute.cleanLine_of_mem_optLine (by decide) (fun v hv => ?_) hl
    obtain ⟨n, _, rfl⟩ := Option.map_eq_some_iff.mp hv
    exact Attribute.cleanValue_of_plain (plain_decimal n)
  · refine Attribute.cleanLine_of_mem_optLine (by decide) (fun v hv => ?_) hl
    obtain ⟨k, _, rfl⟩ := Option.map_eq_some_iff.mp hv
    exact Attribute.cleanValue_of_plain k.plain_toBase64
  · exact ⟨_, _, by decide, Attribute.cleanValue_of_plain p.publicKey.plain_toBase64, rfl⟩

end Peer

end WgAndroid
