import WgAndroid.Config.Coverage
import WgAndroid.Viewmodel.ExcludeSwitch

/-!
# Excluding private addresses

What the switch of a peer does to the networks of the configuration that is saved.

Results:
1. `coveredBy_public_iff`: the table of public networks has exactly the public addresses.
2. `PeerProxy.resolve_excluding`, `PeerProxy.resolve_including`: the networks after the switch.
3. `ConfigProxy.excludes_iff`: when private addresses, and no others, are excluded.
-/

namespace WgAndroid

open Delimited InetNetwork

/-! ## Public addresses -/

def privateNetworks : List InetNetwork := [⟨.inet4 0x0A000000, 8⟩, ⟨.inet4 0xAC100000, 12⟩, ⟨.inet4 0xC0A80000, 16⟩]

/-- An address below 224.0.0.0 that is not a private one. -/
def IsPublic (a : BitVec 32) : Prop := a < 0xE0000000#32 ∧ ∀ n ∈ privateNetworks, ¬ n.covers a

/-- The table of public networks as numbers. -/
def publicBlocks : List (BitVec 32 × Nat) :=
  [(0x00000000, 5), (0x08000000, 7), (0x0B000000, 8), (0x0C000000, 6), (0x10000000, 4), (0x20000000, 3),
    (0x40000000, 2), (0x80000000, 3), (0xA0000000, 5), (0xA8000000, 6), (0xAC000000, 12),
    (0xAC200000, 11), (0xAC400000, 10), (0xAC800000, 9), (0xAD000000, 8), (0xAE000000, 7),
    (0xB0000000, 4), (0xC0000000, 9), (0xC0800000, 11), (0xC0A00000, 13), (0xC0A90000, 16),
    (0xC0AA0000, 15), (0xC0AC0000, 14), (0xC0B00000, 12), (0xC0C00000, 10),
    (0xC1000000, 8), (0xC2000000, 7), (0xC4000000, 6), (0xC8000000, 5), (0xD0000000, 4)]

theorem ipv4PublicNetworks_eq :
    ipv4PublicNetworks = publicBlocks.map fun b => dottedQuad b.1 ++ unit '/' :: decimal b.2 := by
  decide +kernel

theorem mask_of_mem_publicBlocks : ∀ b ∈ publicBlocks, b.2 ≤ 32 := by decide

/-- The networks of the table touch, except where the private ones are. -/
theorem joined_publicBlocks :
    Intervals.joined (publicBlocks.map fun b => block b.1 b.2) =
      [(0, 0x0A000000), (0x0B000000, 0xAC100000), (0xAC200000, 0xC0A80000), (0xC0A90000, 0xE0000000)] := by
  decide

theorem isPublic_iff {a : BitVec 32} :
    IsPublic a ↔ Intervals.Covers
      [(0, 0x0A000000), (0x0B000000, 0xAC100000), (0xAC200000, 0xC0A80000), (0xC0A90000, 0xE0000000)] a.toNat := by
  have hlt : a < 0xE0000000#32 ↔ a.toNat < 0xE0000000 := BitVec.lt_def
  have h10 : block 0x0A000000 8 = (0x0A000000, 0x0B000000) := by decide
  have h172 : block 0xAC100000 12 = (0xAC100000, 0xAC200000) := by decide
  have h192 : block 0xC0A80000 16 = (0xC0A80000, 0xC0A90000) := by decide
  rw [IsPublic, hlt, privateNetworks, List.forall_mem_cons, List.forall_mem_cons, List.forall_mem_singleton,
    covers_inet4_iff, covers_inet4_iff, covers_inet4_iff, h10, h172, h192]
  simp only [Intervals.Covers, List.mem_cons, List.not_mem_nil, or_false, exists_eq_or_imp, exists_eq_left]
  omega

variable {P : Platform}

theorem parse_publicBlock (hP : P.LawfulNumeric) {b : BitVec 32 × Nat} (hb : b ∈ publicBlocks) :
    InetNetwork.parse P (dottedQuad b.1 ++ unit '/' :: decimal b.2) = .ok ⟨.inet4 b.1, b.2⟩ :=
  parse_slash_decimal (hP.dotted b.1) (mask_of_mem_publicBlocks b hb)

theorem parse_public (hP : P.LawfulNumeric) {x : JString} (hx : x ∈ ipv4PublicNetworks) :
    ∃ n, InetNetwork.parse P x = .ok n := by
  rw [ipv4PublicNetworks_eq] at hx
  obtain ⟨b, hb, rfl⟩ := List.mem_map.mp hx
  exact ⟨_, parse_publicBlock hP hb⟩

theorem coveredBy_public_iff (hP : P.LawfulNumeric) {a : BitVec 32} :
    CoveredBy P ipv4PublicNetworks a ↔ IsPublic a := by
  rw [isPublic_iff, ← joined_publicBlocks, Intervals.covers_joined, ipv4PublicNetworks_eq]
  constructor
  · rintro ⟨x, hx, n, hn, ha⟩
    obtain ⟨b, hb, rfl⟩ := List.mem_map.mp hx
    rw [parse_publicBlock hP hb] at hn
    cases hn
    exact ⟨_, List.mem_map_of_mem hb, covers_inet4_iff.mp ha⟩
  · rintro ⟨r, hr, ha⟩
    obtain ⟨b, hb, rfl⟩ := List.mem_map.mp hr
    exact ⟨_, List.mem_map_of_mem hb, _, parse_publicBlock hP hb, covers_inet4_iff.mpr ha⟩

theorem parse_wildcard (hP : P.LawfulNumeric) : InetNetwork.parse P wildcard = .ok ⟨.inet4 0, 0⟩ := by
  have htext : wildcard = dottedQuad 0 ++ unit '/' :: decimal 0 := by decide
  rw [htext]
  exact parse_slash_decimal (hP.dotted 0) (Nat.zero_le _)

/-! ## Saving another text -/

namespace PeerBuilder

def withAllowedIps (b : PeerBuilder) (s : LinkedSet InetNetwork) : PeerBuilder := { b with allowedIps := s }

/-- A field that is parsed without regard to the networks. -/
def Independent (parse : PeerBuilder → JString → Except BadConfigException PeerBuilder) : Prop :=
  ∀ t b b', parse b t = .ok b' →
    b'.allowedIps = b.allowedIps ∧ ∀ s, parse (b.withAllowedIps s) t = .ok (b'.withAllowedIps s)

variable {parse : PeerBuilder → JString → Except BadConfigException PeerBuilder}

theorem Independent.notEmpty (h : Independent parse) : Independent fun b t => parseNotEmpty parse t b := by
  intro t b b' hb
  dsimp only [parseNotEmpty] at hb ⊢
  split at hb
  · next hempty =>
    cases hb
    exact ⟨rfl, fun s => by rw [if_pos hempty]⟩
  · next hempty =>
    simp only [if_neg hempty]
    exact h t b b' hb

theorem independent_parseEndpoint : Independent (parseEndpoint P) := by
  intro t b b' hb
  unfold parseEndpoint at hb ⊢
  cases he : InetEndpoint.parse P t with
  | error e =>
    rw [he] at hb
    cases hb
  | ok e =>
    rw [he] at hb
    cases hb
    exact ⟨rfl, fun s => rfl⟩

theorem independent_parsePersistentKeepalive : Independent parsePersistentKeepalive := by
  intro t b b' hb
  unfold parsePersistentKeepalive at hb ⊢
  cases ht : parseInt t with
  | none =>
    rw [ht] at hb
    cases hb
  | some i =>
    rw [ht] at hb
    dsimp only [setPersistentKeepalive] at hb ⊢
    split at hb
    · cases hb
    · next hi =>
      cases hb
      exact ⟨rfl, fun s => by rw [dif_neg hi]; rfl⟩

theorem independent_parsePreSharedKey : Independent parsePreSharedKey := by
  intro t b b' hb
  unfold parsePreSharedKey at hb ⊢
  cases hk : Key.fromBase64 t with
  | error e =>
    rw [hk] at hb
    cases hb
  | ok key =>
    rw [hk] at hb
    cases hb
    exact ⟨rfl, fun s => rfl⟩

theorem independent_parsePublicKey : Independent parsePublicKey := by
  intro t b b' hb
  unfold parsePublicKey at hb ⊢
  cases hk : Key.fromBase64 t with
  | error e =>
    rw [hk] at hb
    cases hb
  | ok key =>
    rw [hk] at hb
    cases hb
    exact ⟨rfl, fun s => rfl⟩

theorem build_withAllowedIps {b : PeerBuilder} {peer : Peer} (h : b.build = .ok peer) :
    peer.allowedIps = b.allowedIps ∧ ∀ s, (b.withAllowedIps s).build = .ok { peer with allowedIps := s } := by
  unfold build at h
  split at h
  · cases h
  · next key hkey =>
    cases h
    refine ⟨rfl, fun s => ?_⟩
    unfold build withAllowedIps
    rw [hkey]

end PeerBuilder

namespace PeerProxy

/-- `resolve` after the networks. -/
def resolveRest (P : Platform) (p : PeerProxy) (builder : PeerBuilder) : Except BadConfigException Peer := do
  let builder ← parseNotEmpty (PeerBuilder.parseEndpoint P) p.endpoint builder
  let builder ← parseNotEmpty PeerBuilder.parsePersistentKeepalive p.persistentKeepalive builder
  let builder ← parseNotEmpty PeerBuilder.parsePreSharedKey p.preSharedKey builder
  let builder ← parseNotEmpty PeerBuilder.parsePublicKey p.publicKey builder
  builder.build

theorem resolve_eq (p : PeerProxy) :
    p.resolve P = parseNotEmpty (PeerBuilder.parseAllowedIPs P) p.allowedIps .init >>= resolveRest P p := rfl

open PeerBuilder in
theorem resolveRest_withAllowedIps {p : PeerProxy} {b : PeerBuilder} {peer : Peer} (h : resolveRest P p b = .ok peer) :
    peer.allowedIps = b.allowedIps ∧ ∀ s, resolveRest P p (b.withAllowedIps s) = .ok { peer with allowedIps := s } := by
  simp only [resolveRest, Checked.bind_eq_ok] at h ⊢
  obtain ⟨b₁, h₁, b₂, h₂, b₃, h₃, b₄, h₄, h₅⟩ := h
  obtain ⟨e₁, w₁⟩ := independent_parseEndpoint.notEmpty _ _ _ h₁
  obtain ⟨e₂, w₂⟩ := independent_parsePersistentKeepalive.notEmpty _ _ _ h₂
  obtain ⟨e₃, w₃⟩ := independent_parsePreSharedKey.notEmpty _ _ _ h₃
  obtain ⟨e₄, w₄⟩ := independent_parsePublicKey.notEmpty _ _ _ h₄
  obtain ⟨e₅, w₅⟩ := build_withAllowedIps h₅
  exact ⟨by rw [e₅, e₄, e₃, e₂, e₁], fun s => ⟨_, w₁ s, _, w₂ s, _, w₃ s, _, w₄ s, w₅ s⟩⟩

variable {p q : PeerProxy} {peer : Peer}

theorem parseAllowedIps_eq_ok {t : JString} {b : PeerBuilder} (hne : t ≠ []) :
    parseNotEmpty (PeerBuilder.parseAllowedIPs P) t .init = .ok b ↔
      (∀ x ∈ Attribute.split t, ∃ n, InetNetwork.parse P x = .ok n) ∧
        b = PeerBuilder.init.withAllowedIps (networkSet P (Attribute.split t)) := by
  rw [parseNotEmpty_of_ne_nil hne]
  simp only [PeerBuilder.parseAllowedIPs, Checked.bind_eq_ok, Checked.mapError_eq_ok]
  constructor
  · rintro ⟨ns, hns, hb⟩
    cases hb
    refine ⟨fun x hx => ?_, by rw [Checked.mapM_eq_filterMap hns]; rfl⟩
    obtain ⟨n, -, hn⟩ := Checked.exists_of_mem_left (Checked.mapM_eq_ok.mp hns) hx
    exact ⟨n, hn⟩
  · rintro ⟨hparsed, rfl⟩
    obtain ⟨ns, hns⟩ := Checked.exists_mapM_eq_ok hparsed
    exact ⟨ns, hns, by rw [Checked.mapM_eq_filterMap hns]; rfl⟩

/-- The networks of a peer that is saved. -/
theorem parsed_of_resolve (h : p.resolve P = .ok peer) (hne : p.allowedIps ≠ []) :
    (∀ x ∈ Attribute.split p.allowedIps, ∃ n, InetNetwork.parse P x = .ok n) ∧
      peer.allowedIps = networkSet P (Attribute.split p.allowedIps) := by
  rw [resolve_eq, Checked.bind_eq_ok] at h
  obtain ⟨b, hb, hrest⟩ := h
  obtain ⟨hparsed, rfl⟩ := (parseAllowedIps_eq_ok hne).mp hb
  exact ⟨hparsed, (resolveRest_withAllowedIps hrest).1⟩

/-- Another text for the networks changes nothing else. -/
theorem resolve_of_parsed (h : p.resolve P = .ok peer) (hp : p.allowedIps ≠ []) (hrest : q.texts.2 = p.texts.2)
    (hq : q.allowedIps ≠ []) (hparsed : ∀ x ∈ Attribute.split q.allowedIps, ∃ n, InetNetwork.parse P x = .ok n) :
    q.resolve P = .ok { peer with allowedIps := networkSet P (Attribute.split q.allowedIps) } := by
  rw [resolve_eq, Checked.bind_eq_ok] at h ⊢
  obtain ⟨b, hb, hpeer⟩ := h
  obtain ⟨-, rfl⟩ := (parseAllowedIps_eq_ok hp).mp hb
  refine ⟨_, (parseAllowedIps_eq_ok hq).mpr ⟨hparsed, rfl⟩, ?_⟩
  have hsame : resolveRest P q = resolveRest P p := by
    simp only [texts, Prod.mk.injEq] at hrest
    obtain ⟨he, hk, hpre, hpub⟩ := hrest
    unfold resolveRest
    rw [he, hk, hpre, hpub]
  rw [hsame]
  exact (resolveRest_withAllowedIps hpeer).2 _

/-! ## The networks after the switch -/

theorem ne_nil_of_mem_split {t x : JString} (hx : x ∈ Attribute.split t) (hne : x ≠ []) : t ≠ [] := by
  rintro rfl
  exact hne (List.mem_singleton.mp hx)

theorem public_no_colon : ∀ x ∈ ipv4PublicNetworks, hasColon x = false := by decide

theorem route_no_colon {dns : JString} : ∀ r ∈ newDnsRoutes dns, hasColon r = false := by
  intro r hr
  obtain ⟨server, hserver, rfl⟩ := List.mem_map.mp hr
  have hserver : hasColon server = false := Bool.not_eq_true' _ |>.mp (List.mem_filter.mp hserver).2
  rw [hasColon, List.contains_append, ← hasColon, hserver]
  rfl

theorem filter_hasColon {q : JString → Bool} {xs : List JString} (h : ∀ x ∈ xs, q x = false → hasColon x = false) :
    (xs.filter q).filter hasColon = xs.filter hasColon := by
  rw [List.filter_filter]
  refine List.filter_congr fun x hx => ?_
  cases hq : q x with
  | false => rw [h x hx hq, Bool.false_and]
  | true => rw [Bool.and_true]

/-- The networks that are listed besides `0.0.0.0/0`. -/
def others (p : PeerProxy) : List JString := (Attribute.split p.allowedIps).filter (· != wildcard)

section Lists

variable {A B : List JString} (hP : P.LawfulNumeric)

theorem mem_others_iff (hsplit : (Attribute.split p.allowedIps).eraseDups = A ++ wildcard :: B) (hA : wildcard ∉ A)
    (hB : wildcard ∉ B) {x : JString} : x ∈ p.others ↔ x ∈ A ∨ x ∈ B := by
  rw [others, List.mem_filter, mem_split_iff hsplit, bne_iff_ne]
  constructor
  · rintro ⟨hx | hx | hx, hne⟩
    · exact .inl hx
    · exact absurd hx hne
    · exact .inr hx
  · rintro (hx | hx)
    · exact ⟨.inl hx, fun heq => hA (heq ▸ hx)⟩
    · exact ⟨.inr (.inr hx), fun heq => hB (heq ▸ hx)⟩

include hP

theorem ipv6_excluded (hsplit : (Attribute.split p.allowedIps).eraseDups = A ++ wildcard :: B)
    (hroutes : ∀ r ∈ p.dnsRoutes, hasColon r = false) :
    ipv6 (networkSet P (p.excluded A B)) = ipv6 (networkSet P (Attribute.split p.allowedIps)) := by
  have hpublic : ipv4PublicNetworks.filter hasColon = [] := by
    rw [List.filter_eq_nil_iff]
    exact fun x hx => Bool.not_eq_true _ ▸ public_no_colon x hx
  have hnone : p.dnsRoutes.filter hasColon = [] := by
    rw [List.filter_eq_nil_iff]
    exact fun x hx => Bool.not_eq_true _ ▸ hroutes x hx
  rw [← networkSet_eraseDups (Attribute.split p.allowedIps), hsplit, excluded, networkSet_eraseDups]
  refine ipv6_congr hP ?_
  rw [List.filter_append, List.filter_append, List.filter_append, hpublic, hnone, List.append_nil, List.append_nil,
    List.filter_append, List.filter_cons_of_neg (by decide)]

theorem ipv6_included {o : JString} (hsplit : (Attribute.split p.allowedIps).eraseDups = A ++ o :: B)
    (ho : o ∈ ipv4PublicNetworks) (hroutes : ∀ r ∈ p.dnsRoutes, hasColon r = false) :
    ipv6 (networkSet P (p.included A B)) = ipv6 (networkSet P (Attribute.split p.allowedIps)) := by
  rw [← networkSet_eraseDups (Attribute.split p.allowedIps), hsplit, included, ipv6_congr hP (filter_hasColon ?_),
    networkSet_eraseDups]
  · refine ipv6_congr hP ?_
    rw [List.filter_append, List.filter_append, List.filter_cons_of_neg (by decide),
      List.filter_cons_of_neg (by rw [public_no_colon o ho]; decide), filter_hasColon]
    intro x _ hx
    exact public_no_colon x (by simpa using hx)
  · intro x _ hx
    exact hroutes x (by simpa using hx)

end Lists

section Switch

variable (hP : P.LawfulNumeric) (hpeer : p.resolve P = .ok peer)
include hpeer

/-- Saving a list of networks that no blanks get lost from. -/
theorem resolve_join {L : List JString} (hne : p.allowedIps ≠ []) (hrest : q.texts.2 = p.texts.2)
    (htext : q.allowedIps = Attribute.join L) (hL : L ≠ [])
    (hpieces : ∀ x ∈ L, x ≠ [] ∧ unit ',' ∉ x ∧ Stripped isSpace x) :
    ((∃ peer', q.resolve P = .ok peer') ↔ ∀ x ∈ L, ∃ n, InetNetwork.parse P x = .ok n) ∧
      ∀ peer', q.resolve P = .ok peer' → peer'.allowedIps = networkSet P L := by
  have hsplit : Attribute.split q.allowedIps = L := by
    rw [htext, Attribute.split_join (Attribute.splittable_of_pieces hpieces) hL]
  obtain ⟨x, hx⟩ := List.exists_mem_of_ne_nil L hL
  have hq : q.allowedIps ≠ [] := ne_nil_of_mem_split (hsplit ▸ hx) (hpieces x hx).1
  rw [← hsplit]
  refine ⟨⟨?_, fun hparsed => ⟨_, resolve_of_parsed hpeer hne hrest hq hparsed⟩⟩, ?_⟩
  · rintro ⟨peer', hpeer'⟩
    exact (parsed_of_resolve hpeer' hq).1
  · intro peer' hpeer'
    exact (parsed_of_resolve hpeer' hq).2

include hP

/-- The parts of a text that can be saved have no blanks at their ends. -/
theorem piece_facts (hne : p.allowedIps ≠ []) {x : JString} (hx : x ∈ Attribute.split p.allowedIps) :
    x ≠ [] ∧ unit ',' ∉ x ∧ Stripped isSpace x := by
  obtain ⟨n, hn⟩ := (parsed_of_resolve hpeer hne).1 x hx
  obtain ⟨hx_ne, hstripped⟩ := stripped_of_parse hP hn
  exact ⟨hx_ne, sep_not_mem_piece hx, hstripped⟩

variable {dns : JString} {k : Nat} (hb : p.Bound dns k)
include hb

/-- After private addresses are included again, all addresses are there. -/
theorem resolve_including (hstate : p.allowedIpsState = .containsIpv4PublicNetworks) :
    ∃ peer', (p.setExcludingPrivateIps false).resolve P = .ok peer' ∧
      (∀ a, ∃ n ∈ peer'.allowedIps.elems, n.covers a) ∧ ipv6 peer'.allowedIps = ipv6 peer.allowedIps := by
  have hfirst := (hb.public_listed hstate).2 _ List.mem_cons_self
  have hne := ne_nil_of_mem_split hfirst (public_facts _ List.mem_cons_self).1
  obtain ⟨hparsed, hset⟩ := parsed_of_resolve hpeer hne
  obtain ⟨A, o, B, hsplit, hA, ho, htext⟩ := excludingText_false List.mem_cons_self hfirst
  have hw : wildcard ∈ p.included A B := wildcard_mem_included hb.wildcard_no_route
  have hq : p.setExcludingPrivateIps false = { p.setAllowedIps (p.excludingText false) with
      allowedIpsState := .containsIpv4Wildcard } := by
    rcases setExcludingPrivateIps_cases (p := p) false with ⟨-, hne⟩ | ⟨-, hset⟩
    · exact absurd hstate hne
    · exact hset
  have hpieces : ∀ x ∈ p.included A B, x ≠ [] ∧ unit ',' ∉ x ∧ Stripped isSpace x := by
    intro x hx
    rcases mem_of_mem_included hsplit hx with rfl | hx
    · exact ⟨wildcard_facts.1, wildcard_facts.2.1, wildcard_facts.2.2.1⟩
    · exact piece_facts hP hpeer hne hx
  have hsaved := resolve_join hpeer (q := p.setExcludingPrivateIps false) hne (hq ▸ rfl) (hq ▸ htext)
    (List.ne_nil_of_mem hw) hpieces
  obtain ⟨peer', hpeer'⟩ := hsaved.1.mpr fun x hx => by
    rcases mem_of_mem_included hsplit hx with rfl | hx
    · exact ⟨_, parse_wildcard hP⟩
    · exact hparsed x hx
  refine ⟨peer', hpeer', fun a => ?_, ?_⟩
  · rw [hsaved.2 peer' hpeer', covers_networkSet_iff]
    exact ⟨wildcard, hw, _, parse_wildcard hP, covers_all a⟩
  · rw [hsaved.2 peer' hpeer', hset, ipv6_included hP hsplit ho (hb.dnsRoutes ▸ route_no_colon)]

/-- The switch to exclude private addresses leaves a text that can be saved exactly if the routes to the DNS
servers can, and then exactly these routes are added to the public addresses and the other networks. -/
theorem resolve_excluding (hstate : p.allowedIpsState = .containsIpv4Wildcard)
    (hroutes : ∀ r ∈ p.dnsRoutes, Stripped isSpace r) :
    ((∃ peer', (p.setExcludingPrivateIps true).resolve P = .ok peer') ↔
        ∀ r ∈ p.dnsRoutes, ∃ n, InetNetwork.parse P r = .ok n) ∧
      ∀ peer', (p.setExcludingPrivateIps true).resolve P = .ok peer' →
        (∀ a, (∃ n ∈ peer'.allowedIps.elems, n.covers a) ↔
          IsPublic a ∨ CoveredBy P p.dnsRoutes a ∨ CoveredBy P p.others a) ∧
        ipv6 peer'.allowedIps = ipv6 peer.allowedIps := by
  have hw := (hb.wildcard_listed hstate).2
  have hne := ne_nil_of_mem_split hw wildcard_facts.1
  obtain ⟨hparsed, hset⟩ := parsed_of_resolve hpeer hne
  obtain ⟨A, B, hsplit, hA, hB, htext⟩ := excludingText_true hw
  have hold : ∀ x, x ∈ A ∨ x ∈ B → x ∈ Attribute.split p.allowedIps := fun x hx =>
    (mem_split_iff hsplit).mpr (hx.imp_right .inr)
  have hq : p.setExcludingPrivateIps true = { p.setAllowedIps (p.excludingText true) with
      allowedIpsState := .containsIpv4PublicNetworks } := by
    rcases setExcludingPrivateIps_cases (p := p) true with ⟨-, hne⟩ | ⟨-, hset⟩
    · exact absurd hstate hne
    · exact hset
  have hpieces : ∀ x ∈ p.excluded A B, x ≠ [] ∧ unit ',' ∉ x ∧ Stripped isSpace x := by
    intro x hx
    rcases mem_excluded.mp hx with ((hx | hx) | hx) | hx
    · exact piece_facts hP hpeer hne (hold x (.inl hx))
    · exact ⟨(public_facts x hx).1, (public_facts x hx).2.1, (public_facts x hx).2.2.1⟩
    · exact piece_facts hP hpeer hne (hold x (.inr hx))
    · obtain ⟨hcomma, hsuffix⟩ := routes_facts x (hb.dnsRoutes ▸ hx)
      exact ⟨hsuffix.ne_nil (by decide), hcomma, hroutes x hx⟩
  have hsaved := resolve_join hpeer (q := p.setExcludingPrivateIps true) hne (hq ▸ rfl) (hq ▸ htext)
    (List.ne_nil_of_mem (mem_excluded.mpr (.inl (.inl (.inr List.mem_cons_self))))) hpieces
  refine ⟨hsaved.1.trans ⟨fun hall r hr => hall r (mem_excluded.mpr (.inr hr)), fun hall x hx => ?_⟩, ?_⟩
  · rcases mem_excluded.mp hx with ((hx | hx) | hx) | hx
    · exact hparsed x (hold x (.inl hx))
    · exact parse_public hP hx
    · exact hparsed x (hold x (.inr hx))
    · exact hall x hx
  · intro peer' hpeer'
    rw [hsaved.2 peer' hpeer', hset]
    refine ⟨fun a => ?_, ipv6_excluded hP hsplit (hb.dnsRoutes ▸ route_no_colon)⟩
    rw [covers_networkSet_iff, ← coveredBy_public_iff hP, ← coveredBy_append, ← coveredBy_append]
    refine coveredBy_congr fun x => ?_
    rw [mem_excluded, List.mem_append, List.mem_append, mem_others_iff hsplit hA hB]
    tauto

end Switch

end PeerProxy

/-! ## DNS servers -/

namespace InterfaceBuilder

/-- A field that is parsed without regard to the DNS servers. -/
def KeepsDns (parse : InterfaceBuilder → JString → Except BadConfigException InterfaceBuilder) : Prop :=
  ∀ t b b', parse b t = .ok b' → b'.dnsServers = b.dnsServers

theorem KeepsDns.notEmpty {parse : InterfaceBuilder → JString → Except BadConfigException InterfaceBuilder}
    (h : KeepsDns parse) : KeepsDns fun b t => parseNotEmpty parse t b := by
  intro t b b' hb
  dsimp only [parseNotEmpty] at hb
  split at hb
  · cases hb
    rfl
  · exact h t b b' hb

theorem keepsDns_parseAddresses : KeepsDns (parseAddresses P) := by
  intro t b b' hb
  simp only [parseAddresses, Checked.bind_eq_ok] at hb
  obtain ⟨networks, -, hb⟩ := hb
  cases hb
  rfl

theorem keepsDns_parseListenPort : KeepsDns parseListenPort := by
  intro t b b' hb
  unfold parseListenPort at hb
  split at hb
  · exact congrArg (·.2.1) (Interface.setListenPort_sets hb)
  · cases hb

theorem keepsDns_parseMtu : KeepsDns parseMtu := fun _ _ _ hb => congrArg (·.2.1) (Interface.parseMtu_sets hb)

theorem keepsDns_parsePrivateKey : KeepsDns parsePrivateKey := by
  intro t b b' hb
  unfold parsePrivateKey at hb
  split at hb
  · cases hb
    rfl
  · cases hb

end InterfaceBuilder

namespace InterfaceProxy

variable {q : InterfaceProxy} {i : Interface}

open InterfaceBuilder in
/-- The DNS servers come from the entries of the text. -/
theorem dns_of_resolve (h : q.resolve P = .ok i) :
    (q.dnsServers = [] ∧ i.dnsServers = .empty) ∨ ∃ entries,
      List.Forall₂ (fun s e => parseDnsServer P s = .ok e) (Attribute.split q.dnsServers) entries ∧
        i.dnsServers = LinkedSet.empty.addAll (entries.filterMap Sum.getLeft?) := by
  simp only [resolve, Checked.bind_eq_ok] at h
  obtain ⟨b₁, h₁, b₂, h₂, b₃, h₃, b₄, h₄, b₅, h₅, h₆⟩ := h
  have hempty : b₁.dnsServers = .empty := keepsDns_parseAddresses.notEmpty _ _ _ h₁
  have hi : i.dnsServers = b₂.dnsServers := by
    have hbuild : b₅.dnsServers = i.dnsServers := congrArg (·.2.1) (Interface.build_eq_ok h₆)
    rw [← hbuild, keepsDns_parsePrivateKey.notEmpty _ _ _ h₅, keepsDns_parseMtu.notEmpty _ _ _ h₄,
      keepsDns_parseListenPort.notEmpty _ _ _ h₃]
    split <;> split <;> rfl
  rw [hi]
  by_cases hdns : q.dnsServers = []
  · rw [hdns, parseNotEmpty_nil] at h₂
    cases h₂
    exact .inl ⟨hdns, hempty⟩
  · rw [parseNotEmpty_of_ne_nil hdns] at h₂
    simp only [parseDnsServers, wrap, Checked.bind_eq_ok, Checked.mapError_eq_ok, Checked.mapM_eq_ok] at h₂
    obtain ⟨entries, hentries, hb₂⟩ := h₂
    cases hb₂
    exact .inr ⟨entries, hentries, by rw [hempty]⟩

/-- The IPv4 servers are the entries that are IPv4 addresses. -/
theorem inet4_mem_dnsServers_iff (h : q.resolve P = .ok i) {a : BitVec 32} :
    .inet4 a ∈ i.dnsServers.elems ↔ ∃ s ∈ Attribute.split q.dnsServers, InetAddresses.parse P s = .ok (.inet4 a) := by
  rcases dns_of_resolve h with ⟨hdns, hi⟩ | ⟨entries, hentries, hi⟩
  · rw [hdns, hi]
    refine iff_of_false List.not_mem_nil ?_
    rintro ⟨s, hs, hparse⟩
    exact InetAddresses.parse_ne_nil hparse (List.mem_singleton.mp hs)
  · rw [hi]
    constructor
    · intro ha
      obtain ⟨e, he, hleft⟩ := List.mem_filterMap.mp (LinkedSet.mem_of_mem_addAll_empty ha)
      obtain ⟨s, hs, hse⟩ := Checked.exists_of_mem_right hentries he
      rw [Sum.getLeft?_eq_some_iff.mp hleft] at hse
      exact ⟨s, hs, Interface.parseDnsServer_inl.mp hse⟩
    · rintro ⟨s, hs, hparse⟩
      obtain ⟨e, he, hse⟩ := Checked.exists_of_mem_left hentries hs
      rw [Interface.parseDnsServer_inl.mpr hparse] at hse
      cases hse
      have hmem : InetAddress.inet4 a ∈ entries.filterMap Sum.getLeft? := List.mem_filterMap.mpr ⟨_, he, rfl⟩
      obtain ⟨y, hy, heq⟩ := List.any_eq_true.mp (LinkedSet.contains_of_mem (s := .empty) hmem)
      have heq : y = .inet4 a := by
        cases y with
        | inet4 b => exact congrArg _ (eq_of_beq heq)
        | inet6 b zone => cases heq
      exact heq ▸ hy

/-- The entries of a text that can be saved: none, addresses, or host names. -/
theorem entry_of_resolve (h : q.resolve P = .ok i) {s : JString} (hs : s ∈ Attribute.split q.dnsServers) :
    s = [] ∨ (∃ a, InetAddresses.parse P s = .ok a) ∨ InetAddresses.isHostname s = true := by
  rcases dns_of_resolve h with ⟨hdns, -⟩ | ⟨entries, hentries, -⟩
  · rw [hdns] at hs
    exact .inl (List.mem_singleton.mp hs)
  · obtain ⟨e, -, he⟩ := Checked.exists_of_mem_left hentries hs
    cases e with
    | inl a => exact .inr (.inl ⟨a, Interface.parseDnsServer_inl.mp he⟩)
    | inr d =>
      obtain ⟨rfl, hhost⟩ := Interface.parseDnsServer_inr he
      exact .inr (.inr hhost)

end InterfaceProxy

section Routes

variable {dns : JString}

/-- A route is the address of an IPv4 server. -/
theorem parse_route_iff (hP : P.LawfulNumeric) {s : JString} (hs : hasColon s = false) {n : InetNetwork} :
    InetNetwork.parse P (s ++ text "/32") = .ok n ↔
      ∃ a, InetAddresses.parse P s = .ok (.inet4 a) ∧ n = ⟨.inet4 a, 32⟩ := by
  have htext : text "/32" = unit '/' :: decimal 32 := by decide
  rw [htext, parse_slash_decimal_iff (by decide)]
  constructor
  · rintro ⟨a, ha, -, rfl⟩
    cases a with
    | inet4 a => exact ⟨a, ha, rfl⟩
    | inet6 a zone => exact absurd (List.contains_iff_mem.mpr (hP.colon s a zone ha)) (Bool.eq_false_iff.mp hs)
  · rintro ⟨a, ha, rfl⟩
    exact ⟨_, ha, Nat.le_refl 32, rfl⟩

theorem mem_newDnsRoutes {r : JString} :
    r ∈ PeerProxy.newDnsRoutes dns ↔ ∃ s ∈ Attribute.split dns, hasColon s = false ∧ r = s ++ text "/32" := by
  simp only [PeerProxy.newDnsRoutes, List.mem_map, List.mem_filter, Bool.not_eq_true', and_assoc, eq_comm (a := r)]
  rfl

theorem routes_parsed_iff (hP : P.LawfulNumeric) :
    (∀ r ∈ PeerProxy.newDnsRoutes dns, ∃ n, InetNetwork.parse P r = .ok n) ↔
      ∀ s ∈ Attribute.split dns, hasColon s = false → ∃ a, InetAddresses.parse P s = .ok a := by
  constructor
  · intro h s hs hcolon
    obtain ⟨n, hn⟩ := h _ (mem_newDnsRoutes.mpr ⟨s, hs, hcolon, rfl⟩)
    obtain ⟨a, ha, -⟩ := (parse_route_iff hP hcolon).mp hn
    exact ⟨_, ha⟩
  · intro h r hr
    obtain ⟨s, hs, hcolon, rfl⟩ := mem_newDnsRoutes.mp hr
    obtain ⟨a, ha⟩ := h s hs hcolon
    cases a with
    | inet4 a => exact ⟨_, (parse_route_iff hP hcolon).mpr ⟨a, ha, rfl⟩⟩
    | inet6 a zone => exact absurd (List.contains_iff_mem.mpr (hP.colon s a zone ha)) (Bool.eq_false_iff.mp hcolon)

theorem coveredBy_routes_iff (hP : P.LawfulNumeric) {a : BitVec 32} :
    CoveredBy P (PeerProxy.newDnsRoutes dns) a ↔
      ∃ s ∈ Attribute.split dns, hasColon s = false ∧ InetAddresses.parse P s = .ok (.inet4 a) := by
  constructor
  · rintro ⟨r, hr, n, hn, ha⟩
    obtain ⟨s, hs, hcolon, rfl⟩ := mem_newDnsRoutes.mp hr
    obtain ⟨b, hb, rfl⟩ := (parse_route_iff hP hcolon).mp hn
    rw [covers_single_iff] at ha
    exact ⟨s, hs, hcolon, ha ▸ hb⟩
  · rintro ⟨s, hs, hcolon, ha⟩
    exact ⟨_, mem_newDnsRoutes.mpr ⟨s, hs, hcolon, rfl⟩, _, (parse_route_iff hP hcolon).mpr ⟨a, ha, rfl⟩,
      covers_single_iff.mpr rfl⟩

/-- The routes to the entries of a text that can be saved have no blanks at their ends. -/
theorem stripped_routes (hP : P.LawfulNumeric) {q : InterfaceProxy} {i : Interface} (h : q.resolve P = .ok i) :
    ∀ r ∈ PeerProxy.newDnsRoutes q.dnsServers, Stripped isSpace r := by
  intro r hr
  obtain ⟨s, hs, -, rfl⟩ := mem_newDnsRoutes.mp hr
  have hlast : ∀ c ∈ (s ++ text "/32").getLast?, isSpace c = false := by
    intro c hc
    rw [List.getLast?_append_of_ne_nil _ (by decide)] at hc
    cases hc
    decide
  have hhead : ∀ c ∈ s.head?, isSpace c = false := by
    intro c hc
    rcases InterfaceProxy.entry_of_resolve h hs with rfl | ⟨a, ha⟩ | hhost
    · cases hc
    · exact (hP.stripped s a ha).1 c hc
    · exact isSpace_of_isTrim_false ((Interface.plain_of_isHostname hhost).2 c (List.mem_of_mem_head? hc)).1
  refine ⟨fun c hc => ?_, hlast⟩
  cases s with
  | nil =>
    cases hc
    decide
  | cons d s => exact hhead c hc

end Routes

/-! ## Configurations with one peer -/

namespace Config

/-- An IPv4 address belongs to a network of the configuration. -/
def covers (conf : Config) (a : BitVec 32) : Prop := ∃ peer ∈ conf.peers, ∃ n ∈ peer.allowedIps.elems, n.covers a

/-- The IPv6 networks of every peer. -/
def ipv6Networks (conf : Config) : List (List InetNetwork) := conf.peers.map fun peer => ipv6 peer.allowedIps

variable {i : Interface} {peer : Peer}

theorem covers_single {a : BitVec 32} : covers ⟨i, [peer]⟩ a ↔ ∃ n ∈ peer.allowedIps.elems, n.covers a := by
  simp only [covers, List.mem_singleton, exists_eq_left]

end Config

namespace ConfigProxy

theorem resolve_single {q : InterfaceProxy} {p : PeerProxy} {conf : Config} :
    resolve P ⟨q, [p]⟩ = .ok conf ↔
      ∃ peer i, p.resolve P = .ok peer ∧ q.resolve P = .ok i ∧ conf = ⟨i, [peer]⟩ := by
  simp only [resolve, Checked.bind_eq_ok, Checked.mapM_eq_ok, List.forall₂_cons_left_iff, List.forall₂_nil_left_iff]
  constructor
  · rintro ⟨_, ⟨peer, _, hpeer, rfl, rfl⟩, i, hi, hconf⟩
    cases hconf
    exact ⟨peer, i, hpeer, hi, rfl⟩
  · rintro ⟨peer, i, hpeer, hi, rfl⟩
    exact ⟨_, ⟨peer, _, hpeer, rfl, rfl⟩, i, hi, rfl⟩

/-- What the switch is for. Private addresses are excluded, except those that DNS servers and other networks
need, and included again. -/
def Excludes (P : Platform) (c : ConfigProxy) (p : PeerProxy) (conf : Config) : Prop :=
  ∃ conf' conf'',
    ((c.step (.setExcludingPrivateIps 0 true)).resolve P = .ok conf' ∧
      (∀ a, conf'.covers a ↔
        IsPublic a ∨ .inet4 a ∈ conf.interfaze.dnsServers.elems ∨ CoveredBy P p.others a) ∧
      conf'.ipv6Networks = conf.ipv6Networks) ∧
    ((c.step (.setExcludingPrivateIps 0 true)).step (.setExcludingPrivateIps 0 false)).resolve P = .ok conf'' ∧
      (∀ a, conf''.covers a) ∧ conf''.ipv6Networks = conf.ipv6Networks

/-- A DNS entry without a colon is an address. One with a colon that is an IPv4 address all the same is
public, listed without a colon, or covered by another network. -/
def RoutableDns (P : Platform) (dns : JString) (p : PeerProxy) : Prop :=
  (∀ s ∈ Attribute.split dns, hasColon s = false → ∃ a, InetAddresses.parse P s = .ok a) ∧
    ∀ s ∈ Attribute.split dns, hasColon s = true → ∀ a, InetAddresses.parse P s = .ok (.inet4 a) →
      IsPublic a ∨ (∃ t ∈ Attribute.split dns, hasColon t = false ∧ InetAddresses.parse P t = .ok (.inet4 a)) ∨
        CoveredBy P p.others a

/-- The DNS servers and the other networks are all addresses. -/
def CoveredAnyway (P : Platform) (dns : JString) (p : PeerProxy) : Prop :=
  ∀ a, (∃ s ∈ Attribute.split dns, InetAddresses.parse P s = .ok (.inet4 a)) ∨ CoveredBy P p.others a

section Single

variable {q : InterfaceProxy} {p : PeerProxy} {i : Interface} {peer : Peer} {k : Nat} (hP : P.LawfulNumeric)
  (hb : p.Bound q.dnsServers k) (hi : q.resolve P = .ok i) (hpeer : p.resolve P = .ok peer)
include hP hb hi

/-- It depends on what the first switch does. -/
theorem excludes_single_iff
    (hstate : (p.setExcludingPrivateIps true).allowedIpsState = .containsIpv4PublicNetworks) :
    Excludes P ⟨q, [p]⟩ p ⟨i, [peer]⟩ ↔ ∃ peer', (p.setExcludingPrivateIps true).resolve P = .ok peer' ∧
      (∀ a, (∃ n ∈ peer'.allowedIps.elems, n.covers a) ↔ IsPublic a ∨
        (∃ s ∈ Attribute.split q.dnsServers, InetAddresses.parse P s = .ok (.inet4 a)) ∨ CoveredBy P p.others a) ∧
      ipv6 peer'.allowedIps = ipv6 peer.allowedIps := by
  have hdns := fun a => InterfaceProxy.inet4_mem_dnsServers_iff hi (a := a)
  constructor
  · rintro ⟨conf', -, ⟨hconf', hcovers, hsix⟩, -⟩
    obtain ⟨peer', i', hpeer', hi', rfl⟩ := resolve_single.mp hconf'
    refine ⟨peer', hpeer', fun a => ?_, List.singleton_inj.mp hsix⟩
    rw [← hdns, ← Config.covers_single]
    exact hcovers a
  · rintro ⟨peer', hpeer', hcovers, hsix⟩
    obtain ⟨peer'', hpeer'', hall, hsix''⟩ :=
      PeerProxy.resolve_including hP hpeer' (hb.setExcludingPrivateIps true) hstate
    refine ⟨⟨i, [peer']⟩, ⟨i, [peer'']⟩, ⟨resolve_single.mpr ⟨peer', i, hpeer', hi, rfl⟩, fun a => ?_, ?_⟩,
      resolve_single.mpr ⟨peer'', i, hpeer'', hi, rfl⟩, fun a => Config.covers_single.mpr (hall a), ?_⟩
    · rw [Config.covers_single, hcovers, hdns]
    · exact congrArg (fun x => [x]) hsix
    · exact congrArg (fun x => [x]) (hsix''.trans hsix)

include hpeer

theorem excludes_iff_of_excluding (hw : wildcard ∈ Attribute.split p.allowedIps)
    (hstate : p.allowedIpsState = .containsIpv4PublicNetworks) :
    Excludes P ⟨q, [p]⟩ p ⟨i, [peer]⟩ ↔ CoveredAnyway P q.dnsServers p := by
  have hsame : p.setExcludingPrivateIps true = p := by
    rcases PeerProxy.setExcludingPrivateIps_cases (p := p) true with ⟨hsame, -⟩ | ⟨hold, -⟩
    · exact hsame
    · exact absurd (hstate.symm.trans hold) (by decide)
  have hcovers : ∀ a, ∃ n ∈ peer.allowedIps.elems, n.covers a := by
    intro a
    rw [(PeerProxy.parsed_of_resolve hpeer (PeerProxy.ne_nil_of_mem_split hw wildcard_facts.1)).2, covers_networkSet_iff]
    exact ⟨wildcard, hw, _, parse_wildcard hP, covers_all a⟩
  have hpublic : ∀ a, IsPublic a → CoveredBy P p.others a := by
    intro a ha
    obtain ⟨x, hx, n, hn, ha⟩ := (coveredBy_public_iff hP).mpr ha
    refine ⟨x, List.mem_filter.mpr ⟨(hb.public_listed hstate).2 x hx, ?_⟩, n, hn, ha⟩
    exact bne_iff_ne.mpr (public_facts x hx).2.2.2.1
  rw [excludes_single_iff hP hb hi (hsame.symm ▸ hstate), hsame]
  constructor
  · rintro ⟨peer', hpeer', hiff, -⟩ a
    rw [hpeer] at hpeer'
    cases hpeer'
    exact ((hiff a).mp (hcovers a)).elim (fun ha => .inr (hpublic a ha)) id
  · intro hall
    exact ⟨peer, hpeer, fun a => iff_of_true (hcovers a) (.inr (hall a)), rfl⟩

theorem excludes_iff_of_including (hstate : p.allowedIpsState = .containsIpv4Wildcard) :
    Excludes P ⟨q, [p]⟩ p ⟨i, [peer]⟩ ↔ RoutableDns P q.dnsServers p := by
  obtain ⟨hexists, hfacts⟩ := PeerProxy.resolve_excluding hP hpeer hb hstate (hb.dnsRoutes ▸ stripped_routes hP hi)
  have hstate' : (p.setExcludingPrivateIps true).allowedIpsState = .containsIpv4PublicNetworks := by
    rcases PeerProxy.setExcludingPrivateIps_cases (p := p) true with ⟨-, hne⟩ | ⟨-, hset⟩
    · exact absurd hstate hne
    · rw [hset]
      rfl
  rw [hb.dnsRoutes, routes_parsed_iff hP] at hexists
  simp only [hb.dnsRoutes, coveredBy_routes_iff hP] at hfacts
  rw [excludes_single_iff hP hb hi hstate', RoutableDns]
  constructor
  · rintro ⟨peer', hpeer', hiff, -⟩
    refine ⟨hexists.mp ⟨peer', hpeer'⟩, fun s hs _ a ha => ?_⟩
    exact ((hfacts peer' hpeer').1 a).mp ((hiff a).mpr (.inr (.inl ⟨s, hs, ha⟩)))
  · rintro ⟨hparsed, hcolon⟩
    obtain ⟨peer', hpeer'⟩ := hexists.mpr hparsed
    obtain ⟨hcovers, hsix⟩ := hfacts peer' hpeer'
    refine ⟨peer', hpeer', fun a => (hcovers a).trans ⟨?_, ?_⟩, hsix⟩
    · rintro (ha | ⟨s, hs, -, ha⟩ | ha)
      · exact .inl ha
      · exact .inr (.inl ⟨s, hs, ha⟩)
      · exact .inr (.inr ha)
    · rintro (ha | ⟨s, hs, ha⟩ | ha)
      · exact .inl ha
      · cases hs_colon : hasColon s with
        | true => exact hcolon s hs hs_colon a ha
        | false => exact .inr (.inl ⟨s, hs, hs_colon, ha⟩)
      · exact .inr (.inr ha)

end Single

/-- For one peer with `0.0.0.0/0` the switch does what it is for exactly if the DNS entries can be routed. If
it shows excluded addresses already, it does nothing. -/
theorem excludes_iff (P : Platform) (hP : P.LawfulNumeric) (c : ConfigProxy) (hc : c.Bound) (p : PeerProxy)
    (hp : c.peers = [p]) (hw : wildcard ∈ Attribute.split p.allowedIps) (conf : Config)
    (hconf : c.resolve P = .ok conf) :
    c.Excludes P p conf ↔
      if p.isExcludingPrivateIps then CoveredAnyway P c.interfaze.dnsServers p
      else RoutableDns P c.interfaze.dnsServers p := by
  obtain ⟨q, peers⟩ := c
  obtain rfl : peers = [p] := hp
  have hb : p.Bound q.dnsServers 1 := hc p (List.mem_singleton_self p)
  obtain ⟨peer, i, hpeer, hi, rfl⟩ := resolve_single.mp hconf
  split
  · next hexcluding => exact excludes_iff_of_excluding hP hb hi hpeer hw (beq_iff_eq.mp hexcluding)
  · next hincluding =>
    refine excludes_iff_of_including hP hb hi hpeer ?_
    rw [hb.state.resolve_right fun hmisled => hincluding (beq_iff_eq.mpr hmisled.state)]
    exact PeerProxy.newState_of_wildcard hb.totalPeers hw

/-- An editor with one peer that routes everything. -/
def sampleSingle (dns : String) : ConfigProxy :=
  .ofParcel [.present, .string (text "192.0.2.2/32"), .string (text dns), .stringList [], .stringList [], .string [],
    .string [], .string (text "TFlmmEUC7V7VtiDYLKsbP5rySTKLIZq1yn8lMqK83wo="), .count 1, .present,
    .string (text "::/0, 0.0.0.0/0"), .string [], .string [], .string [],
    .string (text "vBN7qyUTb5lJtWYJ8LhbPio1Z4RcyBPGnqFBGn6O6Qg=")]

/-- The peer of that editor. -/
def samplePeerProxy (dns : String) : PeerProxy := (sampleSingle dns).peers.headD .init

theorem excludes_private_dns : ∃ conf, (sampleSingle "10.0.0.1, ::").resolve numericPlatform = .ok conf ∧
    (sampleSingle "10.0.0.1, ::").Excludes numericPlatform (samplePeerProxy "10.0.0.1, ::") conf := by
  have hok : ((sampleSingle "10.0.0.1, ::").resolve numericPlatform).toOption.isSome = true := by decide +kernel
  obtain ⟨conf, hconf⟩ := Option.isSome_iff_exists.mp hok
  rw [Checked.toOption_eq_some] at hconf
  have hsplit : Attribute.split (sampleSingle "10.0.0.1, ::").interfaze.dnsServers = [text "10.0.0.1", text "::"] := by
    decide
  have hfirst : InetAddresses.parse numericPlatform (text "10.0.0.1") = .ok (.inet4 0x0A000001) := by decide
  have hsecond : InetAddresses.parse numericPlatform (text "::") = .ok (.inet6 0 none) := by decide
  have hbound : (sampleSingle "10.0.0.1, ::").Bound := (Opened.ofParcel (P := numericPlatform) _).bound.1
  refine ⟨conf, hconf, (excludes_iff numericPlatform numericPlatform_lawfulNumeric _ hbound _ rfl (by decide) conf
    hconf).mpr ?_⟩
  rw [if_neg (by decide), RoutableDns, hsplit]
  refine ⟨?_, ?_⟩ <;> rw [List.forall_mem_cons, List.forall_mem_singleton]
  · exact ⟨fun _ => ⟨_, hfirst⟩, fun _ => ⟨_, hsecond⟩⟩
  · refine ⟨fun hcolon => absurd hcolon (by decide), fun _ a ha => ?_⟩
    rw [hsecond] at ha
    cases ha

/-- Without DNS servers the only entry of the text is empty, and its route `/32` is no network. -/
theorem not_excludes_without_dns : ∃ conf, (sampleSingle "").Bound ∧ (sampleSingle "").peers = [samplePeerProxy ""] ∧
    wildcard ∈ Attribute.split (samplePeerProxy "").allowedIps ∧
    (sampleSingle "").resolve numericPlatform = .ok conf ∧
    ¬ (sampleSingle "").Excludes numericPlatform (samplePeerProxy "") conf := by
  have hok : ((sampleSingle "").resolve numericPlatform).toOption.isSome = true := by decide +kernel
  have herror : (((sampleSingle "").step (.setExcludingPrivateIps 0 true)).resolve numericPlatform).toOption = none := by
    decide +kernel
  obtain ⟨conf, hconf⟩ := Option.isSome_iff_exists.mp hok
  have hbound : (sampleSingle "").Bound := (Opened.ofParcel (P := numericPlatform) _).bound.1
  refine ⟨conf, hbound, rfl, by decide, Checked.toOption_eq_some.mp hconf, ?_⟩
  rintro ⟨conf', -, ⟨hconf', -⟩, -⟩
  rw [Checked.toOption_eq_some.mpr hconf'] at herror
  cases herror

end ConfigProxy

end WgAndroid
