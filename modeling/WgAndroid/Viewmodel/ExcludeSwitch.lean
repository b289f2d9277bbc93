import WgAndroid.Lib.Along
import WgAndroid.Viewmodel.Proxies

/-!
# The switch that excludes private addresses

`PeerProxy` keeps in `allowedIpsState` what its switch shows. The state is computed from the text of the
networks and the number of peers, except in `setExcludingPrivateIps`, which assigns it.

Results:
1. `ConfigProxy.bound_step`: the invariant of bound peers. Its state may be wrong in one way only.
2. `PeerProxy.mem_excludingText_iff`: when `0.0.0.0/0` is a network after private addresses were excluded.
3. `ConfigProxy.switch_truthful_iff`: for which events the switch shows the truth.
-/

namespace WgAndroid

open Delimited

/-! ## Events -/

namespace ConfigProxy

/-- What the editor does, as far as it matters for the networks. -/
inductive Event where
  | setAllowedIps (i : Nat) (value : JString)
  | setExcludingPrivateIps (i : Nat) (value : Bool)
  | setDnsServers (value : JString)
  | addPeer
  | removePeer (i : Nat)
  deriving DecidableEq

/-- The listeners of the bound peers hear of a new DNS text and of a new number of peers. -/
def step (c : ConfigProxy) : Event → ConfigProxy
  | .setAllowedIps i value => { c with peers := c.peers.modify i (·.setAllowedIps value) }
  | .setExcludingPrivateIps i value => { c with peers := c.peers.modify i (·.setExcludingPrivateIps value) }
  | .setDnsServers value =>
    { interfaze := { c.interfaze with dnsServers := value }, peers := c.peers.map (·.setInterfaceDns value) }
  | .addPeer => c.attach .init
  | .removePeer i =>
    if i < c.peers.length then
      { c with peers := (c.peers.eraseIdx i).map (·.setTotalPeers (c.peers.length - 1)) }
    else c

/-- How the editor starts. -/
inductive Opened (P : Platform) : ConfigProxy → Prop where
  | init : Opened P .init
  | ofConfig (other : Config) : Opened P (.ofConfig P other)
  | ofParcel (parcel : Parcel) : Opened P (.ofParcel parcel)

end ConfigProxy

/-! ## Networks as texts -/

/-- The one element of `ipv4Wildcard`. -/
def wildcard : JString := text "0.0.0.0/0"

theorem mem_ipv4Wildcard {x : JString} : x ∈ ipv4Wildcard ↔ x = wildcard := List.mem_singleton

theorem public_facts : ∀ n ∈ ipv4PublicNetworks,
    n ≠ [] ∧ unit ',' ∉ n ∧ Stripped isSpace n ∧ n ≠ wildcard ∧ ¬ text "/32" <:+ n := by
  decide +kernel

theorem wildcard_facts : wildcard ≠ [] ∧ unit ',' ∉ wildcard ∧ Stripped isSpace wildcard ∧
    ¬ text "/32" <:+ wildcard := by
  decide +kernel

namespace PeerProxy

variable {p : PeerProxy}

theorem contains_getAllowedIpsSet {x : JString} :
    p.getAllowedIpsSet.contains x = true ↔ x ∈ Attribute.split p.allowedIps := by
  rw [LinkedSet.contains, List.any_eq_true]
  simp only [beq_iff_eq, exists_eq_right, getAllowedIpsSet, LinkedSet.addAll_eq_eraseDups, List.mem_eraseDups]

theorem newState_of_ne_one (h : p.totalPeers ≠ 1) : p.newState = .invalid := if_neg h

section OnePeer

variable (h : p.totalPeers = 1)
include h

theorem newState_of_wildcard (hw : wildcard ∈ Attribute.split p.allowedIps) :
    p.newState = .containsIpv4Wildcard := by
  rw [newState, if_pos h, if_pos]
  rw [List.all_eq_true]
  intro x hx
  rw [List.mem_singleton.mp hx]
  exact contains_getAllowedIpsSet.mpr hw

theorem newState_of_no_wildcard (hw : wildcard ∉ Attribute.split p.allowedIps) :
    p.newState = if ∀ n ∈ ipv4PublicNetworks, n ∈ Attribute.split p.allowedIps
      then .containsIpv4PublicNetworks else .other := by
  rw [newState, if_pos h, if_neg]
  · simp only [List.all_eq_true, contains_getAllowedIpsSet]
  · rw [List.all_eq_true]
    intro hall
    exact hw (contains_getAllowedIpsSet.mp (hall wildcard (List.mem_singleton_self _)))

end OnePeer

/-! ## The networks after the switch -/

section Replace

variable {oldNetworks newNetworks A B : List JString} {output : LinkedSet JString}

theorem foldl_replaceNetwork_before (hA : ∀ x ∈ A, x ∉ oldNetworks) :
    A.foldl (replaceNetwork oldNetworks newNetworks) (output, false) = (output.addAll A, false) := by
  induction A generalizing output with
  | nil => rfl
  | cons x A ih =>
    have hx : replaceNetwork oldNetworks newNetworks (output, false) x = (output.add x, false) := by
      rw [replaceNetwork, if_neg (mt List.contains_iff_mem.mp (hA x List.mem_cons_self))]
    rw [List.foldl_cons, hx, ih fun y hy => hA y (List.mem_cons_of_mem _ hy)]
    rfl

theorem foldl_replaceNetwork_behind :
    B.foldl (replaceNetwork oldNetworks newNetworks) (output, true) =
      (output.addAll (B.filter fun x => !oldNetworks.contains x), true) := by
  induction B generalizing output with
  | nil => rfl
  | cons x B ih =>
    rw [List.foldl_cons, replaceNetwork]
    cases hx : oldNetworks.contains x with
    | true => rw [List.filter_cons_of_neg (by rw [hx]; decide), ← ih]; rfl
    | false => rw [List.filter_cons_of_pos (by rw [hx]; rfl), LinkedSet.addAll_cons, ← ih]; rfl

/-- The new networks stand where the first of the old ones was. -/
theorem replaceNetworks_eq {o : JString} (hA : ∀ x ∈ A, x ∉ oldNetworks) (ho : o ∈ oldNetworks) :
    replaceNetworks oldNetworks newNetworks (A ++ o :: B) =
      LinkedSet.empty.addAll (A ++ newNetworks ++ B.filter fun x => !oldNetworks.contains x) := by
  have hreplace : replaceNetwork oldNetworks newNetworks (LinkedSet.empty.addAll A, false) o =
      ((LinkedSet.empty.addAll A).addAll newNetworks, true) := by
    rw [replaceNetwork, if_pos (List.contains_iff_mem.mpr ho)]
    rfl
  rw [replaceNetworks, List.foldl_append, foldl_replaceNetwork_before hA, List.foldl_cons, hreplace,
    foldl_replaceNetwork_behind, LinkedSet.addAll_append, LinkedSet.addAll_append]

end Replace

/-- The networks after private addresses were excluded, where `A` and `B` are those before and behind
`0.0.0.0/0`: the public networks stand in its place, and the routes to the DNS servers at the end. -/
def excluded (p : PeerProxy) (A B : List JString) : List JString :=
  (A ++ ipv4PublicNetworks ++ B ++ p.dnsRoutes).eraseDups

theorem mem_excluded {A B : List JString} {z : JString} :
    z ∈ p.excluded A B ↔ ((z ∈ A ∨ z ∈ ipv4PublicNetworks) ∨ z ∈ B) ∨ z ∈ p.dnsRoutes := by
  rw [excluded, List.mem_eraseDups, List.mem_append, List.mem_append, List.mem_append]

theorem excludingText_true (hw : wildcard ∈ Attribute.split p.allowedIps) :
    ∃ A B, (Attribute.split p.allowedIps).eraseDups = A ++ wildcard :: B ∧ wildcard ∉ A ∧ wildcard ∉ B ∧
      p.excludingText true = Attribute.join (p.excluded A B) := by
  obtain ⟨A, B, hsplit, hA⟩ := List.eq_append_cons_of_mem (List.mem_eraseDups.mpr hw)
  have hnodup : (A ++ wildcard :: B).Nodup := hsplit ▸ LinkedSet.eraseDups_nodup _
  have hB : wildcard ∉ B := (List.nodup_cons.mp (List.nodup_append.mp hnodup).2.1).1
  refine ⟨A, B, hsplit, hA, hB, ?_⟩
  have hfilter : (B.filter fun x => !ipv4Wildcard.contains x) = B := by
    rw [List.filter_eq_self]
    intro x hx
    have hne : x ∉ ipv4Wildcard := fun hmem => hB (mem_ipv4Wildcard.mp hmem ▸ hx)
    simpa using hne
  have hold : ∀ x ∈ A, x ∉ ipv4Wildcard := fun x hx hmem => hA (mem_ipv4Wildcard.mp hmem ▸ hx)
  have helems : p.getAllowedIpsSet.elems = A ++ wildcard :: B := by
    rw [getAllowedIpsSet, LinkedSet.addAll_eq_eraseDups, hsplit]
  show Attribute.join ((replaceNetworks ipv4Wildcard ipv4PublicNetworks p.getAllowedIpsSet.elems).addAll
    p.dnsRoutes).elems = _
  rw [helems, replaceNetworks_eq hold (mem_ipv4Wildcard.mpr rfl), hfilter, ← LinkedSet.addAll_append,
    LinkedSet.addAll_eq_eraseDups, excluded]

/-- The networks after private addresses were included again, where `A` and `B` are those before and behind
the first of the public networks: `0.0.0.0/0` stands in its place, and the routes are gone. -/
def included (p : PeerProxy) (A B : List JString) : List JString :=
  (A ++ wildcard :: B.filter fun x => !ipv4PublicNetworks.contains x).eraseDups.filter fun x => !p.dnsRoutes.contains x

theorem wildcard_mem_included {A B : List JString} (h : wildcard ∉ p.dnsRoutes) : wildcard ∈ p.included A B := by
  rw [included, List.mem_filter, List.mem_eraseDups]
  exact ⟨List.mem_append_right _ List.mem_cons_self, by simpa using h⟩

theorem excludingText_false {n : JString} (hn : n ∈ ipv4PublicNetworks) (hmem : n ∈ Attribute.split p.allowedIps) :
    ∃ A o B, (Attribute.split p.allowedIps).eraseDups = A ++ o :: B ∧ (∀ x ∈ A, x ∉ ipv4PublicNetworks) ∧
      o ∈ ipv4PublicNetworks ∧
      p.excludingText false = Attribute.join (p.included A B) := by
  obtain ⟨A, o, B, hsplit, hA, ho⟩ : ∃ A o B, (Attribute.split p.allowedIps).eraseDups = A ++ o :: B ∧
      (∀ x ∈ A, x ∉ ipv4PublicNetworks) ∧ o ∈ ipv4PublicNetworks := by
    have hmem : n ∈ (Attribute.split p.allowedIps).eraseDups := List.mem_eraseDups.mpr hmem
    obtain ⟨o, hfind⟩ := Option.isSome_iff_exists.mp (List.find?_isSome (p := ipv4PublicNetworks.contains).mpr
      ⟨n, hmem, List.contains_iff_mem.mpr hn⟩)
    obtain ⟨ho, A, B, hsplit, hA⟩ := List.find?_eq_some_iff_append.mp hfind
    exact ⟨A, o, B, hsplit, fun x hx => by simpa using hA x hx, List.contains_iff_mem.mp ho⟩
  refine ⟨A, o, B, hsplit, hA, ho, ?_⟩
  have helems : p.getAllowedIpsSet.elems = A ++ o :: B := by
    rw [getAllowedIpsSet, LinkedSet.addAll_eq_eraseDups, hsplit]
  show Attribute.join ((replaceNetworks ipv4PublicNetworks ipv4Wildcard p.getAllowedIpsSet.elems).removeAll
    p.dnsRoutes).elems = _
  rw [helems, replaceNetworks_eq hA ho, LinkedSet.removeAll_elems, LinkedSet.addAll_eq_eraseDups, List.append_assoc]
  rfl

/-- No other network is new. -/
theorem mem_of_mem_included {A B : List JString} {o z : JString}
    (hsplit : (Attribute.split p.allowedIps).eraseDups = A ++ o :: B) (hz : z ∈ p.included A B) :
    z = wildcard ∨ z ∈ Attribute.split p.allowedIps := by
  have hold : ∀ z, z ∈ A ∨ z ∈ B → z ∈ Attribute.split p.allowedIps := by
    intro z hz
    rw [← List.mem_eraseDups, hsplit, List.mem_append, List.mem_cons]
    exact hz.imp_right .inr
  rw [included, List.mem_filter, List.mem_eraseDups, List.mem_append, List.mem_cons] at hz
  rcases hz.1 with hz | hz | hz
  · exact .inr (hold z (.inl hz))
  · exact .inl hz
  · exact .inr (hold z (.inr (List.mem_of_mem_filter hz)))

/-! ## Whether `0.0.0.0/0` comes back -/

/-- A route to a DNS server is not taken for `0.0.0.0/0`, whatever blanks it has. -/
theorem strip_route {r : JString} (h : text "/32" <:+ r) :
    r.dropWhile isSpace ≠ wildcard ∧ strip isSpace r ≠ wildcard := by
  have hdrop : ∀ s : JString, text "/32" <:+ (s ++ text "/32").dropWhile isSpace := by
    intro s
    induction s with
    | nil => exact ⟨[], rfl⟩
    | cons c s ih =>
      rw [List.cons_append, List.dropWhile_cons]
      split
      · exact ih
      · exact ⟨c :: s, rfl⟩
  obtain ⟨s, rfl⟩ := h
  have hsuffix := hdrop s
  have hstrip : strip isSpace (s ++ text "/32") = (s ++ text "/32").dropWhile isSpace := by
    refine rdropWhile_of_getLast fun c hc => ?_
    obtain ⟨t, ht⟩ := hsuffix
    rw [← ht, List.getLast?_append] at hc
    cases hc
    decide
  rw [hstrip]
  exact ⟨fun heq => wildcard_facts.2.2.2 (heq ▸ hsuffix), fun heq => wildcard_facts.2.2.2 (heq ▸ hsuffix)⟩

/-- The last network is `0.0.0.0/0` with blanks behind it. -/
def Padded (p : PeerProxy) : Prop :=
  ∃ l ∈ (Attribute.split p.allowedIps).getLast?, l ≠ wildcard ∧ strip isSpace l = wildcard

/-- Only the last network can have blanks behind it. -/
theorem getLast_of_strip_eq {z : JString} (hz : z ∈ (Attribute.split p.allowedIps).tail) (hne : z ≠ wildcard)
    (hstrip : strip isSpace z = wildcard) :
    z ∉ (Attribute.split p.allowedIps).dropLast ∧ (Attribute.split p.allowedIps).getLast? = some z := by
  have hlast : z ∉ (Attribute.split p.allowedIps).dropLast := by
    intro hmem
    rw [strip_of_stripped ⟨head_of_mem_tail hz, getLast_of_mem_dropLast hmem⟩] at hstrip
    exact hne hstrip
  refine ⟨hlast, ?_⟩
  have hnil := List.ne_nil_of_mem (List.mem_of_mem_tail hz)
  have hmem := List.mem_of_mem_tail hz
  rw [← List.dropLast_append_getLast hnil, List.mem_append] at hmem
  rw [List.getLast?_eq_getLast_of_ne_nil hnil]
  exact congrArg some (List.mem_singleton.mp (hmem.resolve_left hlast)).symm

/-- The last element of a list that has another one. -/
theorem mem_tail_of_getLast {α : Type} {xs : List α} {x y : α} (hy : xs.getLast? = some y) (hx : x ∈ xs)
    (hne : x ≠ y) : y ∈ xs.tail := by
  obtain ⟨ys, rfl⟩ := List.getLast?_eq_some_iff.mp hy
  cases ys with
  | nil => exact absurd (List.mem_singleton.mp hx) hne
  | cons z ys => exact List.mem_append_right _ (List.mem_singleton_self y)

section Excluded

variable {A B : List JString}

/-- A route that is not listed goes to the end. -/
theorem getLast_mem_routes {y : JString} (hlast : (p.excluded A B).getLast? = some y)
    (hroutes : ∃ r ∈ p.dnsRoutes, r ∉ A ++ ipv4PublicNetworks ++ B) : y ∈ p.dnsRoutes := by
  obtain ⟨r, hr, hnew⟩ := hroutes
  rw [excluded, List.eraseDups_append] at hlast
  have hmem : r ∈ (p.dnsRoutes.removeAll (A ++ ipv4PublicNetworks ++ B)).eraseDups := by
    rw [List.mem_eraseDups, List.removeAll, List.mem_filter]
    exact ⟨hr, by simpa using hnew⟩
  rw [List.getLast?_append_of_ne_nil _ (List.ne_nil_of_mem hmem)] at hlast
  exact (List.mem_filter.mp (List.mem_eraseDups.mp (List.mem_of_getLast? hlast))).1

variable (hsplit : (Attribute.split p.allowedIps).eraseDups = A ++ wildcard :: B)
include hsplit

theorem mem_split_iff {z : JString} : z ∈ Attribute.split p.allowedIps ↔ z ∈ A ∨ z = wildcard ∨ z ∈ B := by
  rw [← List.mem_eraseDups, hsplit, List.mem_append, List.mem_cons]

/-- A last network that is new stays the last one, unless there are routes that are not listed. -/
theorem getLast_excluded {z : JString} (hlast : (Attribute.split p.allowedIps).getLast? = some z)
    (hz : z ∉ (Attribute.split p.allowedIps).dropLast) (hne : z ≠ wildcard) (hpublic : z ∉ ipv4PublicNetworks)
    (hlisted : ∀ r ∈ p.dnsRoutes, r ∈ A ++ ipv4PublicNetworks ++ B) : (p.excluded A B).getLast? = some z := by
  obtain ⟨ps, hps⟩ := List.getLast?_eq_some_iff.mp hlast
  rw [hps, List.dropLast_concat] at hz
  have hnodup : (A ++ wildcard :: B).Nodup := hsplit ▸ LinkedSet.eraseDups_nodup _
  rw [hps, LinkedSet.eraseDups_concat hz] at hsplit
  obtain ⟨B', rfl⟩ : ∃ B', B = B' ++ [z] := by
    have hend : (A ++ wildcard :: B).getLast? = some z := by rw [← hsplit, List.getLast?_concat]
    rcases List.eq_nil_or_concat B with rfl | ⟨B', y, rfl⟩
    · rw [List.getLast?_concat] at hend
      exact absurd (Option.some.inj hend).symm hne
    · rw [List.concat_eq_append, ← List.cons_append, ← List.append_assoc, List.getLast?_concat] at hend
      exact ⟨B', by rw [List.concat_eq_append, Option.some.inj hend]⟩
  have hnew : z ∉ A ++ ipv4PublicNetworks ++ B' := by
    rw [← List.cons_append, ← List.append_assoc] at hnodup
    have hbefore : z ∉ A ++ wildcard :: B' := fun hmem =>
      (List.nodup_append.mp hnodup).2.2 z hmem z (List.mem_singleton_self z) rfl
    simp only [List.mem_append, List.mem_cons, not_or] at hbefore ⊢
    exact ⟨⟨hbefore.1, hpublic⟩, hbefore.2.2⟩
  have hremoved : p.dnsRoutes.removeAll (A ++ ipv4PublicNetworks ++ (B' ++ [z])) = [] := by
    rw [List.removeAll, List.filter_eq_nil_iff]
    intro r hr
    simp only [List.elem_eq_contains, List.contains_iff_mem.mpr (hlisted r hr), Bool.not_true, Bool.false_eq_true,
      not_false_eq_true]
  rw [excluded, List.eraseDups_append, hremoved, List.eraseDups_nil, List.append_nil, ← List.append_assoc,
    LinkedSet.eraseDups_concat hnew, List.getLast?_concat]

section First

variable (hA : wildcard ∉ A)
include hA

/-- The first of the networks has no blanks behind it, and the others do not come from the first one of the
old networks. -/
theorem excluded_cons :
    ∃ x rest, p.excluded A B = x :: rest ∧ x.rdropWhile isSpace ≠ wildcard ∧
      ∀ z ∈ rest, z ∈ ipv4PublicNetworks ∨ z ∈ p.dnsRoutes ∨ z ∈ (Attribute.split p.allowedIps).tail := by
  obtain ⟨x, rest, hcons⟩ : ∃ x rest, p.excluded A B = x :: rest :=
    List.exists_cons_of_ne_nil (List.ne_nil_of_mem (mem_excluded.mpr (.inl (.inl (.inr List.mem_cons_self)))))
  refine ⟨x, rest, hcons, ?_⟩
  obtain ⟨zs, hzs, hrest⟩ := LinkedSet.eraseDups_eq_cons hcons
  cases A with
  | nil =>
    obtain ⟨ps, hps, htail⟩ := LinkedSet.eraseDups_eq_cons hsplit
    have hx : x = text "0.0.0.0/5" := (List.cons.inj hzs).1.symm
    refine ⟨by rw [hx]; decide, fun z hz => ?_⟩
    have hzs : ipv4PublicNetworks.tail ++ B ++ p.dnsRoutes = zs := (List.cons.inj hzs).2
    have hz := hrest z hz
    rw [← hzs] at hz
    simp only [List.mem_append] at hz
    rw [hps]
    rcases hz with (hz | hz) | hz
    · exact .inl (List.mem_of_mem_tail hz)
    · exact .inr (.inr (htail z hz))
    · exact .inr (.inl hz)
  | cons a A =>
    obtain ⟨ps, hps, htail⟩ := LinkedSet.eraseDups_eq_cons hsplit
    have hx : x = a := (List.cons.inj hzs).1.symm
    have hps_ne : ps ≠ [] := List.ne_nil_of_mem (htail wildcard (List.mem_append_right _ List.mem_cons_self))
    refine ⟨?_, fun z hz => ?_⟩
    · -- the first of the old networks has a comma behind it
      have hmem : a ∈ (Attribute.split p.allowedIps).dropLast := by
        rw [hps, List.dropLast_cons_of_ne_nil hps_ne]
        exact List.mem_cons_self
      rw [hx, rdropWhile_of_getLast (getLast_of_mem_dropLast hmem)]
      exact fun heq => hA (heq ▸ List.mem_cons_self)
    · have hzs : A ++ ipv4PublicNetworks ++ B ++ p.dnsRoutes = zs := (List.cons.inj hzs).2
      have hz := hrest z hz
      rw [← hzs] at hz
      simp only [List.mem_append] at hz
      rw [hps]
      rcases hz with ((hz | hz) | hz) | hz
      · exact .inr (.inr (htail z (List.mem_append_left _ hz)))
      · exact .inl hz
      · exact .inr (.inr (htail z (List.mem_append_right _ (List.mem_cons_of_mem _ hz))))
      · exact .inr (.inl hz)

end First

section Pieces

variable (hroutes : ∀ r ∈ p.dnsRoutes, unit ',' ∉ r ∧ text "/32" <:+ r)
include hroutes

theorem comma_not_mem_excluded : ∀ z ∈ p.excluded A B, unit ',' ∉ z := by
  intro z hz
  rcases mem_excluded.mp hz with ((hz | hz) | hz) | hz
  · exact sep_not_mem_piece ((mem_split_iff hsplit).mpr (.inl hz))
  · exact (public_facts z hz).2.1
  · exact sep_not_mem_piece ((mem_split_iff hsplit).mpr (.inr (.inr hz)))
  · exact (hroutes z hz).1

omit hsplit in
theorem wildcard_not_mem_excluded (hA : wildcard ∉ A) (hB : wildcard ∉ B) : wildcard ∉ p.excluded A B := by
  intro hz
  rcases mem_excluded.mp hz with ((hz | hz) | hz) | hz
  · exact hA hz
  · exact (public_facts _ hz).2.2.2.1 rfl
  · exact hB hz
  · exact wildcard_facts.2.2.2 (hroutes _ hz).2

omit hsplit in
/-- A network that is not the first one and becomes `0.0.0.0/0` without its blanks is one of the old networks,
and it has its blanks at the end. -/
theorem blanks_behind {z : JString} (hne : z ≠ wildcard)
    (hz : z ∈ ipv4PublicNetworks ∨ z ∈ p.dnsRoutes ∨ z ∈ (Attribute.split p.allowedIps).tail) :
    z.dropWhile isSpace ≠ wildcard ∧
      (strip isSpace z = wildcard → z ∉ ipv4PublicNetworks ∧ z ∈ (Attribute.split p.allowedIps).tail) := by
  rcases hz with hpublic | hroute | htail
  · have hstripped := (public_facts z hpublic).2.2.1
    rw [dropWhile_of_head hstripped.1, strip_of_stripped hstripped]
    exact ⟨hne, fun heq => absurd heq hne⟩
  · have hroute := strip_route (hroutes z hroute).2
    exact ⟨hroute.1, fun heq => absurd heq hroute.2⟩
  · rw [dropWhile_of_head (head_of_mem_tail htail)]
    refine ⟨hne, fun heq => ⟨fun hpublic => ?_, htail⟩⟩
    rw [strip_of_stripped (public_facts z hpublic).2.2.1] at heq
    exact hne heq

theorem route_listed_iff {r : JString} (hr : r ∈ p.dnsRoutes) :
    r ∈ A ++ ipv4PublicNetworks ++ B ↔ r ∈ Attribute.split p.allowedIps := by
  have hne : r ≠ wildcard := fun heq => wildcard_facts.2.2.2 (heq ▸ (hroutes r hr).2)
  have hpublic : r ∉ ipv4PublicNetworks := fun hmem => (public_facts r hmem).2.2.2.2 (hroutes r hr).2
  rw [mem_split_iff hsplit, List.mem_append, List.mem_append, or_iff_left hpublic, or_iff_right hne]

end Pieces

end Excluded

/-- `0.0.0.0/0` comes back as a network exactly if the last network was this one with blanks behind it, and
a route that was not listed follows it now. -/
theorem mem_excludingText_iff (hw : wildcard ∈ Attribute.split p.allowedIps)
    (hroutes : ∀ r ∈ p.dnsRoutes, unit ',' ∉ r ∧ text "/32" <:+ r) :
    wildcard ∈ Attribute.split (p.excludingText true) ↔
      p.Padded ∧ ∃ r ∈ p.dnsRoutes, r ∉ Attribute.split p.allowedIps := by
  obtain ⟨A, B, hsplit, hA, hB, htext⟩ := excludingText_true hw
  obtain ⟨x, rest, hcons, hx, hrest⟩ := excluded_cons hsplit hA
  have hnot : wildcard ∉ x :: rest := hcons ▸ wildcard_not_mem_excluded hroutes hA hB
  have hcomma : ∀ z ∈ x :: rest, unit ',' ∉ z := hcons ▸ comma_not_mem_excluded hsplit hroutes
  have hbehind := fun z hz =>
    blanks_behind hroutes (fun heq : z = wildcard => hnot (heq ▸ List.mem_cons_of_mem _ hz)) (hrest z hz)
  obtain ⟨xs, y, rfl⟩ : ∃ xs y, rest = xs ++ [y] := by
    rcases List.eq_nil_or_concat rest with rfl | ⟨xs, y, rfl⟩
    · have hpublic : ∀ z ∈ ipv4PublicNetworks, z = x := fun z hz =>
        List.mem_singleton.mp (hcons ▸ mem_excluded.mpr (.inl (.inl (.inr hz))))
      have hfirst : text "0.0.0.0/5" = x := hpublic _ List.mem_cons_self
      have hsecond : text "8.0.0.0/7" = x := hpublic _ (List.mem_cons_of_mem _ List.mem_cons_self)
      exact absurd (hfirst.trans hsecond.symm) (by decide)
    · exact ⟨xs, y, List.concat_eq_append⟩
  have hend : (p.excluded A B).getLast? = some y := by rw [hcons, ← List.cons_append, List.getLast?_concat]
  rw [htext, hcons, Attribute.mem_split_join_iff hcomma wildcard_facts.1]
  constructor
  · rintro (heq | ⟨z, hz, heq⟩ | heq)
    · exact absurd heq.symm hx
    · have hzrest : z ∈ xs ++ [y] := List.mem_append_left _ hz
      have hne : z ≠ wildcard := fun heq => hnot (heq ▸ List.mem_cons_of_mem _ hzrest)
      obtain ⟨hpublic, htail⟩ := (hbehind z hzrest).2 heq.symm
      obtain ⟨hdropLast, hlast⟩ := getLast_of_strip_eq htail hne heq.symm
      refine ⟨⟨z, hlast, hne, heq.symm⟩, ?_⟩
      -- without new routes the network stays the last one, where its blanks do not go away
      by_contra hlisted
      have hz_end := getLast_excluded hsplit hlast hdropLast hne hpublic fun r hr =>
        (route_listed_iff hsplit hroutes hr).mpr (by_contra fun hnew => hlisted ⟨r, hr, hnew⟩)
      have hnodup : (x :: (xs ++ [y])).Nodup := hcons ▸ LinkedSet.eraseDups_nodup _
      rw [← List.cons_append, List.nodup_append] at hnodup
      exact hnodup.2.2 z (List.mem_cons_of_mem _ hz) y (List.mem_singleton_self y)
        (Option.some.inj (hz_end.symm.trans hend))
    · exact absurd heq.symm (hbehind y (List.mem_append_right _ (List.mem_singleton_self y))).1
  · rintro ⟨⟨l, hl, hne, hstrip⟩, r, hr, hnew⟩
    refine .inr (.inl ⟨l, ?_, hstrip.symm⟩)
    have hin : l ∈ x :: (xs ++ [y]) := by
      rw [← hcons, mem_excluded]
      rcases (mem_split_iff hsplit).mp (List.mem_of_getLast? hl) with hl | hl | hl
      · exact .inl (.inl (.inl hl))
      · exact absurd hl hne
      · exact .inl (.inr hl)
    have hfirst : l ≠ x := by
      rintro rfl
      rw [strip, dropWhile_of_head (head_of_mem_tail (mem_tail_of_getLast hl hw hne.symm))] at hstrip
      exact hx hstrip
    have hlast : l ≠ y := by
      rintro rfl
      have hroute := getLast_mem_routes hend ⟨r, hr, mt (route_listed_iff hsplit hroutes hr).mp hnew⟩
      exact (strip_route (hroutes l hroute).2).2 hstrip
    rw [List.mem_cons, List.mem_append, List.mem_singleton] at hin
    exact (hin.resolve_left hfirst).resolve_right hlast

/-! ## Bound peers -/

theorem routes_facts {dns : JString} : ∀ r ∈ newDnsRoutes dns, unit ',' ∉ r ∧ text "/32" <:+ r := by
  intro r hr
  obtain ⟨server, hserver, rfl⟩ := List.mem_map.mp hr
  refine ⟨fun hcomma => ?_, server, rfl⟩
  rcases List.mem_append.mp hcomma with hcomma | hcomma
  · exact sep_not_mem_piece (List.mem_of_mem_filter hserver) hcomma
  · exact absurd hcomma (by decide)

/-- The switch shows that private addresses are excluded, and `0.0.0.0/0` is a network. -/
structure Misled (p : PeerProxy) : Prop where
  one : p.totalPeers = 1
  state : p.allowedIpsState = .containsIpv4PublicNetworks
  listed : wildcard ∈ Attribute.split p.allowedIps
  publicNetworks : ∀ n ∈ ipv4PublicNetworks, n ∈ Attribute.split p.allowedIps

/-- A peer of a configuration with this DNS text and so many peers. -/
structure Bound (dns : JString) (peers : Nat) (p : PeerProxy) : Prop where
  totalPeers : p.totalPeers = peers
  dnsRoutes : p.dnsRoutes = newDnsRoutes dns
  state : p.allowedIpsState = p.newState ∨ p.Misled

section Bound

variable {dns dns' value : JString} {n n' : Nat}

theorem Misled.newState (h : p.Misled) : p.newState = .containsIpv4Wildcard := newState_of_wildcard h.one h.listed

theorem one_of_newState_ne (h : p.newState ≠ .invalid) : p.totalPeers = 1 :=
  by_contra fun hne => h (newState_of_ne_one hne)

theorem newState_eq_wildcard_iff :
    p.newState = .containsIpv4Wildcard ↔ p.totalPeers = 1 ∧ wildcard ∈ Attribute.split p.allowedIps := by
  refine ⟨fun h => ?_, fun h => newState_of_wildcard h.1 h.2⟩
  have hone : p.totalPeers = 1 := one_of_newState_ne (by rw [h]; decide)
  refine ⟨hone, by_contra fun hw => ?_⟩
  rw [newState_of_no_wildcard hone hw] at h
  split at h <;> cases h

theorem newState_eq_public_iff :
    p.newState = .containsIpv4PublicNetworks ↔ p.totalPeers = 1 ∧ wildcard ∉ Attribute.split p.allowedIps ∧
      ∀ n ∈ ipv4PublicNetworks, n ∈ Attribute.split p.allowedIps := by
  constructor
  · intro h
    have hone : p.totalPeers = 1 := one_of_newState_ne (by rw [h]; decide)
    have hw : wildcard ∉ Attribute.split p.allowedIps := by
      intro hw
      rw [newState_of_wildcard hone hw] at h
      cases h
    rw [newState_of_no_wildcard hone hw] at h
    split at h
    · next hpublic => exact ⟨hone, hw, hpublic⟩
    · cases h
  · rintro ⟨hone, hw, hpublic⟩
    rw [newState_of_no_wildcard hone hw, if_pos hpublic]

theorem Bound.setAllowedIps (h : p.Bound dns n) : (p.setAllowedIps value).Bound dns n :=
  ⟨h.totalPeers, h.dnsRoutes, .inl rfl⟩

theorem Bound.setTotalPeers (h : p.Bound dns n) : (p.setTotalPeers n').Bound dns n' := by
  unfold PeerProxy.setTotalPeers
  split
  · next heq => exact ⟨heq, h.dnsRoutes, h.state⟩
  · exact ⟨rfl, h.dnsRoutes, .inl rfl⟩

/-- A peer that shows excluded addresses computes its state anew, any other one was right before. -/
theorem state_setInterfaceDns (h : p.allowedIpsState = p.newState ∨ p.Misled) :
    (p.setInterfaceDns dns).allowedIpsState = (p.setInterfaceDns dns).newState := by
  by_cases hstate : p.allowedIpsState = .containsIpv4PublicNetworks
  · rw [setInterfaceDns, if_pos hstate]
    rfl
  · rw [setInterfaceDns, if_neg hstate]
    exact h.resolve_right fun hmisled => hstate hmisled.state

theorem totalPeers_setInterfaceDns : (p.setInterfaceDns dns).totalPeers = p.totalPeers := by
  unfold setInterfaceDns
  split <;> rfl

theorem Bound.setInterfaceDns (h : p.Bound dns n) : (p.setInterfaceDns dns').Bound dns' n :=
  ⟨totalPeers_setInterfaceDns.trans h.totalPeers, rfl, .inl (state_setInterfaceDns h.state)⟩

theorem bound_setInterfaceDns (h : p.allowedIpsState = p.newState) :
    (p.setInterfaceDns dns).Bound dns p.totalPeers :=
  ⟨totalPeers_setInterfaceDns, rfl, .inl (state_setInterfaceDns (.inl h))⟩

theorem bound_bind (h : p.allowedIpsState = p.newState) : (p.bind dns n).Bound dns n :=
  (bound_setInterfaceDns h).setTotalPeers

theorem Bound.wildcard_no_route (h : p.Bound dns n) : wildcard ∉ p.dnsRoutes := fun hr =>
  wildcard_facts.2.2.2 (routes_facts wildcard (h.dnsRoutes ▸ hr)).2

/-- All public networks are found in the new text. -/
theorem public_mem_excludingText (hw : wildcard ∈ Attribute.split p.allowedIps) (h : p.Bound dns n) :
    ∀ n ∈ ipv4PublicNetworks, n ∈ Attribute.split (p.excludingText true) := by
  intro n hn
  obtain ⟨A, B, hsplit, -, -, htext⟩ := excludingText_true hw
  obtain ⟨hne, -, hstripped, -⟩ := public_facts n hn
  rw [htext]
  exact Attribute.mem_split_join (comma_not_mem_excluded hsplit (h.dnsRoutes ▸ routes_facts)) hne hstripped
    (mem_excluded.mpr (.inl (.inl (.inr hn))))

/-- `0.0.0.0/0` is found in the new text. -/
theorem wildcard_mem_excludingText {n' : JString} (hn : n' ∈ ipv4PublicNetworks)
    (hmem : n' ∈ Attribute.split p.allowedIps) (h : p.Bound dns n) :
    wildcard ∈ Attribute.split (p.excludingText false) := by
  obtain ⟨A, o, B, hsplit, -, -, htext⟩ := excludingText_false hn hmem
  rw [htext]
  refine Attribute.mem_split_join (fun z hz => ?_) wildcard_facts.1 wildcard_facts.2.2.1
    (wildcard_mem_included h.wildcard_no_route)
  rcases mem_of_mem_included hsplit hz with rfl | hz
  · exact wildcard_facts.2.1
  · exact sep_not_mem_piece hz

theorem Bound.public_listed (h : p.Bound dns n) (hstate : p.allowedIpsState = .containsIpv4PublicNetworks) :
    p.totalPeers = 1 ∧ ∀ n ∈ ipv4PublicNetworks, n ∈ Attribute.split p.allowedIps := by
  rcases h.state with hnew | hmisled
  · obtain ⟨hone, -, hpublic⟩ := newState_eq_public_iff.mp (hnew ▸ hstate)
    exact ⟨hone, hpublic⟩
  · exact ⟨hmisled.one, hmisled.publicNetworks⟩

theorem Bound.wildcard_listed (h : p.Bound dns n) (hstate : p.allowedIpsState = .containsIpv4Wildcard) :
    p.totalPeers = 1 ∧ wildcard ∈ Attribute.split p.allowedIps := by
  rcases h.state with hnew | hmisled
  · exact newState_eq_wildcard_iff.mp (hnew ▸ hstate)
  · exact absurd (hstate.symm.trans hmisled.state) (by decide)

/-- What `setExcludingPrivateIps` does to a bound peer. -/
theorem setExcludingPrivateIps_cases (b : Bool) :
    (p.setExcludingPrivateIps b = p ∧
        p.allowedIpsState ≠ if b then .containsIpv4Wildcard else .containsIpv4PublicNetworks) ∨
      (p.allowedIpsState = if b then .containsIpv4Wildcard else .containsIpv4PublicNetworks) ∧
        p.setExcludingPrivateIps b = { p.setAllowedIps (p.excludingText b) with
          allowedIpsState := if b then .containsIpv4PublicNetworks else .containsIpv4Wildcard } := by
  unfold setExcludingPrivateIps isAbleToExcludePrivateIps isExcludingPrivateIps
  cases b <;> cases hstate : p.allowedIpsState <;> simp

theorem Bound.setExcludingPrivateIps (h : p.Bound dns n) (b : Bool) : (p.setExcludingPrivateIps b).Bound dns n := by
  rcases setExcludingPrivateIps_cases (p := p) b with ⟨hsame, -⟩ | ⟨hstate, hset⟩
  · rwa [hsame]
  · rw [hset]
    refine ⟨h.totalPeers, h.dnsRoutes, ?_⟩
    cases b with
    | false =>
      obtain ⟨hone, hpublic⟩ := h.public_listed hstate
      have hw := wildcard_mem_excludingText List.mem_cons_self (hpublic _ List.mem_cons_self) h
      refine .inl (Eq.symm ?_)
      exact newState_of_wildcard hone hw
    | true =>
      obtain ⟨hone, hw⟩ := h.wildcard_listed hstate
      have hpublic := public_mem_excludingText hw h
      by_cases hagain : wildcard ∈ Attribute.split (p.excludingText true)
      · exact .inr { one := hone, state := rfl, listed := hagain, publicNetworks := hpublic }
      · refine .inl (Eq.symm ?_)
        exact newState_eq_public_iff.mpr ⟨hone, hagain, hpublic⟩

/-- Where the networks are replaced, all of the old ones are there. -/
theorem Bound.capacity (h : p.Bound dns n) (b : Bool)
    (hstate : p.allowedIpsState = if b then .containsIpv4Wildcard else .containsIpv4PublicNetworks) :
    (if b then ipv4Wildcard else ipv4PublicNetworks).length ≤ p.getAllowedIpsSet.elems.length := by
  have hlisted : ∀ x ∈ if b then ipv4Wildcard else ipv4PublicNetworks, x ∈ Attribute.split p.allowedIps := by
    cases b with
    | false => exact (h.public_listed hstate).2
    | true => exact fun x hx => mem_ipv4Wildcard.mp hx ▸ (h.wildcard_listed hstate).2
  have hnodup : (if b then ipv4Wildcard else ipv4PublicNetworks).Nodup := by
    cases b <;> decide
  rw [getAllowedIpsSet, LinkedSet.addAll_eq_eraseDups]
  exact (hnodup.subperm fun x hx => List.mem_eraseDups.mpr (hlisted x hx)).length_le

end Bound

/-- The switch shows what the text and the number of peers say. -/
def Truthful (peers : Nat) (p : PeerProxy) : Prop :=
  p.isExcludingPrivateIps = { p with totalPeers := peers }.calculateAllowedIpsState.isExcludingPrivateIps ∧
    p.isAbleToExcludePrivateIps = { p with totalPeers := peers }.calculateAllowedIpsState.isAbleToExcludePrivateIps

instance (peers : Nat) (p : PeerProxy) : Decidable (p.Truthful peers) := inferInstanceAs (Decidable (_ ∧ _))

/-- One peer with `0.0.0.0/0` twice, at the end with blanks behind it, and a DNS server whose route is not
listed. -/
def Reappears (dns : JString) (peers : Nat) (p : PeerProxy) : Prop :=
  peers = 1 ∧ wildcard ∈ Attribute.split p.allowedIps ∧ p.Padded ∧
    ∃ r ∈ newDnsRoutes dns, r ∉ Attribute.split p.allowedIps

instance (dns : JString) (peers : Nat) (p : PeerProxy) : Decidable (p.Reappears dns peers) :=
  inferInstanceAs (Decidable (_ ∧ _ ∧ (∃ l ∈ (Attribute.split p.allowedIps).getLast?, _ ∧ _) ∧ _))

section Truth

variable {dns dns' value : JString} {n n' : Nat} (h : p.Bound dns n)
include h

theorem Bound.truthful_iff : p.Truthful n ↔ p.allowedIpsState = p.newState := by
  have hcalculate : { p with totalPeers := n }.calculateAllowedIpsState = { p with allowedIpsState := p.newState } := by
    rw [← h.totalPeers]
    rfl
  rw [Truthful, hcalculate]
  constructor
  · rintro ⟨hexcluding, -⟩
    refine h.state.resolve_right fun hmisled => ?_
    rw [hmisled.newState, isExcludingPrivateIps, hmisled.state] at hexcluding
    cases hexcluding
  · intro hstate
    rw [← hstate]
    exact ⟨rfl, rfl⟩

theorem Bound.truthful_setAllowedIps : (p.setAllowedIps value).Truthful n := h.setAllowedIps.truthful_iff.mpr rfl

theorem Bound.truthful_setInterfaceDns : (p.setInterfaceDns dns').Truthful n :=
  h.setInterfaceDns.truthful_iff.mpr (state_setInterfaceDns h.state)

theorem Bound.truthful_setTotalPeers (ht : p.Truthful n) : (p.setTotalPeers n').Truthful n' := by
  refine h.setTotalPeers.truthful_iff.mpr ?_
  unfold PeerProxy.setTotalPeers
  split
  · exact h.truthful_iff.mp ht
  · rfl

theorem Bound.truthful_setExcludingPrivateIps_iff (ht : p.Truthful n) (b : Bool) :
    (p.setExcludingPrivateIps b).Truthful n ↔ ¬ (b = true ∧ p.Reappears dns n) := by
  have hstate := h.truthful_iff.mp ht
  rw [(h.setExcludingPrivateIps b).truthful_iff]
  rcases setExcludingPrivateIps_cases (p := p) b with ⟨hsame, hne⟩ | ⟨hold, hset⟩
  · rw [hsame, iff_true_left hstate]
    rintro ⟨rfl, hone, hw, -⟩
    exact hne (hstate.trans (newState_of_wildcard (h.totalPeers.trans hone) hw))
  · rw [hset]
    cases b with
    | false =>
      obtain ⟨hone, hpublic⟩ := h.public_listed hold
      have hw := wildcard_mem_excludingText List.mem_cons_self (hpublic _ List.mem_cons_self) h
      rw [iff_true_right (fun hb => Bool.false_ne_true hb.1), eq_comm]
      exact newState_of_wildcard hone hw
    | true =>
      obtain ⟨hone, hw⟩ := h.wildcard_listed hold
      have hroutes := h.dnsRoutes ▸ routes_facts
      rw [Reappears, and_iff_right rfl, and_iff_right (h.totalPeers ▸ hone), and_iff_right hw, ← h.dnsRoutes,
        ← mem_excludingText_iff hw hroutes, eq_comm]
      exact newState_eq_public_iff.trans ⟨fun hnew => hnew.2.1, fun hnew => ⟨hone, hnew, public_mem_excludingText hw h⟩⟩

end Truth

theorem truthful_bind {dns : JString} {n : Nat} (h : p.allowedIpsState = p.newState) :
    (p.bind dns n).Truthful n := by
  have hdns : (p.setInterfaceDns dns).Bound dns p.totalPeers := bound_setInterfaceDns h
  exact hdns.truthful_setTotalPeers (hdns.truthful_iff.mpr (state_setInterfaceDns (.inl h)))

end PeerProxy

/-! ## Runs of the editor -/

theorem forall_mem_modify_iff {α : Type} {Q : α → Prop} {f : α → α} {xs : List α} {i : Nat} (h : ∀ x ∈ xs, Q x) :
    (∀ x ∈ xs.modify i f, Q x) ↔ ∀ x ∈ xs[i]?, Q (f x) := by
  constructor
  · intro hall x hx
    refine hall (f x) (List.mem_of_getElem? (i := i) ?_)
    rw [List.getElem?_modify_eq, hx]
    rfl
  · intro hf x hx
    obtain ⟨j, hj⟩ := List.mem_iff_getElem?.mp hx
    rw [List.getElem?_modify] at hj
    obtain ⟨y, hy, rfl⟩ := Option.map_eq_some_iff.mp hj
    split
    · next heq => exact hf y (heq ▸ hy)
    · exact h y (List.mem_of_getElem? hy)

namespace ConfigProxy

def Bound (c : ConfigProxy) : Prop := ∀ p ∈ c.peers, p.Bound c.interfaze.dnsServers c.peers.length

/-- The switch of every peer shows the truth. -/
def Truthful (c : ConfigProxy) : Prop := ∀ p ∈ c.peers, p.Truthful c.peers.length

instance (c : ConfigProxy) : Decidable c.Truthful := inferInstanceAs (Decidable (∀ p ∈ c.peers, _))

/-- Private addresses are not excluded where `0.0.0.0/0` would come back. -/
def Honest (c : ConfigProxy) : Event → Prop
  | .setExcludingPrivateIps i true => ∀ p ∈ c.peers[i]?, ¬ p.Reappears c.interfaze.dnsServers c.peers.length
  | _ => True

instance (c : ConfigProxy) : (event : Event) → Decidable (c.Honest event)
  | .setExcludingPrivateIps i true =>
    inferInstanceAs (Decidable (∀ p ∈ c.peers[i]?, ¬ p.Reappears c.interfaze.dnsServers c.peers.length))
  | .setExcludingPrivateIps _ false | .setAllowedIps .. | .setDnsServers _ | .addPeer | .removePeer _ =>
    inferInstanceAs (Decidable True)

section Step

variable {c : ConfigProxy}

theorem length_attach {p : PeerProxy} : (c.attach p).peers.length = c.peers.length + 1 := by
  rw [attach, List.length_append, List.length_map, List.length_singleton]

theorem Bound.attach (h : c.Bound) {p : PeerProxy} (hp : p.allowedIpsState = p.newState) : (c.attach p).Bound := by
  intro q hq
  rw [length_attach]
  rcases List.mem_append.mp hq with hq | hq
  · obtain ⟨r, hr, rfl⟩ := List.mem_map.mp hq
    exact (h r hr).setTotalPeers
  · rw [List.mem_singleton.mp hq]
    exact PeerProxy.bound_bind hp

/-- An event keeps the peers bound. -/
theorem bound_step (h : c.Bound) (event : Event) : (c.step event).Bound := by
  cases event with
  | setAllowedIps i value =>
    rw [Bound, step, List.length_modify]
    exact (forall_mem_modify_iff h).mpr fun p hp => (h p (List.mem_of_getElem? hp)).setAllowedIps
  | setExcludingPrivateIps i value =>
    rw [Bound, step, List.length_modify]
    exact (forall_mem_modify_iff h).mpr fun p hp => (h p (List.mem_of_getElem? hp)).setExcludingPrivateIps value
  | setDnsServers value =>
    rw [Bound, step, List.length_map, List.forall_mem_map]
    exact fun p hp => (h p hp).setInterfaceDns
  | addPeer => exact h.attach rfl
  | removePeer i =>
    rw [step]
    split
    · next hi =>
      rw [Bound, List.length_map, List.length_eraseIdx_of_lt hi, List.forall_mem_map]
      exact fun p hp => (h p (List.mem_of_mem_eraseIdx hp)).setTotalPeers
    · exact h

theorem Bound.truthful_attach (h : c.Bound) (ht : c.Truthful) {p : PeerProxy} (hp : p.allowedIpsState = p.newState) :
    (c.attach p).Truthful := by
  rw [Truthful, length_attach]
  intro q hq
  rcases List.mem_append.mp hq with hq | hq
  · obtain ⟨r, hr, rfl⟩ := List.mem_map.mp hq
    exact (h r hr).truthful_setTotalPeers (ht r hr)
  · rw [List.mem_singleton.mp hq]
    exact PeerProxy.truthful_bind hp

/-- An event keeps the switches truthful exactly if it is an honest one. -/
theorem truthful_step_iff (h : c.Bound) (ht : c.Truthful) (event : Event) :
    (c.step event).Truthful ↔ c.Honest event := by
  cases event with
  | setAllowedIps i value =>
    rw [Truthful, step, List.length_modify, forall_mem_modify_iff ht]
    exact iff_of_true (fun p hp => (h p (List.mem_of_getElem? hp)).truthful_setAllowedIps) trivial
  | setExcludingPrivateIps i value =>
    have hset : ∀ p ∈ c.peers[i]?, (p.setExcludingPrivateIps value).Truthful c.peers.length ↔
        ¬ (value = true ∧ p.Reappears c.interfaze.dnsServers c.peers.length) := fun p hp =>
      (h p (List.mem_of_getElem? hp)).truthful_setExcludingPrivateIps_iff (ht p (List.mem_of_getElem? hp)) value
    rw [Truthful, step, List.length_modify, forall_mem_modify_iff ht]
    cases value with
    | false => exact iff_of_true (fun p hp => (hset p hp).mpr fun hb => Bool.false_ne_true hb.1) trivial
    | true => exact forall₂_congr fun p hp => (hset p hp).trans (by rw [and_iff_right rfl])
  | setDnsServers value =>
    rw [Truthful, step, List.length_map, List.forall_mem_map]
    exact iff_of_true (fun p hp => (h p hp).truthful_setInterfaceDns) trivial
  | addPeer => exact iff_of_true (h.truthful_attach ht rfl) trivial
  | removePeer i =>
    refine iff_of_true ?_ trivial
    rw [step]
    split
    · next hi =>
      rw [Truthful, List.length_map, List.length_eraseIdx_of_lt hi, List.forall_mem_map]
      intro p hp
      have hp := List.mem_of_mem_eraseIdx hp
      exact (h p hp).truthful_setTotalPeers (ht p hp)
    · exact ht

end Step

section Opened

variable {P : Platform}

theorem bound_of_attach {peers : List Peer} {c : ConfigProxy} (h : c.Bound ∧ c.Truthful) :
    (peers.foldl (fun c peer => c.attach (.ofPeer P peer)) c).Bound ∧
      (peers.foldl (fun c peer => c.attach (.ofPeer P peer)) c).Truthful := by
  induction peers generalizing c with
  | nil => exact h
  | cons peer peers ih => exact ih ⟨h.1.attach rfl, h.1.truthful_attach h.2 rfl⟩

theorem bound_of_bind {interfaze : InterfaceProxy} {peers : List PeerProxy}
    (h : ∀ p ∈ peers, p.allowedIpsState = p.newState) :
    Bound ⟨interfaze, peers.map (·.bind interfaze.dnsServers peers.length)⟩ ∧
      Truthful ⟨interfaze, peers.map (·.bind interfaze.dnsServers peers.length)⟩ := by
  rw [Bound, Truthful, List.length_map, List.forall_mem_map, List.forall_mem_map]
  exact ⟨fun p hp => PeerProxy.bound_bind (h p hp), fun p hp => PeerProxy.truthful_bind (h p hp)⟩

/-- A peer that comes out of a parcel has computed its state. -/
theorem state_of_mem_readElements {n : Nat} {parcel : Parcel} {p : PeerProxy}
    (hp : p ∈ (Parcel.readElements PeerProxy.ofParcel n parcel).1) : p.allowedIpsState = p.newState := by
  induction n generalizing parcel with
  | zero => cases hp
  | succ n ih =>
    rcases List.mem_append.mp hp with hp | hp
    · split at hp
      · rw [← Option.some.inj (Option.mem_toList.mp hp)]
        rfl
      · cases hp
    · exact ih hp

theorem state_of_mem_readParcelableList {parcel : Parcel} {p : PeerProxy}
    (hp : p ∈ (Parcel.readParcelableList PeerProxy.ofParcel parcel).1) : p.allowedIpsState = p.newState := by
  unfold Parcel.readParcelableList at hp
  split at hp
  · exact state_of_mem_readElements hp
  · cases hp

theorem Opened.bound {c : ConfigProxy} (h : Opened P c) : c.Bound ∧ c.Truthful := by
  cases h with
  | init => exact ⟨List.forall_mem_nil _, List.forall_mem_nil _⟩
  | ofConfig other => exact bound_of_attach ⟨List.forall_mem_nil _, List.forall_mem_nil _⟩
  | ofParcel parcel =>
    exact bound_of_bind fun p hp => state_of_mem_readParcelableList hp

end Opened

/-- Along a run of the editor the switch of every peer shows the truth exactly if every event is an honest
one. -/
theorem switch_truthful_iff (P : Platform) (c : ConfigProxy) (h : Opened P c) (events : List Event) :
    (∀ pre, pre <+: events → (pre.foldl step c).Truthful) ↔ Along step Honest c events := by
  have hinv : ∀ c event, Bound c → Bound (step c event) := fun _ event hc => bound_step hc event
  have hstep : ∀ c event, Bound c → Truthful c → (Truthful (step c event) ↔ Honest c event) :=
    fun _ event hc ht => truthful_step_iff hc ht event
  exact Along.forall_prefix_iff hinv hstep h.bound.1 h.bound.2

def sampleEvents : List Event :=
  [.addPeer, .setAllowedIps 0 (text "::/0, 0.0.0.0/0"), .setDnsServers (text "192.0.2.1"),
    .setExcludingPrivateIps 0 true, .setDnsServers (text "192.0.2.2"), .setExcludingPrivateIps 0 false, .addPeer]

theorem truthful_sampleEvents :
    Along step Honest init sampleEvents ∧ ∀ pre, pre <+: sampleEvents → (pre.foldl step init).Truthful := by
  have hhonest : Along step Honest init sampleEvents := by decide +kernel
  exact ⟨hhonest, (switch_truthful_iff samplePlatform init .init sampleEvents).mpr hhonest⟩

/-- The second `0.0.0.0/0` has a blank behind it, so it is not replaced, and loses the blank when the route
to the server follows it. -/
theorem not_truthful :
    ¬ ([Event.addPeer, .setDnsServers (text "192.0.2.1"), .setAllowedIps 0 (text "0.0.0.0/0, 0.0.0.0/0 "),
      .setExcludingPrivateIps 0 true].foldl step init).Truthful := by
  decide +kernel

end ConfigProxy

end WgAndroid
