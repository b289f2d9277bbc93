import WgAndroid.Config.Sections

/-!
# Round trips

What becomes of an interface and of a peer that are printed and read again.

Results:
1. `Interface.survives_iff`: an interface that was parsed survives exactly when its `DNS` values name
   a server, or there are none, and its lists of applications have an end that `trim` keeps.
2. `Peer.parse_lines_toWgQuickString`: a peer that was parsed always survives.
-/

namespace WgAndroid

open Delimited

namespace Interface

/-- The same fields, sets as sets. -/
structure Same (i j : Interface) : Prop where
  addresses : ∀ n, n ∈ i.addresses.elems ↔ n ∈ j.addresses.elems
  dnsServers : ∀ a, a ∈ i.dnsServers.elems ↔ a ∈ j.dnsServers.elems
  dnsSearchDomains : ∀ d, d ∈ i.dnsSearchDomains.elems ↔ d ∈ j.dnsSearchDomains.elems
  excludedApplications : ∀ x, x ∈ i.excludedApplications.elems ↔ x ∈ j.excludedApplications.elems
  includedApplications : ∀ x, x ∈ i.includedApplications.elems ↔ x ∈ j.includedApplications.elems
  privateKey : i.privateKey = j.privateKey
  listenPort : i.listenPort = j.listenPort
  mtu : i.mtu = j.mtu

/-- The lines of the printed interface, cleaned as `Config.parse` cleans them. -/
def reread (P : Platform) (i : Interface) : List JString :=
  Config.cleanLines (readLines (i.toWgQuickString P))

/-- Printed and read again, the interface is accepted with the same fields. -/
def Survives (P : Platform) (i : Interface) : Prop :=
  ∃ j, parse P (i.reread P) = .ok j ∧ Same i j

theorem same_refl (i : Interface) : Same i i := by
  constructor <;> intros <;> rfl

/-! ## The printer kept every field -/

theorem reread_eq_quickLines {P : Platform} (hP : P.LawfulAddresses) {i : Interface}
    (h : Parsed P i) (hprint : Printable i) : i.reread P = i.quickLines P := by
  have hclean := fun l hl => cleanLine_of_mem_quickLines hP h hprint (l := l) hl
  rw [reread, toWgQuickString, readLines_unlines fun l hl c hc => ((hclean l hl).chars c hc).1,
    Config.cleanLines_eq_self hclean]

theorem survives_of_printable {P : Platform} (hP : P.LawfulAddresses) {i : Interface}
    (h : Parsed P i) (hprint : Printable i) : Survives P i := by
  refine ⟨i, ?_, same_refl i⟩
  rw [reread_eq_quickLines hP h hprint]
  exact parse_quickLines hP h hprint

/-! ## What a line becomes -/

/-- A printed attribute after the cleaning: the end of its value is trimmed. -/
theorem parse_cleanLine_line {name : String} {v : JString} {a : Attribute}
    (hkey : Attribute.IsKey (text name)) (hhash : unit '#' ∉ v)
    (hhead : ∀ c ∈ v.head?, isSpace c = false)
    (h : Attribute.parse (Config.cleanLine (Attribute.line name v)) = some a) :
    a.key = text name ∧ a.value = v.rdropWhile isTrim ∧ a.value ≠ [] := by
  obtain ⟨k, ks, hk⟩ := List.exists_cons_of_ne_nil hkey.1
  have hcut : (Attribute.line name v).takeWhile (· != unit '#') = Attribute.line name v := by
    have hsep : unit '#' ∉ text " = " := by decide
    rw [List.takeWhile_eq_self_iff]
    intro c hc
    rw [bne_iff_ne]
    rintro rfl
    simp only [Attribute.line, List.mem_append, hsep, hhash, or_false] at hc
    exact Attribute.ne_of_isWord (hkey.2 _ hc) (by decide) rfl
  have hline : Config.cleanLine (Attribute.line name v) =
      text name ++ ([unit ' '] ++ unit '=' :: (unit ' ' :: v).rdropWhile isTrim) := by
    have hdrop : (Attribute.line name v).dropWhile isTrim = Attribute.line name v := by
      refine dropWhile_of_head fun c hc => ?_
      have : c = k := by simpa [Attribute.line, hk] using hc.symm
      rw [this]
      exact Attribute.isTrim_of_isWord (hkey.2 k (hk ▸ List.mem_cons_self))
    have heq : Attribute.line name v = (text name ++ [unit ' ']) ++ unit '=' :: (unit ' ' :: v) := by
      simp [Attribute.line, text]
    rw [Config.cleanLine, hcut, trim, strip, hdrop, heq, rdropWhile_append_cons (by decide)]
    simp
  rw [hline, rdropWhile_cons (by decide)] at h
  split at h
  · -- the value was trimmed away, and no value is left to match
    have hstop : ∀ c ∈ ([unit ' '] ++ [unit '=']).head?, isWord c = false := by
      intro c hc
      cases hc
      decide
    unfold Attribute.parse at h
    rw [Attribute.AttributeLemmas.takeWhile_append_stop hkey.2 hstop,
      Attribute.AttributeLemmas.dropWhile_append_stop hkey.2 hstop] at h
    simp [show isSpace (unit ' ') = true by decide, show isSpace (unit '=') = false by decide] at h
  · next hv =>
    have hvalue : Attribute.IsValue (v.rdropWhile isTrim) :=
      ⟨hv, head_rdropWhile hhead, fun hc => hhash (mem_of_mem_rdropWhile hc)⟩
    have hparse := Attribute.parse_eq_some_iff.mpr ⟨hkey, hvalue, [unit ' '], [unit ' '], by decide,
      by decide, rfl⟩
    rw [List.singleton_append, List.singleton_append] at hparse
    rw [List.singleton_append, hparse] at h
    cases h
    exact ⟨rfl, rfl, hv⟩

/-- What the lines of a printed interface can give for a key. -/
theorem value_of_mem_entries {P : Platform} (hP : P.LawfulAddresses) {i : Interface}
    (h : Parsed P i) {key : InterfaceKey} {x : JString}
    (hx : x ∈ entries key (Config.cleanLines (i.quickLines P))) :
    (key = .dns → i.dnsValues P ≠ []) ∧
    (i.applications key ≠ [] →
      (Attribute.join (i.applications key)).rdropWhile isTrim ≠ [] ∧
      x ∈ Attribute.split ((Attribute.join (i.applications key)).rdropWhile isTrim)) := by
  obtain ⟨line, hline, a, ha, hkey, hxa⟩ := mem_entries.mp hx
  obtain ⟨l, hl, rfl⟩ := List.mem_map.mp (List.mem_of_mem_filter hline)
  obtain ⟨name, k, v, hname, hof, rfl, ⟨hv, hnil, hdns⟩ | ⟨hne, rfl⟩⟩ := quickLines_cases hP h hl
  · obtain ⟨hak, _⟩ := parse_cleanLine_line hname hv.isValue.2.2 hv.head ha
    rw [hak, hof] at hkey
    cases hkey
    exact ⟨hdns, fun hne => absurd hnil hne⟩
  · have hhash : unit '#' ∉ Attribute.join (i.applications k) := by
      intro hc
      rcases Attribute.mem_join hc with hc | hc | ⟨y, hy, hc⟩
      · exact absurd hc (by decide)
      · exact absurd hc (by decide)
      · exact (h.mem_applications y hy).2.1 hc
    obtain ⟨hak, hav, hne'⟩ := parse_cleanLine_line hname hhash
      (Attribute.head_join fun y hy => (h.mem_applications y hy).2.2) ha
    rw [hak, hof] at hkey
    cases hkey
    rw [hav] at hxa hne'
    refine ⟨?_, fun _ => ⟨hne', hxa⟩⟩
    rintro rfl
    exact absurd rfl hne

/-! ## A field that did not survive -/

/-- No piece of a line that was read and cleaned holds a line terminator or ends with a blank. -/
theorem piece_of_reread {P : Platform} {i : Interface} {key : InterfaceKey} {x : JString}
    (hx : x ∈ entries key (i.reread P)) :
    (∀ c ∈ x, isBreak c = false) ∧ ∀ c ∈ x.getLast?, isSpace c = false := by
  obtain ⟨line, hline, a, ha, _, hxa⟩ := mem_entries.mp hx
  obtain ⟨l, hl, rfl⟩ := List.mem_map.mp (List.mem_of_mem_filter hline)
  refine ⟨fun c hc => ?_, piece_last (fun c hc => ?_) hxa⟩
  · have hmem := (Attribute.isValue_of_parse ha).2 c (mem_of_mem_piece hxa hc)
    exact readLines_no_break hl c (List.takeWhile_subset _ (mem_of_mem_strip hmem))
  · rw [Attribute.getLast_value ha] at hc
    exact isSpace_of_isTrim_false ((strip_stripped isTrim _).2 c hc)

section Necessary

variable {P : Platform} (hP : P.LawfulAddresses) {i j : Interface} (h : Parsed P i)
  (hj : parse P (i.reread P) = .ok j) (hsame : Same i j)
include hj hsame

theorem mem_entries_of_mem_applications {key : InterfaceKey} {x : JString}
    (hx : x ∈ i.applications key) : x ∈ entries key (i.reread P) := by
  refine mem_entries_of_parse hj ?_
  cases key with
  | excludedApplications => exact (hsame.excludedApplications x).mp hx
  | includedApplications => exact (hsame.includedApplications x).mp hx
  | _ => cases hx

theorem no_break_of_survives {key : InterfaceKey} : ∀ x ∈ i.applications key,
    (∀ c ∈ x, isBreak c = false) ∧ ∀ c ∈ x.getLast?, isSpace c = false :=
  fun _ hx => piece_of_reread (mem_entries_of_mem_applications hj hsame hx)

include hP h

/-- Since no application holds a line terminator, the lines are read as they were printed. -/
theorem reread_of_survives : i.reread P = Config.cleanLines (i.quickLines P) := by
  rw [reread, toWgQuickString, readLines_unlines]
  exact quickLines_no_break hP h fun _ x hx => (no_break_of_survives hj hsame x hx).1

/-- The last application ends with a character that `trim` keeps, or it would be cut. -/
theorem last_of_survives {key : InterfaceKey} (hnodup : (i.applications key).Nodup) :
    ∀ x ∈ (i.applications key).getLast?, ∃ c ∈ x.getLast?, isTrim c = false := by
  intro x hx
  obtain ⟨ys, hys⟩ := List.getLast?_eq_some_iff.mp hx
  have hmem : x ∈ entries key (Config.cleanLines (i.quickLines P)) := by
    rw [← reread_of_survives hP h hj hsame]
    exact mem_entries_of_mem_applications hj hsame (List.mem_of_mem_getLast? hx)
  have hne : i.applications key ≠ [] := by
    rintro hnil
    rw [hnil] at hx
    cases hx
  obtain ⟨hcut, hsplit⟩ := (value_of_mem_entries hP h hmem).2 hne
  have happ : ∀ y ∈ i.applications key, _ := h.mem_applications
  have hspace : ∀ y ∈ i.applications key, _ := no_break_of_survives hj hsame
  rw [hys] at hcut hsplit hnodup happ hspace
  refine last_of_mem_splitTrimmed (by decide : isSpace (unit ' ') = true)
    (by decide : unit ' ' ≠ unit ',') (by decide) (fun y hy => ?_) (fun y hy => (happ y hy).1)
    (fun hxy => (List.nodup_append.mp hnodup).2.2 x hxy x (by simp) rfl) hcut hsplit
  have hy' : y ∈ ys ++ [x] := List.mem_append_left _ hy
  exact ⟨(happ y hy').2.2, (hspace y hy').2⟩

theorem dns_of_survives : i.dnsSearchDomains.elems = [] ∨ i.dnsServers.elems ≠ [] := by
  by_contra hdns
  simp only [not_or, not_not] at hdns
  obtain ⟨hdomains, hservers⟩ := hdns
  obtain ⟨d, hd⟩ := List.exists_mem_of_ne_nil _ hdomains
  obtain ⟨_, ⟨found, hfound, _, hjdomains⟩, _⟩ := parse_effect hj
  have hmem := (hsame.dnsSearchDomains d).mp hd
  rw [hjdomains] at hmem
  obtain ⟨e, he, _⟩ := List.mem_filterMap.mp (LinkedSet.mem_of_mem_addAll_empty hmem)
  obtain ⟨s, hs, _⟩ := Checked.exists_of_mem_right hfound he
  rw [reread_of_survives hP h hj hsame] at hs
  refine (value_of_mem_entries hP h hs).1 rfl ?_
  simp [dnsValues, LinkedSet.isEmpty, hservers]

end Necessary

theorem nodup_applications (i : Interface) (key : InterfaceKey) : (i.applications key).Nodup := by
  cases key with
  | excludedApplications => exact i.excludedApplications.nodup
  | includedApplications => exact i.includedApplications.nodup
  | _ => exact List.nodup_nil

/-- A parsed interface survives exactly when the printer writes all of its fields. -/
theorem survives_iff_printable {P : Platform} (hP : P.LawfulAddresses) {i : Interface}
    (h : Parsed P i) : Survives P i ↔ Printable i := by
  refine ⟨?_, survives_of_printable hP h⟩
  rintro ⟨j, hj, hsame⟩
  have hlist : ∀ key, PrintableList (i.applications key) := fun key =>
    ⟨fun x hx => (no_break_of_survives hj hsame x hx).1,
      fun x hx => (no_break_of_survives hj hsame x hx).2,
      last_of_survives hP h hj hsame (nodup_applications i key)⟩
  exact ⟨dns_of_survives hP h hj hsame, hlist .excludedApplications, hlist .includedApplications⟩

/-! ## The condition on the lines -/

/-- Among the `DNS` values is a numeric address, or there are none. -/
def DnsKept (P : Platform) (lines : List JString) : Prop :=
  entries .dns lines = [] ∨ ∃ s ∈ entries .dns lines, (InetAddresses.parse P s).isOk = true

theorem dnsKept_iff {P : Platform} {lines : List JString} {i : Interface}
    (h : parse P lines = .ok i) :
    DnsKept P lines ↔ i.dnsSearchDomains.elems = [] ∨ i.dnsServers.elems ≠ [] := by
  obtain ⟨_, ⟨found, hfound, hservers, hdomains⟩, _⟩ := parse_effect h
  rw [hservers, hdomains, LinkedSet.addAll_elems_eq_nil_iff, ne_eq,
    LinkedSet.addAll_elems_eq_nil_iff]
  constructor
  · rintro (hnil | ⟨s, hs, hok⟩)
    · rw [hnil, List.forall₂_nil_left_iff] at hfound
      exact .inl (by simp [hfound])
    · obtain ⟨a, ha⟩ : ∃ a, InetAddresses.parse P s = .ok a := by
        cases hparse : InetAddresses.parse P s with
        | error e => rw [hparse] at hok; cases hok
        | ok a => exact ⟨a, rfl⟩
      obtain ⟨e, he, hse⟩ := Checked.exists_of_mem_left hfound hs
      rw [InterfaceBuilder.parseDnsServer, ha] at hse
      cases hse
      exact .inr (List.ne_nil_of_mem (List.mem_filterMap.mpr ⟨_, he, rfl⟩))
  · intro hkept
    by_cases hnil : found.filterMap Sum.getLeft? = []
    · have hright := hkept.resolve_right (not_not_intro hnil)
      -- every entry is a server or a domain, so there was none
      refine .inl ?_
      cases found with
      | nil => exact List.forall₂_nil_right_iff.mp hfound
      | cons e found => cases e <;> simp at hnil hright
    · obtain ⟨a, ha⟩ := List.exists_mem_of_ne_nil _ hnil
      obtain ⟨e, he, hea⟩ := List.mem_filterMap.mp ha
      obtain ⟨s, hs, hse⟩ := Checked.exists_of_mem_right hfound he
      rw [Sum.getLeft?_eq_some_iff] at hea
      rw [hea, parseDnsServer_inl] at hse
      exact .inr ⟨s, hs, by rw [hse]; rfl⟩

/-- An interface that was parsed from `lines`, printed, cleaned and parsed again has the same fields
exactly when `lines` name a DNS server or no DNS entry at all, and neither list of applications
has a piece with a line terminator, a piece with a blank at its end, or a last piece that is empty
or ends with a character that `trim` removes. -/
theorem survives_iff {P : Platform} (hP : P.LawfulAddresses) {lines : List JString} {i : Interface}
    (h : parse P lines = .ok i) :
    Survives P i ↔ DnsKept P lines ∧
      PrintableList (entries .excludedApplications lines).eraseDups ∧
      PrintableList (entries .includedApplications lines).eraseDups := by
  obtain ⟨_, _, hexcluded, hincluded⟩ := parse_effect h
  rw [survives_iff_printable hP (parsed_of_parse h), dnsKept_iff h,
    ← LinkedSet.addAll_eq_eraseDups, ← LinkedSet.addAll_eq_eraseDups, ← hexcluded, ← hincluded]
  exact ⟨fun h => ⟨h.dns, h.excluded, h.included⟩, fun ⟨h₁, h₂, h₃⟩ => ⟨h₁, h₂, h₃⟩⟩

/-- A section with a search domain and a DNS server. -/
def sampleServerLines : List JString :=
  [text "PrivateKey = TFlmmEUC7V7VtiDYLKsbP5rySTKLIZq1yn8lMqK83wo=",
   text "DNS = 192.0.2.0, example.com"]

theorem survives_sampleServerLines :
    ∃ i, parse samplePlatform sampleServerLines = .ok i ∧ Survives samplePlatform i := by
  have hok : (parse samplePlatform sampleServerLines).isOk = true := by decide +kernel
  cases h : parse samplePlatform sampleServerLines with
  | error e => rw [h] at hok; cases hok
  | ok i =>
    refine ⟨i, rfl, (survives_iff samplePlatform_lawfulAddresses h).mpr ⟨.inr ?_, ?_, ?_⟩⟩
    · exact ⟨text "192.0.2.0", by decide +kernel, by decide +kernel⟩
    · have : entries .excludedApplications sampleServerLines = [] := by decide +kernel
      rw [this]
      exact ⟨by simp, by simp, by simp⟩
    · have : entries .includedApplications sampleServerLines = [] := by decide +kernel
      rw [this]
      exact ⟨by simp, by simp, by simp⟩

/-- A section with a search domain only. -/
def sampleDomainLines : List JString :=
  [text "PrivateKey = TFlmmEUC7V7VtiDYLKsbP5rySTKLIZq1yn8lMqK83wo=", text "DNS = example.com"]

/-- The search domain is accepted, but the printer writes `DNS` only next to a server. -/
theorem sampleDomainLines_lost : samplePlatform.LawfulAddresses ∧
    ∃ i, parse samplePlatform sampleDomainLines = .ok i ∧
      i.dnsSearchDomains.elems = [text "example.com"] ∧ ¬ Survives samplePlatform i := by
  refine ⟨samplePlatform_lawfulAddresses, ?_⟩
  have hok : (parse samplePlatform sampleDomainLines).map (fun i => i.dnsSearchDomains.elems) =
      .ok [text "example.com"] := by decide +kernel
  cases h : parse samplePlatform sampleDomainLines with
  | error e => rw [h] at hok; cases hok
  | ok i =>
    rw [h] at hok
    have hdomains : i.dnsSearchDomains.elems = [text "example.com"] := Except.ok.inj hok
    refine ⟨i, rfl, hdomains, ?_⟩
    rw [survives_iff_printable samplePlatform_lawfulAddresses (parsed_of_parse h)]
    intro hprint
    have hkept := (dnsKept_iff h).mpr hprint.dns
    have hnot : entries .dns sampleDomainLines ≠ [] ∧ ∀ s ∈ entries .dns sampleDomainLines,
        (InetAddresses.parse samplePlatform s).isOk = false := by decide +kernel
    rcases hkept with hnil | ⟨s, hs, hparse⟩
    · exact hnot.1 hnil
    · rw [hnot.2 s hs] at hparse
      cases hparse

end Interface

namespace Peer

/-- A peer that was parsed, printed and parsed again is the same. -/
theorem parse_lines_toWgQuickString {P : Platform} (hP : P.LawfulAddresses) (hU : P.LawfulUri)
    {lines : List JString} {p : Peer} (h : parse P lines = .ok p) :
    parse P (readLines (p.toWgQuickString P)) = .ok p := by
  have hparsed := parsed_of_parse h
  have hclean := fun l hl => cleanLine_of_mem_quickLines hP hU hparsed (l := l) hl
  rw [toWgQuickString, readLines_unlines fun l hl c hc => ((hclean l hl).chars c hc).1]
  exact parse_quickLines hP hU hparsed

/-- A peer with every attribute. -/
def samplePeerLines : List JString :=
  [text "AllowedIPs = 0.0.0.0/0, ::0/0", text "Endpoint = 192.0.2.1:51820",
   text "PersistentKeepalive = 25",
   text "PublicKey = vBN7qyUTb5lJtWYJ8LhbPio1Z4RcyBPGnqFBGn6O6Qg=",
   text "PreSharedKey = TFlmmEUC7V7VtiDYLKsbP5rySTKLIZq1yn8lMqK83wo="]

theorem parse_samplePeerLines :
    ∃ p, parse samplePlatform samplePeerLines = .ok p ∧
      parse samplePlatform (readLines (p.toWgQuickString samplePlatform)) = .ok p := by
  have hok : (parse samplePlatform samplePeerLines).isOk = true := by decide +kernel
  cases h : parse samplePlatform samplePeerLines with
  | error e => rw [h] at hok; cases hok
  | ok p =>
    exact ⟨p, rfl,
      parse_lines_toWgQuickString samplePlatform_lawfulAddresses samplePlatform_lawfulUri h⟩

end Peer

end WgAndroid
