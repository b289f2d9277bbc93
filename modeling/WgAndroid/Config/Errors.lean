import WgAndroid.Config.Sections

/-!
# What a rejected file is blamed on

A `BadConfigException` names a section, a location in it and a reason. When the location is an
attribute and the reason is about a value, the section has a line with that attribute whose value is
rejected with that error, with one exception: `setMtu` reports a negative MTU as a wrong listen port.

Results:
1. `parseLines_error`: an error comes from the shape of the file, a [Peer] section or the
   [Interface] lines.
2. `culprit_iff`: when the location of an error is the one of a line that is rejected with it.
-/

namespace WgAndroid

def InterfaceKey.location : InterfaceKey → Location
  | address => .address
  | dns => .dns
  | excludedApplications => .excludedApplications
  | includedApplications => .includedApplications
  | listenPort => .listenPort
  | mtu => .mtu
  | privateKey => .privateKey

def PeerKey.location : PeerKey → Location
  | allowedIps => .allowedIps
  | endpoint => .endpoint
  | persistentKeepalive => .persistentKeepalive
  | preSharedKey => .preSharedKey
  | publicKey => .publicKey

/-- The attributes that have values which are checked. -/
def Location.isAttribute : Location → Bool
  | topLevel | excludedApplications | includedApplications => false
  | _ => true

/-- The reasons that are about a value. -/
def Reason.isInvalid : Reason → Bool
  | invalidKey | invalidNumber | invalidValue => true
  | _ => false

/-- The error is about the value of an attribute. -/
structure BadConfigException.OfValue (e : BadConfigException) : Prop where
  location : e.location.isAttribute = true
  reason : e.reason.isInvalid = true

/-! ## The [Interface] section -/

namespace Interface

open InterfaceBuilder

/-- The line has the attribute that the error is located at, and its value is rejected with that error
wherever the line stands. -/
def Rejected (P : Platform) (e : BadConfigException) (line : JString) : Prop :=
  ∃ attr key, Attribute.parse line = some attr ∧ InterfaceKey.ofText attr.key = some key ∧
    key.location = e.location ∧ ∀ b, parseValue P b attr.value key = .error e

/-- The line gives a number to an attribute. -/
def HasNumber (key : InterfaceKey) (i : Int) (line : JString) : Prop :=
  ∃ attr, Attribute.parse line = some attr ∧ InterfaceKey.ofText attr.key = some key ∧
    parseInt attr.value = some i

/-- The first line that is not accepted has a negative MTU. -/
def StopsAtMtu (P : Platform) (lines : List JString) (i : Int) : Prop :=
  i < 0 ∧ ∃ pre line post b, lines = pre ++ line :: post ∧
    pre.foldlM (parseLine P) .init = .ok b ∧ HasNumber .mtu i line

/-- What `setMtu` and `setListenPort` throw for a negative number. -/
def negativePort (i : Int) : BadConfigException :=
  ⟨.interface, .listenPort, .invalidValue, some (valueOf i)⟩

theorem parseMtu_negative {b : InterfaceBuilder} {v : JString} {i : Int} (hi : i < 0)
    (h : parseInt v = some i) : b.parseMtu v = .error (negativePort i) := by
  unfold parseMtu
  split
  · next j hj =>
    obtain rfl : i = j := Option.some.inj (h.symm.trans hj)
    rw [setMtu, dif_pos hi]
    rfl
  · next hnone => cases h.symm.trans hnone

theorem parseListenPort_negative {b : InterfaceBuilder} {v : JString} {i : Int} (hi : i < 0)
    (h : parseInt v = some i) : b.parseListenPort v = .error (negativePort i) := by
  simp only [parseListenPort, h]
  rw [setListenPort, dif_pos (.inl hi)]
  rfl

/-- An error does not depend on the lines before. It is located at the attribute, or it is the one for
a negative MTU. -/
theorem parseValue_error {P : Platform} {b : InterfaceBuilder} {v : JString} {key : InterfaceKey}
    {e : BadConfigException} (h : parseValue P b v key = .error e) :
    e.sect = .interface ∧ (∀ b', parseValue P b' v key = .error e) ∧
      (key.location = e.location ∨ key = .mtu ∧ ∃ i < 0, parseInt v = some i) := by
  cases key with
  | address =>
    simp only [parseValue, parseAddresses, wrap, Checked.bind_eq_error] at h ⊢
    rcases h with h | ⟨_, _, h⟩
    · obtain ⟨_, _, rfl⟩ := Checked.mapError_eq_error.mp h
      exact ⟨rfl, fun _ => .inl h, .inl rfl⟩
    · cases h
  | dns =>
    simp only [parseValue, parseDnsServers, wrap, Checked.bind_eq_error] at h ⊢
    rcases h with h | ⟨_, _, h⟩
    · obtain ⟨_, _, rfl⟩ := Checked.mapError_eq_error.mp h
      exact ⟨rfl, fun _ => .inl h, .inl rfl⟩
    · cases h
  | excludedApplications => cases h
  | includedApplications => cases h
  | listenPort =>
    simp only [parseValue, parseListenPort, setListenPort] at h ⊢
    split at h
    · split at h
      · next hrange =>
        cases h
        exact ⟨rfl, fun _ => dif_pos hrange, .inl rfl⟩
      · cases h
    · cases h
      exact ⟨rfl, fun _ => rfl, .inl rfl⟩
  | mtu =>
    simp only [parseValue, parseMtu] at h
    split at h
    · next i hi =>
      rw [setMtu] at h
      split at h
      · next hneg =>
        cases h
        exact ⟨rfl, fun _ => parseMtu_negative hneg hi, .inr ⟨rfl, i, hneg, hi⟩⟩
      · cases h
    · next hnone =>
      cases h
      refine ⟨rfl, fun b' => ?_, .inl rfl⟩
      rw [parseValue, parseMtu]
      split
      · next hsome => cases hnone.symm.trans hsome
      · rfl
  | privateKey =>
    simp only [parseValue, parsePrivateKey] at h ⊢
    split at h
    · cases h
    · cases h
      exact ⟨rfl, fun _ => rfl, .inl rfl⟩

theorem parseLine_error {P : Platform} {b : InterfaceBuilder} {line : JString}
    {e : BadConfigException} (he : e.OfValue) (h : parseLine P b line = .error e) :
    ∃ attr key, Attribute.parse line = some attr ∧ InterfaceKey.ofText attr.key = some key ∧
      parseValue P b attr.value key = .error e := by
  unfold parseLine at h
  split at h
  · cases h
    cases he.reason
  · next attr hattr =>
    split at h
    · next key hkey => exact ⟨attr, key, hattr, hkey, h⟩
    · cases h
      cases he.reason

theorem build_error {b : InterfaceBuilder} {e : BadConfigException} (h : b.build = .error e) :
    ¬ e.OfValue := by
  intro he
  unfold build at h
  split at h
  · cases h
    cases he.reason
  · split at h
    · cases h
      cases he.location
    · cases h

/-- The line that was rejected. -/
theorem parse_error {P : Platform} {lines : List JString} {e : BadConfigException} (he : e.OfValue)
    (h : parse P lines = .error e) :
    ∃ pre line post b, lines = pre ++ line :: post ∧ pre.foldlM (parseLine P) .init = .ok b ∧
      parseLine P b line = .error e := by
  rcases Checked.bind_eq_error.mp h with h | ⟨b, -, h⟩
  · exact Checked.foldlM_eq_error.mp h
  · exact absurd he (build_error h)

theorem parse_of_stopsAtMtu {P : Platform} {lines : List JString} {i : Int}
    (h : StopsAtMtu P lines i) : parse P lines = .error (negativePort i) := by
  obtain ⟨hi, pre, line, post, b, hlines, hpre, attr, hattr, hkey, hnumber⟩ := h
  have hline : parseLine P b line = .error (negativePort i) := by
    simp only [parseLine, hattr, hkey]
    exact parseMtu_negative hi hnumber
  rw [parse, Checked.foldlM_eq_error.mpr ⟨pre, line, post, b, hlines, hpre, hline⟩]
  rfl

theorem rejected_negativePort_iff {P : Platform} {i : Int} (hi : i < 0) {line : JString} :
    Rejected P (negativePort i) line ↔ HasNumber .listenPort i line := by
  constructor
  · rintro ⟨attr, key, hattr, hkey, hlocation, h⟩
    obtain rfl : key = .listenPort := by cases key <;> first | rfl | cases hlocation
    refine ⟨attr, hattr, hkey, ?_⟩
    have h := h .init
    simp only [parseValue, parseListenPort] at h
    split at h
    · next j hj =>
      rw [setListenPort] at h
      split at h
      · rw [hj, valueOf_injective (Option.some.inj (congrArg BadConfigException.text
          (Except.error.inj h)))]
      · cases h
    · cases congrArg BadConfigException.reason (Except.error.inj h)
  · rintro ⟨attr, hattr, hkey, hnumber⟩
    exact ⟨attr, .listenPort, hattr, hkey, rfl, fun b => parseListenPort_negative hi hnumber⟩

/-- A line with the attribute that the error is located at is rejected with it, unless the first line
that is not accepted has a negative MTU and no listen port has the same number. -/
theorem rejected_iff {P : Platform} {lines : List JString} {e : BadConfigException} (he : e.OfValue)
    (h : parse P lines = .error e) :
    (∃ line ∈ lines, Rejected P e line) ↔
      ∀ i, StopsAtMtu P lines i → ∃ line ∈ lines, HasNumber .listenPort i line := by
  constructor
  · rintro ⟨line, hmem, hrejected⟩ i hstops
    obtain rfl : e = negativePort i :=
      Except.error.inj (h.symm.trans (parse_of_stopsAtMtu hstops))
    exact ⟨line, hmem, (rejected_negativePort_iff hstops.1).mp hrejected⟩
  · intro hport
    obtain ⟨pre, line, post, b, hlines, hpre, hline⟩ := parse_error he h
    obtain ⟨attr, key, hattr, hkey, hvalue⟩ := parseLine_error he hline
    obtain ⟨-, hall, hlocation | ⟨rfl, i, hi, hnumber⟩⟩ := parseValue_error hvalue
    · exact ⟨line, by rw [hlines]; simp, attr, key, hattr, hkey, hlocation, hall⟩
    · have hstops : StopsAtMtu P lines i :=
        ⟨hi, pre, line, post, b, hlines, hpre, attr, hattr, hkey, hnumber⟩
      obtain rfl : e = negativePort i :=
        Except.error.inj (h.symm.trans (parse_of_stopsAtMtu hstops))
      obtain ⟨line', hmem, hline'⟩ := hport i hstops
      exact ⟨line', hmem, (rejected_negativePort_iff hi).mpr hline'⟩

theorem sect_of_parse {P : Platform} {lines : List JString} {e : BadConfigException}
    (he : e.OfValue) (h : parse P lines = .error e) : e.sect = .interface := by
  obtain ⟨pre, line, post, b, -, -, hline⟩ := parse_error he h
  obtain ⟨attr, key, -, -, hvalue⟩ := parseLine_error he hline
  exact (parseValue_error hvalue).1

end Interface

/-! ## The [Peer] section -/

namespace Peer

open PeerBuilder

/-- The line has the attribute that the error is located at, and its value is rejected with that error
wherever the line stands. -/
def Rejected (P : Platform) (e : BadConfigException) (line : JString) : Prop :=
  ∃ attr key, Attribute.parse line = some attr ∧ PeerKey.ofText attr.key = some key ∧
    key.location = e.location ∧ ∀ b, parseValue P b attr.value key = .error e

theorem parseValue_error {P : Platform} {b : PeerBuilder} {v : JString} {key : PeerKey}
    {e : BadConfigException} (h : parseValue P b v key = .error e) :
    e.sect = .peer ∧ (∀ b', parseValue P b' v key = .error e) ∧ key.location = e.location := by
  cases key with
  | allowedIps =>
    simp only [parseValue, parseAllowedIPs, Checked.bind_eq_error] at h ⊢
    rcases h with h | ⟨_, _, h⟩
    · obtain ⟨_, _, rfl⟩ := Checked.mapError_eq_error.mp h
      exact ⟨rfl, fun _ => .inl h, rfl⟩
    · cases h
  | endpoint =>
    simp only [parseValue, parseEndpoint, Checked.bind_eq_error] at h ⊢
    rcases h with h | ⟨_, _, h⟩
    · obtain ⟨_, _, rfl⟩ := Checked.mapError_eq_error.mp h
      exact ⟨rfl, fun _ => .inl h, rfl⟩
    · cases h
  | persistentKeepalive =>
    simp only [parseValue, parsePersistentKeepalive, setPersistentKeepalive] at h ⊢
    split at h
    · split at h
      · next hrange =>
        cases h
        exact ⟨rfl, fun _ => dif_pos hrange, rfl⟩
      · cases h
    · cases h
      exact ⟨rfl, fun _ => rfl, rfl⟩
  | preSharedKey =>
    simp only [parseValue, parsePreSharedKey] at h ⊢
    split at h
    · cases h
    · cases h
      exact ⟨rfl, fun _ => rfl, rfl⟩
  | publicKey =>
    simp only [parseValue, parsePublicKey] at h ⊢
    split at h
    · cases h
    · cases h
      exact ⟨rfl, fun _ => rfl, rfl⟩

theorem build_error {b : PeerBuilder} {e : BadConfigException} (h : b.build = .error e) :
    ¬ e.OfValue := by
  intro he
  unfold build at h
  split at h
  · cases h
    cases he.reason
  · cases h

theorem parseLine_error {P : Platform} {b : PeerBuilder} {line : JString}
    {e : BadConfigException} (he : e.OfValue) (h : parseLine P b line = .error e) :
    e.sect = .peer ∧ Rejected P e line := by
  unfold parseLine at h
  split at h
  · cases h
    cases he.reason
  · next attr hattr =>
    split at h
    · next key hkey =>
      obtain ⟨hsect, hall, hlocation⟩ := parseValue_error h
      exact ⟨hsect, attr, key, hattr, hkey, hlocation, hall⟩
    · cases h
      cases he.reason

theorem rejected_of_parse {P : Platform} {lines : List JString} {e : BadConfigException}
    (he : e.OfValue) (h : parse P lines = .error e) :
    e.sect = .peer ∧ ∃ line ∈ lines, Rejected P e line := by
  rcases Checked.bind_eq_error.mp h with h | ⟨b, -, h⟩
  · obtain ⟨pre, line, post, b, rfl, -, hline⟩ := Checked.foldlM_eq_error.mp h
    obtain ⟨hsect, hrejected⟩ := parseLine_error he hline
    exact ⟨hsect, line, by simp, hrejected⟩
  · exact absurd he (build_error h)

end Peer

/-! ## The file -/

namespace Config

open SectionsLemmas

/-- The section that the error names has a line with the attribute it is located at, and the value of
that line is rejected with the error. -/
def Culprit (P : Platform) (lines : List JString) (e : BadConfigException) : Prop :=
  match e.sect with
  | .config => False
  | .interface => ∃ line ∈ interfaceLines lines, Interface.Rejected P e line
  | .peer => ∃ body ∈ peerSections lines, ∃ line ∈ body, Peer.Rejected P e line

namespace SectionsLemmas

/-- The errors of the two places that consume the lines of a peer are those of its section. -/
theorem remaining_of_parsePeer_error {P : Platform} {s : Loop} {ls : List JString}
    {e : BadConfigException} (hin : s.inPeerSection = true) (h : s.parsePeer P = .error e)
    (hbody : body ls = []) : remaining P s ls = .error e := by
  rcases Checked.bind_eq_error.mp h with hpeer | ⟨_, -, h⟩
  · simp [remaining, openPeer, hin, hbody, hpeer]
  · cases h

theorem remaining_of_flush_error {P : Platform} {s : Loop} {ls : List JString}
    {e : BadConfigException} (h : s.flush P = .error e) (hbody : body ls = []) :
    remaining P s ls = .error e := by
  unfold Loop.flush at h
  split at h
  · next hin =>
    rcases Checked.bind_eq_error.mp h with h | ⟨_, -, h⟩
    · exact remaining_of_parsePeer_error hin h hbody
    · cases h
  · cases h

theorem finish_error {P : Platform} {s : Loop} {e : BadConfigException} (h : s.finish P = .error e) :
    e.location = .topLevel ∨ remaining P s [] = .error e := by
  cases hseen : s.seenInterfaceSection with
  | true => exact .inr (finish_eq_remaining hseen ▸ h)
  | false =>
    rcases Checked.bind_eq_error.mp h with h | ⟨s', hs', h⟩
    · unfold Loop.close at h
      split at h
      · next hin => exact .inr (remaining_of_parsePeer_error hin h rfl)
      · cases h
    · left
      rw [close_seen hs', hseen] at h
      cases h
      rfl

/-- An error of the loop is about the shape of the file, or the sections have it too. -/
theorem foldlM_error {P : Platform} {ls : List JString} {s : Loop} {e : BadConfigException}
    (hs : Inv s) (h : (ls.foldlM (Loop.step P) s >>= fun s => s.finish P) = .error e) :
    e.location = .topLevel ∨ remaining P s ls = .error e := by
  induction ls generalizing s with
  | nil =>
    rw [List.foldlM_nil, pure_bind] at h
    exact finish_error h
  | cons l ls ih =>
    rw [List.foldlM_cons, bind_assoc] at h
    cases hheader : isHeader l with
    | true =>
      by_cases hknown : isInterfaceHeader l = true ∨ isPeerHeader l = true
      · rw [step_of_header hheader hknown, bind_assoc] at h
        cases hflush : s.flush P with
        | error e' =>
          rw [hflush] at h
          cases h
          exact .inr (remaining_of_flush_error hflush (body_of_header hheader))
        | ok s' =>
          rw [hflush] at h
          rw [← remaining_header hs hheader hknown, hflush]
          exact ih (inv_enter ((flush_fields hflush).2 hs)) h
      · -- the header is reported after the peer before it, which may have an error of its own
        rw [not_or] at hknown
        simp only [Loop.step, if_pos hheader, if_neg hknown.1, if_neg hknown.2, bind_assoc] at h
        rcases Checked.bind_eq_error.mp h with hflush | ⟨_, -, h⟩
        · exact .inr (remaining_of_flush_error hflush (body_of_header hheader))
        · cases h
          exact .inl rfl
    | false =>
      by_cases hin : s.inInterfaceSection = true ∨ s.inPeerSection = true
      · obtain ⟨s', hstep, hs', -, -, -, hrem⟩ := @remaining_line P s l ls hs hheader hin
        rw [hstep] at h
        rw [← hrem]
        exact ih hs' h
      · left
        rw [not_or] at hin
        rw [Loop.step, if_neg (by simp [hheader]), if_neg hin.1, if_neg hin.2] at h
        cases h
        rfl

end SectionsLemmas

/-- An error comes from the shape of the file, a [Peer] section or, if no [Peer] section has one, the
[Interface] lines. -/
theorem parseLines_error {P : Platform} {lines : List JString} {e : BadConfigException}
    (h : parseLines P lines = .error e) :
    e.location = .topLevel ∨
      (∃ body ∈ peerSections (cleanLines lines), Peer.parse P body = .error e) ∨
      (∀ body ∈ peerSections (cleanLines lines), ∃ p, Peer.parse P body = .ok p) ∧
        Interface.parse P (interfaceLines (cleanLines lines)) = .error e := by
  rw [parseLines, foldlM_next] at h
  refine (foldlM_error ⟨by simp [Loop.init], fun _ => rfl⟩ h).imp_right fun h => ?_
  rcases Checked.bind_eq_error.mp h with h | ⟨peers, hpeers, h⟩
  · exact .inl (Checked.exists_of_mapM_eq_error h)
  · rcases Checked.bind_eq_error.mp h with h | ⟨_, -, h⟩
    · refine .inr ⟨fun body hbody => ?_, h⟩
      obtain ⟨p, -, hp⟩ := Checked.exists_of_mem_left (Checked.mapM_eq_ok.mp hpeers) hbody
      exact ⟨p, hp⟩
    · cases h

/-- All [Peer] sections are accepted, the first [Interface] line that is not has a negative MTU, and no
listen port has the same number. -/
def NegativeMtu (P : Platform) (lines : List JString) : Prop :=
  (∀ body ∈ peerSections lines, ∃ p, Peer.parse P body = .ok p) ∧
    ∃ i, Interface.StopsAtMtu P (interfaceLines lines) i ∧
      ∀ line ∈ interfaceLines lines, ¬ Interface.HasNumber .listenPort i line

/-- An error about a value is located at an attribute of its section whose value is rejected with it,
unless the file has a negative MTU. -/
theorem culprit_iff {P : Platform} {input : JString} {e : BadConfigException}
    (h : parse P input = .error e) (he : e.OfValue) :
    Culprit P (cleanLines (readLines input)) e ↔ ¬ NegativeMtu P (cleanLines (readLines input)) := by
  rcases parseLines_error h with htop | ⟨body, hbody, h⟩ | ⟨hpeers, h⟩
  · cases htop ▸ he.location
  · obtain ⟨hsect, hline⟩ := Peer.rejected_of_parse he h
    have hnot : ¬ NegativeMtu P (cleanLines (readLines input)) := by
      rintro ⟨hpeers, -⟩
      obtain ⟨p, hp⟩ := hpeers body hbody
      cases h.symm.trans hp
    simp only [Culprit, hsect]
    exact iff_of_true ⟨body, hbody, hline⟩ hnot
  · have hnegative : NegativeMtu P (cleanLines (readLines input)) ↔ _ := and_iff_right hpeers
    rw [hnegative]
    simp only [Culprit, Interface.sect_of_parse he h]
    rw [Interface.rejected_iff he h]
    push Not
    rfl

/-- A keepalive interval that is out of range is reported at its line. -/
theorem culprit_keepalive :
    Culprit samplePlatform
      (cleanLines (readLines (text "[Interface]\nMTU = -1\n[Peer]\nPersistentKeepalive = -1\n")))
      ⟨.peer, .persistentKeepalive, .invalidValue, some (text "-1")⟩ := by
  have heval : (parse samplePlatform
        (text "[Interface]\nMTU = -1\n[Peer]\nPersistentKeepalive = -1\n")).map (fun _ => ()) =
        .error ⟨.peer, .persistentKeepalive, .invalidValue, some (text "-1")⟩ ∧
      ∃ body ∈ peerSections (cleanLines (readLines
          (text "[Interface]\nMTU = -1\n[Peer]\nPersistentKeepalive = -1\n"))),
        (Peer.parse samplePlatform body).toOption.isNone := by decide +kernel
  obtain ⟨hparse, body, hbody, hnone⟩ := heval
  refine (culprit_iff (Checked.map_eq_error.mp hparse) ⟨rfl, rfl⟩).mpr fun h => ?_
  obtain ⟨p, hp⟩ := h.1 body hbody
  rw [hp] at hnone
  cases hnone

/-- A negative MTU is reported as a wrong listen port, of which the file has no line. -/
theorem not_culprit_negative_mtu :
    parse samplePlatform (text "[Interface]\nMTU = -1\n") = .error (Interface.negativePort (-1)) ∧
      (Interface.negativePort (-1)).OfValue ∧
      ¬ Culprit samplePlatform (cleanLines (readLines (text "[Interface]\nMTU = -1\n")))
        (Interface.negativePort (-1)) := by
  have heval : (parse samplePlatform (text "[Interface]\nMTU = -1\n")).map (fun _ => ()) =
        .error (Interface.negativePort (-1)) ∧
      ∀ line ∈ interfaceLines (cleanLines (readLines (text "[Interface]\nMTU = -1\n"))),
        (Attribute.parse line).bind (fun attr => InterfaceKey.ofText attr.key) ≠ some .listenPort := by
    decide +kernel
  refine ⟨Checked.map_eq_error.mp heval.1, ⟨rfl, rfl⟩, ?_⟩
  rintro ⟨line, hmem, hrejected⟩
  obtain ⟨attr, hattr, hkey, -⟩ :=
    (Interface.rejected_negativePort_iff (by decide)).mp hrejected
  exact heval.2 line hmem (by rw [hattr, Option.bind_some, hkey])

end Config

end WgAndroid
