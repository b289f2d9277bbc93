import WgAndroid.Config.Peer

/-!
# Configuration files

`com.wireguard.config.Config`: the loop that hands every line to the section it stands in, and the
printer.

Results:
1. `parseLines_eq`: on a file whose lines all belong to a known section, the loop is the same as
   parsing the lines of every `[Peer]` section and the joined lines of all `[Interface]` sections.
2. `parseLines_sections`: exactly the files that are accepted, with the result.
3. `parse_toWgQuickString`: a printed configuration is parsed back.
-/

namespace WgAndroid

open Delimited

structure Config where
  interfaze : Interface
  peers : List Peer

namespace Config

/-- What the loop does to a line first: cut it at the first `#` and trim it. -/
def cleanLine (line : JString) : JString := trim (line.takeWhile (· != unit '#'))

/-- The lines that the loop does not skip. -/
def cleanLines (lines : List JString) : List JString :=
  (lines.map cleanLine).filter fun l => !l.isEmpty

/-- `line.startsWith("[")` -/
def isHeader (line : JString) : Bool := line.head? == some (unit '[')

def isInterfaceHeader (line : JString) : Bool := equalsIgnoreCase (text "[Interface]") line

def isPeerHeader (line : JString) : Bool := equalsIgnoreCase (text "[Peer]") line

/-- The variables of the loop of `Config.parse`. -/
structure Loop where
  peers : List Peer
  interfaceLines : List JString
  peerLines : List JString
  inInterfaceSection : Bool
  inPeerSection : Bool
  seenInterfaceSection : Bool

namespace Loop

def init : Loop := ⟨[], [], [], false, false, false⟩

/-- `builder.parsePeer(peerLines)` -/
def parsePeer (P : Platform) (s : Loop) : Except BadConfigException Loop := do
  let peer ← Peer.parse P s.peerLines
  pure { s with peers := s.peers ++ [peer] }

/-- Consume all [Peer] lines read so far. -/
def flush (P : Platform) (s : Loop) : Except BadConfigException Loop :=
  if s.inPeerSection then do
    let s ← s.parsePeer P
    pure { s with peerLines := [] }
  else pure s

/-- The body of the loop for a line that is clean and not empty. -/
def step (P : Platform) (s : Loop) (line : JString) : Except BadConfigException Loop :=
  if isHeader line then do
    let s ← s.flush P
    if isInterfaceHeader line then
      pure { s with inInterfaceSection := true, inPeerSection := false, seenInterfaceSection := true }
    else if isPeerHeader line then
      pure { s with inInterfaceSection := false, inPeerSection := true }
    else .error ⟨.config, .topLevel, .unknownSection, some line⟩
  else if s.inInterfaceSection then .ok { s with interfaceLines := s.interfaceLines ++ [line] }
  else if s.inPeerSection then .ok { s with peerLines := s.peerLines ++ [line] }
  else .error ⟨.config, .topLevel, .unknownSection, some line⟩

/-- The body of the loop. -/
def next (P : Platform) (s : Loop) (line : JString) : Except BadConfigException Loop :=
  if (cleanLine line).isEmpty then .ok s else s.step P (cleanLine line)

/-- `if (inPeerSection) builder.parsePeer(peerLines)` at the end of the file. -/
def close (P : Platform) (s : Loop) : Except BadConfigException Loop :=
  if s.inPeerSection then s.parsePeer P else pure s

/-- What follows the loop. -/
def finish (P : Platform) (s : Loop) : Except BadConfigException Config := do
  let s ← s.close P
  if !s.seenInterfaceSection then .error ⟨.config, .topLevel, .missingSection, none⟩
  else do
    let interfaze ← Interface.parse P s.interfaceLines
    pure ⟨interfaze, s.peers⟩

end Loop

/-- `Config.parse` on the lines that the reader returns. -/
def parseLines (P : Platform) (lines : List JString) : Except BadConfigException Config := do
  let s ← lines.foldlM (Loop.next P) .init
  s.finish P

def parse (P : Platform) (input : JString) : Except BadConfigException Config :=
  parseLines P (readLines input)

/-- The lines of `toWgQuickString`. -/
def quickLines (P : Platform) (c : Config) : List JString :=
  text "[Interface]" :: (c.interfaze.quickLines P ++
    c.peers.flatMap fun p => [] :: text "[Peer]" :: p.quickLines P)

def toWgQuickString (P : Platform) (c : Config) : JString := unlines (c.quickLines P)

/-! ## Sections -/

/-- The lines up to the next header. -/
def body (lines : List JString) : List JString := lines.takeWhile fun l => !isHeader l

/-- Every header with its own lines. -/
def sections : List JString → List (JString × List JString)
  | [] => []
  | l :: ls => if isHeader l then (l, body ls) :: sections ls else sections ls

/-- The lines of every [Peer] section. -/
def peerSections (lines : List JString) : List (List JString) :=
  ((sections lines).filter fun s => isPeerHeader s.1).map Prod.snd

/-- The lines of all [Interface] sections, one after the other. -/
def interfaceLines (lines : List JString) : List JString :=
  ((sections lines).filter fun s => isInterfaceHeader s.1).flatMap Prod.snd

/-- Every header is known, no other line comes before the first header and there is an
[Interface] header. -/
structure WellSectioned (lines : List JString) : Prop where
  known : ∀ l ∈ lines, isHeader l = true → isInterfaceHeader l = true ∨ isPeerHeader l = true
  start : body lines = []
  interface : ∃ l ∈ lines, isHeader l = true ∧ isInterfaceHeader l = true

theorem not_both_headers {l : JString} (hi : isInterfaceHeader l = true) :
    isPeerHeader l = false := by
  simp only [isInterfaceHeader, isPeerHeader, equalsIgnoreCase, Bool.and_eq_true, beq_iff_eq] at hi ⊢
  rw [← hi.1]
  rfl

namespace SectionsLemmas

theorem body_of_header {l : JString} {ls : List JString} (h : isHeader l = true) :
    body (l :: ls) = [] := by
  simp [body, h]

theorem body_of_line {l : JString} {ls : List JString} (h : isHeader l = false) :
    body (l :: ls) = l :: body ls := by
  simp [body, h]

theorem peerSections_of_line {l : JString} {ls : List JString} (h : isHeader l = false) :
    peerSections (l :: ls) = peerSections ls := by
  simp [peerSections, sections, h]

theorem interfaceLines_of_line {l : JString} {ls : List JString} (h : isHeader l = false) :
    interfaceLines (l :: ls) = interfaceLines ls := by
  simp [interfaceLines, sections, h]

theorem peerSections_of_header {l : JString} {ls : List JString} (h : isHeader l = true) :
    peerSections (l :: ls) =
      if isPeerHeader l then body ls :: peerSections ls else peerSections ls := by
  cases hp : isPeerHeader l <;> simp [peerSections, sections, h, hp]

theorem interfaceLines_of_header {l : JString} {ls : List JString} (h : isHeader l = true) :
    interfaceLines (l :: ls) =
      if isInterfaceHeader l then body ls ++ interfaceLines ls else interfaceLines ls := by
  cases hi : isInterfaceHeader l <;> simp [interfaceLines, sections, h, hi]

/-- The flags name at most one section, and the buffer of peer lines is empty outside of [Peer]. -/
structure Inv (s : Loop) : Prop where
  one : s.inInterfaceSection = true → s.inPeerSection = false
  buffer : s.inPeerSection = false → s.peerLines = []

/-- The peer section that the loop stands in, with the lines that follow it. -/
def openPeer (s : Loop) (rest : List JString) : List (List JString) :=
  if s.inPeerSection then [s.peerLines ++ rest] else []

/-- The interface lines so far, with the lines that follow if the loop stands in [Interface]. -/
def openInterface (s : Loop) (rest : List JString) : List JString :=
  s.interfaceLines ++ if s.inInterfaceSection then rest else []

/-- What remains to be done in state `s`, section by section. -/
def remaining (P : Platform) (s : Loop) (ls : List JString) : Except BadConfigException Config := do
  let peers ← (openPeer s (body ls) ++ peerSections ls).mapM (Peer.parse P)
  let interfaze ← Interface.parse P (openInterface s (body ls) ++ interfaceLines ls)
  pure ⟨interfaze, s.peers ++ peers⟩

theorem finish_eq_remaining {P : Platform} {s : Loop} (hseen : s.seenInterfaceSection = true) :
    s.finish P = remaining P s [] := by
  unfold Loop.finish Loop.close remaining openPeer
  cases hin : s.inPeerSection with
  | false => simp [hseen, openInterface, body, peerSections, interfaceLines, sections]
  | true =>
    cases hp : Peer.parse P s.peerLines with
    | error e =>
      simp [Loop.parsePeer, hp, body, peerSections, sections]
    | ok p =>
      simp [Loop.parsePeer, hp, hseen, openInterface, body, peerSections, interfaceLines, sections]

/-- The loop variables after a known header. -/
def enter (l : JString) (s : Loop) : Loop :=
  if isInterfaceHeader l then
    { s with inInterfaceSection := true, inPeerSection := false, seenInterfaceSection := true }
  else { s with inInterfaceSection := false, inPeerSection := true }

theorem step_of_header {P : Platform} {s : Loop} {l : JString} (h : isHeader l = true)
    (hknown : isInterfaceHeader l = true ∨ isPeerHeader l = true) :
    s.step P l = s.flush P >>= fun s => pure (enter l s) := by
  unfold Loop.step
  rw [if_pos h]
  congr 1
  funext s
  unfold enter
  split
  · rfl
  · next hi => rw [if_pos (hknown.resolve_left hi)]

/-- After a flush, a header opens the section that its lines belong to. -/
theorem remaining_enter {P : Platform} {s : Loop} {l : JString} {ls : List JString}
    (h : isHeader l = true) (hknown : isInterfaceHeader l = true ∨ isPeerHeader l = true)
    (hbuffer : s.peerLines = []) :
    remaining P (enter l s) ls = (do
      let peers ← (peerSections (l :: ls)).mapM (Peer.parse P)
      let interfaze ← Interface.parse P (s.interfaceLines ++ interfaceLines (l :: ls))
      pure ⟨interfaze, s.peers ++ peers⟩) := by
  rw [peerSections_of_header h, interfaceLines_of_header h]
  cases hi : isInterfaceHeader l with
  | true => simp [remaining, enter, hi, openPeer, openInterface, not_both_headers hi]
  | false =>
    have hp : isPeerHeader l = true := hknown.resolve_left (by simp [hi])
    simp [remaining, enter, hi, openPeer, openInterface, hp, hbuffer]

theorem remaining_header {P : Platform} {s : Loop} {l : JString} {ls : List JString} (hs : Inv s)
    (h : isHeader l = true) (hknown : isInterfaceHeader l = true ∨ isPeerHeader l = true) :
    (s.flush P >>= fun s => remaining P (enter l s) ls) = remaining P s (l :: ls) := by
  unfold Loop.flush
  cases hin : s.inPeerSection with
  | false =>
    rw [if_neg (by simp), pure_bind, remaining_enter h hknown (hs.buffer hin)]
    simp [remaining, openPeer, openInterface, hin, body_of_header h]
  | true =>
    cases hp : Peer.parse P s.peerLines with
    | error e =>
      simp [Loop.parsePeer, remaining, openPeer, hin, body_of_header h, hp]
    | ok p =>
      have hflush : (if true = true then do
            let s ← s.parsePeer P
            pure { s with peerLines := [] }
          else pure s) = .ok { s with peers := s.peers ++ [p], peerLines := [] } := by
        simp [Loop.parsePeer, hp]
      rw [hflush, Checked.ok_bind, remaining_enter h hknown rfl]
      simp [remaining, openPeer, openInterface, hin, body_of_header h, hp]

/-- A line that is no header goes to the section the loop stands in. -/
theorem remaining_line {P : Platform} {s : Loop} {l : JString} {ls : List JString} (hs : Inv s)
    (h : isHeader l = false) (hin : s.inInterfaceSection = true ∨ s.inPeerSection = true) :
    ∃ s', s.step P l = .ok s' ∧ Inv s' ∧ s'.seenInterfaceSection = s.seenInterfaceSection ∧
      s'.inInterfaceSection = s.inInterfaceSection ∧ s'.inPeerSection = s.inPeerSection ∧
      remaining P s' ls = remaining P s (l :: ls) := by
  rcases hin with hi | hp
  · refine ⟨{ s with interfaceLines := s.interfaceLines ++ [l] }, by simp [Loop.step, h, hi],
      ⟨hs.one, hs.buffer⟩, rfl, rfl, rfl, ?_⟩
    simp [remaining, openPeer, openInterface, hi, hs.one hi, body_of_line h,
      peerSections_of_line h, interfaceLines_of_line h]
  · have hi : s.inInterfaceSection = false := by
      cases hi : s.inInterfaceSection with
      | false => rfl
      | true => rw [hs.one hi] at hp; cases hp
    refine ⟨{ s with peerLines := s.peerLines ++ [l] }, by simp [Loop.step, h, hi, hp],
      ⟨hs.one, fun hp' => ?_⟩, rfl, rfl, rfl, ?_⟩
    · rw [hp] at hp'
      cases hp'
    · simp [remaining, openPeer, openInterface, hi, hp, body_of_line h,
        peerSections_of_line h, interfaceLines_of_line h]

theorem inv_enter {s : Loop} {l : JString} (h : s.peerLines = []) : Inv (enter l s) := by
  unfold enter
  split
  · exact ⟨fun _ => rfl, fun _ => h⟩
  · exact ⟨by simp, by simp⟩

theorem flush_fields {P : Platform} {s s' : Loop} (h : s.flush P = .ok s') :
    s'.seenInterfaceSection = s.seenInterfaceSection ∧ (Inv s → s'.peerLines = []) := by
  unfold Loop.flush at h
  split at h
  · simp only [Loop.parsePeer, Checked.bind_eq_ok] at h
    obtain ⟨s₁, ⟨p, hp, h₁⟩, h⟩ := h
    cases h₁
    cases h
    exact ⟨rfl, fun _ => rfl⟩
  · next hin =>
    cases h
    exact ⟨rfl, fun hs => hs.buffer (by simpa using hin)⟩

/-- What a step can do. -/
theorem step_cases {P : Platform} {s s' : Loop} {l : JString} (h : s.step P l = .ok s') :
    (isHeader l = true ∧ (isInterfaceHeader l = true ∨ isPeerHeader l = true) ∧
      ∃ s₁, s.flush P = .ok s₁ ∧ s' = enter l s₁) ∨
    (isHeader l = false ∧ (s.inInterfaceSection = true ∨ s.inPeerSection = true) ∧
      s'.seenInterfaceSection = s.seenInterfaceSection) := by
  unfold Loop.step at h
  split at h
  · next hheader =>
    rw [Checked.bind_eq_ok] at h
    obtain ⟨s₁, hflush, h⟩ := h
    refine .inl ⟨hheader, ?_⟩
    split at h
    · next hi =>
      cases h
      exact ⟨.inl hi, s₁, hflush, by simp [enter, hi]⟩
    · next hi =>
      split at h
      · next hp =>
        cases h
        exact ⟨.inr hp, s₁, hflush, by simp [enter, hi]⟩
      · cases h
  · next hline =>
    refine .inr ⟨by simpa using hline, ?_⟩
    split at h
    · next hi => cases h; exact ⟨.inl hi, rfl⟩
    · split at h
      · next hp => cases h; exact ⟨.inr hp, rfl⟩
      · cases h

/-- The loop, on lines that all belong to a known section, from any of its states. -/
theorem foldlM_eq_remaining {P : Platform} {ls : List JString} {s : Loop} (hs : Inv s)
    (hknown : ∀ l ∈ ls, isHeader l = true → isInterfaceHeader l = true ∨ isPeerHeader l = true)
    (hstart : s.inInterfaceSection = true ∨ s.inPeerSection = true ∨ body ls = [])
    (hseen : s.seenInterfaceSection = true ∨
      ∃ l ∈ ls, isHeader l = true ∧ isInterfaceHeader l = true) :
    (ls.foldlM (Loop.step P) s >>= fun s => s.finish P) = remaining P s ls := by
  induction ls generalizing s with
  | nil =>
    rw [List.foldlM_nil, pure_bind]
    exact finish_eq_remaining (by simpa using hseen)
  | cons l ls ih =>
    rw [List.foldlM_cons, bind_assoc]
    cases h : isHeader l with
    | true =>
      have hl := hknown l List.mem_cons_self h
      rw [← remaining_header hs h hl, step_of_header h hl, bind_assoc]
      -- both sides flush first, so it is enough to compare what follows
      cases hflush : s.flush P with
      | error e => rfl
      | ok s' =>
        obtain ⟨hsame, hbuffer⟩ := flush_fields hflush
        refine ih (inv_enter (hbuffer hs)) (fun m hm => hknown m (List.mem_cons_of_mem _ hm)) ?_ ?_
        · unfold enter
          split <;> simp
        · unfold enter
          split
          · exact .inl rfl
          · next hi =>
            rcases hseen with hseen | ⟨m, hm, hheader, hmi⟩
            · exact .inl (hsame.trans hseen)
            · rcases List.mem_cons.mp hm with rfl | hm
              · exact absurd hmi hi
              · exact .inr ⟨m, hm, hheader, hmi⟩
    | false =>
      have hin : s.inInterfaceSection = true ∨ s.inPeerSection = true := by
        rw [body_of_line h] at hstart
        simpa using hstart
      obtain ⟨s', hstep, hs', hsame, hi, hp, hrem⟩ := @remaining_line P s l ls hs h hin
      rw [hstep, ← hrem]
      refine ih hs' (fun m hm => hknown m (List.mem_cons_of_mem _ hm)) ?_ ?_
      · rw [hi, hp]
        exact hin.imp_right .inl
      · rw [hsame]
        refine hseen.imp_right ?_
        rintro ⟨m, hm, hheader, hmi⟩
        rcases List.mem_cons.mp hm with rfl | hm
        · rw [h] at hheader
          cases hheader
        · exact ⟨m, hm, hheader, hmi⟩

/-- What an accepting run tells about the lines. -/
theorem wellSectioned_of_foldlM {P : Platform} {ls : List JString} {s s' : Loop}
    (h : ls.foldlM (Loop.step P) s = .ok s') (hseen : s'.seenInterfaceSection = true) :
    (∀ l ∈ ls, isHeader l = true → isInterfaceHeader l = true ∨ isPeerHeader l = true) ∧
    (s.inInterfaceSection = true ∨ s.inPeerSection = true ∨ body ls = []) ∧
    (s.seenInterfaceSection = true ∨
      ∃ l ∈ ls, isHeader l = true ∧ isInterfaceHeader l = true) := by
  induction ls generalizing s with
  | nil =>
    cases h
    exact ⟨by simp, .inr (.inr rfl), .inl hseen⟩
  | cons l ls ih =>
    rw [List.foldlM_cons, Checked.bind_eq_ok] at h
    obtain ⟨s₁, hstep, h⟩ := h
    obtain ⟨hknown, hstart, hseen⟩ := ih h
    have htail : (∃ m ∈ ls, isHeader m = true ∧ isInterfaceHeader m = true) →
        ∃ m ∈ l :: ls, isHeader m = true ∧ isInterfaceHeader m = true :=
      fun ⟨m, hm, h⟩ => ⟨m, List.mem_cons_of_mem _ hm, h⟩
    rcases step_cases hstep with ⟨hheader, hl, s₂, hflush, rfl⟩ | ⟨hline, hin, hsame⟩
    · refine ⟨?_, .inr (.inr (body_of_header hheader)), ?_⟩
      · simpa [hheader, hl] using hknown
      · cases hi : isInterfaceHeader l with
        | true => exact .inr ⟨l, List.mem_cons_self, hheader, hi⟩
        | false =>
          refine hseen.imp (fun h => ?_) htail
          simpa [enter, hi, (flush_fields hflush).1] using h
    · refine ⟨?_, hin.imp_right .inl, ?_⟩
      · simpa [hline] using hknown
      · exact hseen.imp (fun h => hsame ▸ h) htail

/-- Cleaning the lines in the loop or before it is the same. -/
theorem foldlM_next {P : Platform} {lines : List JString} {s : Loop} :
    lines.foldlM (Loop.next P) s = (cleanLines lines).foldlM (Loop.step P) s := by
  induction lines generalizing s with
  | nil => rfl
  | cons l lines ih =>
    rw [List.foldlM_cons, Loop.next]
    split
    · next h =>
      rw [Checked.ok_bind, ih]
      simp [cleanLines, h]
    · next h =>
      have hcons : cleanLines (l :: lines) = cleanLine l :: cleanLines lines := by
        simp [cleanLines, h]
      rw [hcons, List.foldlM_cons]
      congr 1
      funext s
      exact ih

theorem close_seen {P : Platform} {s s' : Loop} (h : s.close P = .ok s') :
    s'.seenInterfaceSection = s.seenInterfaceSection := by
  unfold Loop.close at h
  split at h
  · simp only [Loop.parsePeer, Checked.bind_eq_ok] at h
    obtain ⟨p, _, h⟩ := h
    cases h
    rfl
  · cases h
    rfl

theorem finish_seen {P : Platform} {s : Loop} {c : Config} (h : s.finish P = .ok c) :
    s.seenInterfaceSection = true := by
  unfold Loop.finish at h
  rw [Checked.bind_eq_ok] at h
  obtain ⟨s', hs', h⟩ := h
  split at h
  · cases h
  · next hseen => simpa [close_seen hs'] using hseen

end SectionsLemmas

open SectionsLemmas

/-- On lines that all belong to a known section, the loop is the same as parsing every [Peer]
section and the joined [Interface] sections. -/
theorem parseLines_eq {P : Platform} {lines : List JString}
    (h : WellSectioned (cleanLines lines)) :
    parseLines P lines = (do
      let peers ← (peerSections (cleanLines lines)).mapM (Peer.parse P)
      let interfaze ← Interface.parse P (interfaceLines (cleanLines lines))
      pure ⟨interfaze, peers⟩) := by
  rw [parseLines, foldlM_next, foldlM_eq_remaining ⟨fun _ => rfl, fun _ => rfl⟩ h.known
    (.inr (.inr h.start)) (.inr h.interface)]
  rfl

theorem wellSectioned_of_parseLines {P : Platform} {lines : List JString} {c : Config}
    (h : parseLines P lines = .ok c) : WellSectioned (cleanLines lines) := by
  rw [parseLines, foldlM_next, Checked.bind_eq_ok] at h
  obtain ⟨s, hfold, hfinish⟩ := h
  obtain ⟨hknown, hstart, hseen⟩ := wellSectioned_of_foldlM hfold (finish_seen hfinish)
  exact ⟨hknown, by simpa [Loop.init] using hstart, by simpa [Loop.init] using hseen⟩

theorem parseLines_eq_ok {P : Platform} {lines : List JString} {c : Config} :
    parseLines P lines = .ok c ↔ WellSectioned (cleanLines lines) ∧
      List.Forall₂ (fun ls p => Peer.parse P ls = .ok p) (peerSections (cleanLines lines)) c.peers ∧
      Interface.parse P (interfaceLines (cleanLines lines)) = .ok c.interfaze := by
  constructor
  · intro h
    have hwell := wellSectioned_of_parseLines h
    rw [parseLines_eq hwell] at h
    simp only [Checked.bind_eq_ok, Checked.mapM_eq_ok] at h
    obtain ⟨peers, hpeers, i, hi, h⟩ := h
    cases h
    exact ⟨hwell, hpeers, hi⟩
  · rintro ⟨hwell, hpeers, hi⟩
    rw [parseLines_eq hwell]
    simp only [Checked.bind_eq_ok, Checked.mapM_eq_ok]
    exact ⟨c.peers, hpeers, c.interfaze, hi, rfl⟩

instance (lines : List JString) : Decidable (WellSectioned lines) :=
  decidable_of_iff
    ((∀ l ∈ lines, isHeader l = true → isInterfaceHeader l = true ∨ isPeerHeader l = true) ∧
      body lines = [] ∧ ∃ l ∈ lines, isHeader l = true ∧ isInterfaceHeader l = true)
    ⟨fun ⟨h₁, h₂, h₃⟩ => ⟨h₁, h₂, h₃⟩, fun ⟨h₁, h₂, h₃⟩ => ⟨h₁, h₂, h₃⟩⟩

/-- `Config.parse` attributes every line to the right section: it accepts exactly the files whose
headers are known, that start with a header, that have an [Interface] header and whose sections
are accepted, and it returns what the sections give. How the [Interface] lines are spread over
[Interface] sections does not matter. -/
theorem parseLines_sections (P : Platform) :
    (∀ lines c, parseLines P lines = .ok c ↔ WellSectioned (cleanLines lines) ∧
      List.Forall₂ (fun ls p => Peer.parse P ls = .ok p) (peerSections (cleanLines lines)) c.peers ∧
      Interface.parse P (interfaceLines (cleanLines lines)) = .ok c.interfaze) ∧
    ∀ lines lines', WellSectioned (cleanLines lines) → WellSectioned (cleanLines lines') →
      peerSections (cleanLines lines) = peerSections (cleanLines lines') →
      interfaceLines (cleanLines lines) = interfaceLines (cleanLines lines') →
      parseLines P lines = parseLines P lines' := by
  refine ⟨fun lines c => parseLines_eq_ok, fun lines lines' h h' hpeers hlines => ?_⟩
  rw [parseLines_eq h, parseLines_eq h', hpeers, hlines]

/-- A file with all [Interface] lines in one section. -/
def sampleLines : List JString :=
  [text "[Interface]", text "DNS = 192.0.2.0 # resolver",
   text "PrivateKey = TFlmmEUC7V7VtiDYLKsbP5rySTKLIZq1yn8lMqK83wo=", text "",
   text "[Peer]", text "PublicKey = vBN7qyUTb5lJtWYJ8LhbPio1Z4RcyBPGnqFBGn6O6Qg="]

/-- The same lines, with the [Interface] lines on both sides of the peer. -/
def sampleLinesSplit : List JString :=
  [text "[Interface]", text "DNS = 192.0.2.0",
   text "[peer]", text " PublicKey = vBN7qyUTb5lJtWYJ8LhbPio1Z4RcyBPGnqFBGn6O6Qg=",
   text "[INTERFACE]", text "PrivateKey = TFlmmEUC7V7VtiDYLKsbP5rySTKLIZq1yn8lMqK83wo="]

theorem parseLines_sampleLines :
    WellSectioned (cleanLines sampleLines) ∧
    parseLines samplePlatform sampleLines = parseLines samplePlatform sampleLinesSplit :=
  ⟨by decide, (parseLines_sections samplePlatform).2 _ _ (by decide) (by decide) (by decide)
    (by decide)⟩

/-! ## What a parsed configuration looks like -/

theorem mem_of_mem_sections {ls : List JString} {s : JString × List JString} (h : s ∈ sections ls) :
    ∀ l ∈ s.2, l ∈ ls := by
  induction ls with
  | nil => cases h
  | cons l ls ih =>
    rw [sections] at h
    split at h
    · rcases List.mem_cons.mp h with rfl | h
      · exact fun m hm => List.mem_cons_of_mem _ ((List.takeWhile_prefix _).subset hm)
      · exact fun m hm => List.mem_cons_of_mem _ (ih h m hm)
    · exact fun m hm => List.mem_cons_of_mem _ (ih h m hm)

theorem mem_of_mem_interfaceLines {ls : List JString} {l : JString} (h : l ∈ interfaceLines ls) :
    l ∈ ls := by
  obtain ⟨s, hs, hl⟩ := List.mem_flatMap.mp h
  exact mem_of_mem_sections (List.mem_of_mem_filter hs) l hl

/-- A configuration that `parse` can return. -/
structure Parsed (P : Platform) (c : Config) : Prop where
  interfaze : Interface.Parsed P c.interfaze
  peers : ∀ p ∈ c.peers, Peer.Parsed P p
  no_break : ∀ key, ∀ x ∈ c.interfaze.applications key, ∀ ch ∈ x, isBreak ch = false

theorem parsed_of_parse {P : Platform} {input : JString} {c : Config} (h : parse P input = .ok c) :
    Parsed P c := by
  obtain ⟨_, hpeers, hi⟩ := parseLines_eq_ok.mp h
  refine ⟨Interface.parsed_of_parse hi, fun p hp => ?_, fun key x hx ch hch => ?_⟩
  · obtain ⟨ls, _, hls⟩ := Checked.exists_of_mem_right hpeers hp
    exact Peer.parsed_of_parse hls
  · -- an application is a piece of a cleaned line, and the reader cut the text at its terminators
    obtain ⟨line, hline, a, ha, _, hxa⟩ :=
      Interface.mem_entries.mp (Interface.mem_entries_of_parse hi hx)
    obtain ⟨l, hl, rfl⟩ := List.mem_map.mp (List.mem_of_mem_filter (mem_of_mem_interfaceLines hline))
    have hmem := (Attribute.isValue_of_parse ha).2 ch (mem_of_mem_piece hxa hch)
    exact readLines_no_break hl ch (List.takeWhile_subset _ (mem_of_mem_strip hmem))

/-! ## Printing and parsing back -/

theorem cleanLine_eq_self {l : JString} (h : Attribute.CleanLine l) :
    cleanLine l = l ∧ l ≠ [] ∧ isHeader l = false := by
  obtain ⟨⟨c, hc, hword⟩, d, hd, htrim⟩ := h.ends
  have hcut : l.takeWhile (· != unit '#') = l := by
    rw [List.takeWhile_eq_self_iff]
    intro x hx
    simpa using (h.chars x hx).2
  refine ⟨?_, ?_, ?_⟩
  · rw [cleanLine, hcut]
    refine strip_of_stripped ⟨fun x hx => ?_, fun x hx => ?_⟩
    · rw [Option.mem_unique hx hc]
      exact Attribute.isTrim_of_isWord hword
    · rw [Option.mem_unique hx hd]
      exact htrim
  · rintro rfl
    cases hc
  · rw [isHeader, hc, beq_eq_false_iff_ne]
    simpa using Attribute.ne_of_isWord hword (by decide : isWord (unit '[') = false)

theorem cleanLines_append (xs ys : List JString) :
    cleanLines (xs ++ ys) = cleanLines xs ++ cleanLines ys := by
  simp [cleanLines]

/-- Cleaning does not change clean lines. -/
theorem cleanLines_eq_self {ls : List JString} (h : ∀ l ∈ ls, Attribute.CleanLine l) :
    cleanLines ls = ls := by
  have hmap : ls.map cleanLine = ls :=
    (List.map_congr_left fun l hl => (cleanLine_eq_self (h l hl)).1).trans (List.map_id ls)
  rw [cleanLines, hmap, List.filter_eq_self]
  intro l hl
  simpa using (cleanLine_eq_self (h l hl)).2.1

theorem sections_append {xs : List JString} (h : ∀ l ∈ xs, isHeader l = false) (ys : List JString) :
    sections (xs ++ ys) = sections ys := by
  induction xs with
  | nil => rfl
  | cons x xs ih =>
    rw [List.cons_append, sections, if_neg (by simp [h x List.mem_cons_self]),
      ih fun l hl => h l (List.mem_cons_of_mem _ hl)]

theorem body_append {xs ys : List JString} (h : ∀ l ∈ xs, isHeader l = false)
    (hys : ∀ l ∈ ys.head?, isHeader l = true) : body (xs ++ ys) = xs := by
  rw [body, List.takeWhile_append_of_pos (by simpa using h)]
  cases ys with
  | nil => simp
  | cons y ys => simp [hys y rfl]

/-- The printed peers, without the blank lines between them. -/
def peerLines (P : Platform) (peers : List Peer) : List JString :=
  peers.flatMap fun p => text "[Peer]" :: p.quickLines P

section Printed

variable {P : Platform} (hP : P.LawfulAddresses) (hU : P.LawfulUri)
include hP hU

/-- No printed line holds a line terminator, if none of the interface does. -/
theorem quickLines_no_break {c : Config}
    (hi : ∀ l ∈ c.interfaze.quickLines P, ∀ x ∈ l, isBreak x = false)
    (h : ∀ p ∈ c.peers, Peer.Parsed P p) :
    ∀ l ∈ c.quickLines P, ∀ x ∈ l, isBreak x = false := by
  intro l hl
  have hconst : (∀ x ∈ text "[Interface]", isBreak x = false) ∧
      ∀ x ∈ text "[Peer]", isBreak x = false := by decide
  simp only [quickLines, List.mem_cons, List.mem_append, List.mem_flatMap] at hl
  rcases hl with rfl | hl | ⟨p, hp, rfl | rfl | hl⟩
  · exact hconst.1
  · exact hi l hl
  · exact fun x hx => nomatch hx
  · exact hconst.2
  · exact fun x hx => ((Peer.cleanLine_of_mem_quickLines hP hU (h p hp) hl).chars x hx).1

theorem isHeader_of_mem_peer {p : Peer} (h : Peer.Parsed P p) :
    ∀ l ∈ p.quickLines P, isHeader l = false :=
  fun _ hl => (cleanLine_eq_self (Peer.cleanLine_of_mem_quickLines hP hU h hl)).2.2

theorem sections_peerLines {peers : List Peer} (h : ∀ p ∈ peers, Peer.Parsed P p) :
    sections (peerLines P peers) = peers.map fun p => (text "[Peer]", p.quickLines P) := by
  induction peers with
  | nil => rfl
  | cons p peers ih =>
    have hp := isHeader_of_mem_peer hP hU (h p List.mem_cons_self)
    have hcons : peerLines P (p :: peers) =
        text "[Peer]" :: (p.quickLines P ++ peerLines P peers) := by
      simp [peerLines]
    have hbody : body (p.quickLines P ++ peerLines P peers) = p.quickLines P := by
      refine body_append hp fun l hl => ?_
      cases peers with
      | nil => cases hl
      | cons q qs => cases hl; decide
    rw [hcons, sections, if_pos (by decide), hbody, sections_append hp,
      ih fun q hq => h q (List.mem_cons_of_mem _ hq), List.map_cons]

theorem cleanLines_quickLines {c : Config} (hi : Interface.Parsed P c.interfaze)
    (hprint : Interface.Printable c.interfaze) (h : ∀ p ∈ c.peers, Peer.Parsed P p) :
    cleanLines (c.quickLines P) =
      text "[Interface]" :: (c.interfaze.quickLines P ++ peerLines P c.peers) := by
  have hhead : ∀ ls, cleanLines (text "[Interface]" :: ls) = text "[Interface]" :: cleanLines ls :=
    fun _ => rfl
  have hpeer : ∀ ls, cleanLines ([] :: text "[Peer]" :: ls) = text "[Peer]" :: cleanLines ls :=
    fun _ => rfl
  have hpeers : ∀ peers : List Peer, (∀ p ∈ peers, Peer.Parsed P p) →
      cleanLines (peers.flatMap fun p => [] :: text "[Peer]" :: p.quickLines P) =
        peerLines P peers := by
    intro peers hparsed
    induction peers with
    | nil => rfl
    | cons p peers ih =>
      rw [peerLines, List.flatMap_cons, List.flatMap_cons, cleanLines_append, hpeer,
        cleanLines_eq_self fun l hl =>
          Peer.cleanLine_of_mem_quickLines hP hU (hparsed p List.mem_cons_self) hl,
        ih fun q hq => hparsed q (List.mem_cons_of_mem _ hq)]
      rfl
  rw [quickLines, hhead, cleanLines_append, hpeers _ h,
    cleanLines_eq_self fun l hl => Interface.cleanLine_of_mem_quickLines hP hi hprint hl]

/-- A printed configuration is parsed back, if the printer of the interface kept every field. -/
theorem parse_toWgQuickString {c : Config} (hi : Interface.Parsed P c.interfaze)
    (hprint : Interface.Printable c.interfaze) (h : ∀ p ∈ c.peers, Peer.Parsed P p) :
    parse P (c.toWgQuickString P) = .ok c := by
  have hiclean := fun l hl => Interface.cleanLine_of_mem_quickLines hP hi hprint (l := l) hl
  have hread : readLines (c.toWgQuickString P) = c.quickLines P :=
    readLines_unlines (quickLines_no_break hP hU (fun l hl x hx => ((hiclean l hl).chars x hx).1) h)
  have hiheader : ∀ l ∈ c.interfaze.quickLines P, isHeader l = false :=
    fun l hl => (cleanLine_eq_self (hiclean l hl)).2.2
  have hclean := cleanLines_quickLines hP hU hi hprint h
  have hsections : sections (cleanLines (c.quickLines P)) =
      (text "[Interface]", c.interfaze.quickLines P) ::
        c.peers.map fun p => (text "[Peer]", p.quickLines P) := by
    have hbody : body (c.interfaze.quickLines P ++ peerLines P c.peers) =
        c.interfaze.quickLines P := by
      refine body_append hiheader fun l hl => ?_
      cases hpeers : c.peers with
      | nil => rw [hpeers] at hl; cases hl
      | cons q qs => rw [hpeers] at hl; cases hl; decide
    rw [hclean, sections, if_pos (by decide), hbody, sections_append hiheader,
      sections_peerLines hP hU h]
  have hpi : isPeerHeader (text "[Interface]") = false := by decide
  have hii : isInterfaceHeader (text "[Interface]") = true := by decide
  have hpp : isPeerHeader (text "[Peer]") = true := by decide
  have hip : isInterfaceHeader (text "[Peer]") = false := by decide
  rw [parse, hread, parseLines_eq_ok]
  refine ⟨⟨?_, ?_, ?_⟩, ?_, ?_⟩
  · intro l hl hheader
    simp only [hclean, peerLines, List.mem_cons, List.mem_append, List.mem_flatMap] at hl
    rcases hl with rfl | hl | ⟨p, hp, rfl | hl⟩
    · exact .inl hii
    · rw [hiheader l hl] at hheader
      cases hheader
    · exact .inr hpp
    · rw [isHeader_of_mem_peer hP hU (h p hp) l hl] at hheader
      cases hheader
  · rw [hclean]
    rfl
  · rw [hclean]
    exact ⟨_, List.mem_cons_self, by decide, hii⟩
  · have hpeers : peerSections (cleanLines (c.quickLines P)) = c.peers.map (Peer.quickLines P) := by
      simp [peerSections, hsections, hpi, hpp, List.filter_map, Function.comp_def]
    rw [hpeers, List.forall₂_map_left_iff, List.forall₂_same]
    exact fun p hp => Peer.parse_quickLines hP hU (h p hp)
  · have hlines : interfaceLines (cleanLines (c.quickLines P)) = c.interfaze.quickLines P := by
      simp [interfaceLines, hsections, hii, hip, List.filter_map, Function.comp_def]
    rw [hlines]
    exact Interface.parse_quickLines hP hi hprint

end Printed

end Config

end WgAndroid
