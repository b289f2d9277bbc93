import WgAndroid.Config.Sections

/-!
# Importing an archive

`TunnelImporter.importTunnel` on a zip file. One `BufferedReader` serves all entries. `Config.parse`
reads lines from it and may throw before the entry ends; what the reader has in its buffer then stays
there, while `nextEntry` skips only what the reader has not read yet.

Results:
1. `parseReader_fst`: an entry is parsed together with what is left in the buffer.
2. `harmless_iff`: what can be left without any effect on the entry that follows.
3. `importZip_own_configs`: when every entry gets the config of its own text.
-/

namespace WgAndroid.TunnelImporter

open Config

/-! ## The reader -/

/-- What a `BufferedReader` keeps between two entries: the characters in its buffer, and whether the
last line ended with a carriage return. -/
structure Reader where
  buffer : JString
  skipLF : Bool
  deriving DecidableEq

/-- `Config.parse` while it reads: its loop variables, and the line read so far. -/
structure Reading where
  loop : Loop
  line : JString
  skipLF : Bool

/-- A line has ended, and the loop takes it. If that throws, `rest` stays in the buffer. -/
def endLine (P : Platform) (r : Reading) (skipLF : Bool) (rest : JString) :
    Except (BadConfigException × Reader) Reading :=
  match r.loop.next P r.line with
  | .ok loop => .ok ⟨loop, [], skipLF⟩
  | .error e => .error (e, ⟨rest, skipLF⟩)

/-- The loop over the lines that end in the buffer. -/
def consume (P : Platform) (r : Reading) : JString → Except (BadConfigException × Reader) Reading
  | [] => .ok r
  | c :: rest =>
    if c = LF then
      if r.skipLF then consume P { r with skipLF := false } rest
      else endLine P r false rest >>= fun r => consume P r rest
    else if c = CR then endLine P r true rest >>= fun r => consume P r rest
    else consume P { r with line := r.line ++ [c], skipLF := false } rest

/-- The end of the entry: the last line needs no terminator. -/
def Reading.finish (P : Platform) (r : Reading) : Except BadConfigException Config := do
  let loop ← if r.line.isEmpty then pure r.loop else r.loop.next P r.line
  loop.finish P

/-- `Config.parse(reader)`. The text of the entry comes in chunks: the reader fills its buffer with
the next one when the buffer is empty. -/
def parseReader (P : Platform) (reader : Reader) (chunks : List JString) :
    Except BadConfigException Config × Reader :=
  match (reader.buffer :: chunks).foldlM (consume P) ⟨.init, [], reader.skipLF⟩ with
  | .error (e, reader) => (.error e, reader)
  | .ok r => (r.finish P, ⟨[], r.skipLF⟩)

/-! ## The import -/

/-- An entry of the archive, with its text as the reader gets it. -/
structure ZipEntry where
  name : JString
  chunks : List JString

/-- The text of an entry. -/
def ZipEntry.content (e : ZipEntry) : JString := e.chunks.flatten

/-- The part after the last `/`; `none` for a directory. -/
def baseName (name : JString) : Option JString :=
  if unit '/' ∈ name then
    let base := (name.reverse.takeWhile (· != unit '/')).reverse
    if base.isEmpty then none else some base
  else some name

/-- `name.lowercase().endsWith(".conf")`, and the name without it. -/
def confName (name : JString) : Option JString :=
  match baseName name with
  | none => none
  | some base =>
    if (text ".conf").isSuffixOf (toLowerCase base) then some (base.take (base.length - 5)) else none

/-- The variables of `importTunnel`; the tunnels are those handed to `TunnelManager.create`. -/
structure Import where
  reader : Reader
  futureTunnels : List (JString × Config)
  throwables : List BadConfigException

def Import.init : Import := ⟨⟨[], false⟩, [], []⟩

/-- The body of the loop over the entries. -/
def importEntry (P : Platform) (i : Import) (e : ZipEntry) : Import :=
  match confName e.name with
  | none => i
  | some name =>
    match parseReader P i.reader e.chunks with
    | (.ok config, reader) => { i with reader := reader, futureTunnels := i.futureTunnels ++ [(name, config)] }
    | (.error ex, reader) => { i with reader := reader, throwables := i.throwables ++ [ex] }

def importZip (P : Platform) (archive : List ZipEntry) : Import := archive.foldl (importEntry P) .init

/-- The tunnel that an entry describes by itself. -/
def ownTunnel (P : Platform) (e : ZipEntry) : Option (JString × Config) := do
  let name ← confName e.name
  let config ← (Config.parse P e.content).toOption
  pure (name, config)

/-- The error of an entry by itself. -/
def ownError (P : Platform) (e : ZipEntry) : Option BadConfigException :=
  match confName e.name, Config.parse P e.content with
  | some _, .error ex => some ex
  | _, _ => none

/-! ## What is parsed -/

variable {P : Platform}

/-- What the loop makes of the line read so far and of the text that follows. -/
def Reading.outcome (P : Platform) (r : Reading) (rest : JString) : Except BadConfigException Loop :=
  (readLinesFrom r.line r.skipLF rest).foldlM (Loop.next P) r.loop

theorem outcome_endLine (r : Reading) (skipLF : Bool) (rest following : JString) :
    (r.line :: readLinesFrom [] skipLF following).foldlM (Loop.next P) r.loop =
      (endLine P r skipLF rest).mapError Prod.fst >>= fun r' => r'.outcome P following := by
  unfold endLine
  rw [List.foldlM_cons]
  cases r.loop.next P r.line with
  | ok loop => rfl
  | error e => rfl

/-- Reading a chunk and going on is reading the text. -/
theorem outcome_consume (r : Reading) (chunk rest : JString) :
    r.outcome P (chunk ++ rest) =
      (consume P r chunk).mapError Prod.fst >>= fun r' => r'.outcome P rest := by
  fun_induction consume P r chunk with
  | case1 r => rfl
  | case2 r chunk hskip ih =>
    rw [← ih]
    simp [Reading.outcome, readLinesFrom, hskip]
  | case3 r chunk hskip ih =>
    simp only [Checked.mapError_bind, bind_assoc, ← ih]
    rw [← outcome_endLine]
    simp [Reading.outcome, readLinesFrom, hskip]
  | case4 r chunk hne ih =>
    simp only [Checked.mapError_bind, bind_assoc, ← ih]
    rw [← outcome_endLine]
    simp [Reading.outcome, readLinesFrom, hne]
  | case5 r c chunk hlf hcr ih =>
    rw [← ih]
    simp [Reading.outcome, readLinesFrom, hlf, hcr]

theorem outcome_chunks (r : Reading) (chunks : List JString) :
    r.outcome P chunks.flatten =
      (chunks.foldlM (consume P) r).mapError Prod.fst >>= fun r' => r'.outcome P [] := by
  induction chunks generalizing r with
  | nil => rfl
  | cons chunk chunks ih =>
    rw [List.flatten_cons, outcome_consume, List.foldlM_cons, Checked.mapError_bind, bind_assoc]
    simp only [ih]

theorem Reading.finish_eq (r : Reading) : r.finish P = r.outcome P [] >>= Loop.finish P := by
  unfold Reading.finish Reading.outcome readLinesFrom
  split
  · rfl
  · rw [List.foldlM_cons]
    simp only [List.foldlM_nil, bind_pure]

/-- An entry is parsed together with what is left in the buffer. -/
theorem parseReader_fst (P : Platform) (reader : Reader) (chunks : List JString) :
    (parseReader P reader chunks).1 =
      parseLines P (readLinesFrom [] reader.skipLF (reader.buffer ++ chunks.flatten)) := by
  have houtcome := outcome_chunks (P := P) ⟨.init, [], reader.skipLF⟩ (reader.buffer :: chunks)
  rw [List.flatten_cons] at houtcome
  show _ = Reading.outcome P ⟨.init, [], reader.skipLF⟩ _ >>= Loop.finish P
  rw [houtcome]
  unfold parseReader
  cases (reader.buffer :: chunks).foldlM (consume P) ⟨.init, [], reader.skipLF⟩ with
  | error e => rfl
  | ok r => exact r.finish_eq

/-! ## What is left in the buffer -/

/-- The lines that end in a text, the line that does not, and whether a line feed is skipped next. -/
def scanLines (line : JString) (skipLF : Bool) : JString → List JString × JString × Bool
  | [] => ([], line, skipLF)
  | c :: rest =>
    if c = LF then
      if skipLF then scanLines line false rest else (scanLines [] false rest).map (line :: ·) id
    else if c = CR then (scanLines [] true rest).map (line :: ·) id
    else scanLines (line ++ [c]) false rest

/-- The lines in the buffer are blank or comments, and the unfinished one is blank. -/
def Harmless (reader : Reader) : Prop :=
  (∀ l ∈ (scanLines [] reader.skipLF reader.buffer).1, cleanLine l = []) ∧
    ∀ c ∈ (scanLines [] reader.skipLF reader.buffer).2.1, isTrim c = true

instance (reader : Reader) : Decidable (Harmless reader) := inferInstanceAs (Decidable (_ ∧ _))

theorem readLinesFrom_scanLines (line : JString) (skipLF : Bool) (buffer rest : JString) :
    readLinesFrom line skipLF (buffer ++ rest) = (scanLines line skipLF buffer).1 ++
      readLinesFrom (scanLines line skipLF buffer).2.1 (scanLines line skipLF buffer).2.2 rest := by
  fun_induction scanLines line skipLF buffer with
  | case1 line skipLF => rfl
  | case2 line buffer ih =>
    rw [← ih]
    simp [readLinesFrom]
  | case3 line skipLF buffer hskip ih => simp [readLinesFrom, hskip, ih]
  | case4 line skipLF buffer hne ih => simp [readLinesFrom, hne, ih]
  | case5 line skipLF c buffer hlf hcr ih =>
    rw [← ih]
    simp [readLinesFrom, hlf, hcr]

/-- A line feed is skipped only right after a carriage return, where no line has begun. -/
theorem scanLines_skip {line buffer : JString} {skipLF : Bool} (h : skipLF = true → line = [])
    (hskip : (scanLines line skipLF buffer).2.2 = true) : (scanLines line skipLF buffer).2.1 = [] := by
  fun_induction scanLines line skipLF buffer with
  | case1 line skipLF => exact h hskip
  | case2 line buffer ih => exact ih nofun hskip
  | case3 line skipLF buffer _ ih => exact ih nofun hskip
  | case4 line skipLF buffer hne ih => exact ih (fun _ => rfl) hskip
  | case5 line skipLF c buffer hlf hcr ih => exact ih nofun hskip

theorem cleanLine_blank_append {b l : JString} (h : ∀ c ∈ b, isTrim c = true) :
    cleanLine (b ++ l) = cleanLine l := by
  have hcut : ∀ c ∈ b, (c != unit '#') = true := by
    intro c hc
    rw [bne_iff_ne]
    rintro rfl
    exact absurd (h _ hc) (by decide)
  unfold cleanLine trim Delimited.strip
  rw [List.takeWhile_append_of_pos hcut, List.dropWhile_append_of_pos h]

theorem cleanLines_eq_nil {ls : List JString} (h : ∀ l ∈ ls, cleanLine l = []) : cleanLines ls = [] := by
  unfold cleanLines
  rw [List.filter_eq_nil_iff]
  intro l hl
  obtain ⟨l', hl', rfl⟩ := List.mem_map.mp hl
  simp [h l' hl']

theorem cleanLines_cons_nil {l : JString} {ls : List JString} (h : cleanLine l = []) :
    cleanLines (l :: ls) = cleanLines ls := by
  simp [cleanLines, h]

theorem cleanLines_cons {l : JString} {ls : List JString} :
    cleanLines (l :: ls) = cleanLines [l] ++ cleanLines ls := cleanLines_append [l] ls

theorem cleanLines_singleton_blank_append {b l : JString} (h : ∀ c ∈ b, isTrim c = true) :
    cleanLines [b ++ l] = cleanLines [l] := by
  unfold cleanLines
  rw [List.map_singleton, List.map_singleton, cleanLine_blank_append h]

/-- The last line counts, ended or not. -/
theorem cleanLines_readLinesFrom_nil (l : JString) (skipLF : Bool) :
    cleanLines (readLinesFrom l skipLF []) = cleanLines [l] := by
  unfold readLinesFrom
  split
  · next h =>
    rw [List.isEmpty_iff.mp h]
    rfl
  · rfl

/-- A blank beginning of the first line makes no difference. -/
theorem cleanLines_blank_append {b l : JString} (h : ∀ c ∈ b, isTrim c = true) (t : JString) :
    cleanLines (readLinesFrom (b ++ l) false t) = cleanLines (readLinesFrom l false t) := by
  induction t generalizing l with
  | nil =>
    rw [cleanLines_readLinesFrom_nil, cleanLines_readLinesFrom_nil, cleanLines_singleton_blank_append h]
  | cons c t ih =>
    unfold readLinesFrom
    split
    · rw [if_neg Bool.false_ne_true, if_neg Bool.false_ne_true, cleanLines_cons, cleanLines_singleton_blank_append h, ← cleanLines_cons]
    · split
      · rw [cleanLines_cons, cleanLines_singleton_blank_append h, ← cleanLines_cons]
      · rw [List.append_assoc, ih]

/-- Neither does a line feed that is skipped. -/
theorem cleanLines_skip (t : JString) (skipLF : Bool) :
    cleanLines (readLinesFrom [] skipLF t) = cleanLines (readLines t) := by
  cases skipLF with
  | false => rfl
  | true =>
    cases t with
    | nil => rfl
    | cons c t =>
      unfold readLines readLinesFrom
      split
      · rw [if_pos rfl, if_neg Bool.false_ne_true, cleanLines_cons_nil rfl]
      · rfl

theorem parseLines_congr {lines lines' : List JString} (h : cleanLines lines = cleanLines lines') :
    parseLines P lines = parseLines P lines' := by
  unfold parseLines
  rw [SectionsLemmas.foldlM_next, SectionsLemmas.foldlM_next, h]

/-- What is left is lost in the blank lines of the next entry. -/
theorem parseReader_of_harmless {reader : Reader} (h : Harmless reader) (chunks : List JString) :
    (parseReader P reader chunks).1 = Config.parse P chunks.flatten := by
  obtain ⟨hlines, hline⟩ := h
  rw [parseReader_fst]
  refine parseLines_congr ?_
  rw [readLinesFrom_scanLines, cleanLines_append]
  rw [cleanLines_eq_nil hlines, List.nil_append]
  cases hskip : (scanLines [] reader.skipLF reader.buffer).2.2 with
  | true => rw [scanLines_skip (fun _ => rfl) hskip, cleanLines_skip]
  | false =>
    have hblank := cleanLines_blank_append (l := []) hline chunks.flatten
    rwa [List.append_nil] at hblank

/-! ## What an entry can make of it -/

def headerLine : JString := text "[Interface]"

def keyLine : JString := text "PrivateKey = TFlmmEUC7V7VtiDYLKsbP5rySTKLIZq1yn8lMqK83wo="

theorem interface_keyLine (P : Platform) : (Interface.parse P [keyLine]).isOk = true := rfl

theorem parseLines_own (P : Platform) : ∃ c, parseLines P [headerLine, keyLine] = .ok c ∧ c.peers = [] := by
  rcases hparse : Interface.parse P [keyLine] with e | i
  · have hok := interface_keyLine P
    rw [hparse] at hok
    cases hok
  · refine ⟨⟨i, []⟩, parseLines_eq_ok.mpr ⟨by decide, ?_, ?_⟩, rfl⟩
    · rw [show peerSections (cleanLines [headerLine, keyLine]) = [] by decide]
      exact .nil
    · rwa [show interfaceLines (cleanLines [headerLine, keyLine]) = [keyLine] by decide]

theorem parseLines_keyLine (P : Platform) (c : Config) : parseLines P [keyLine] ≠ .ok c := by
  intro h
  exact absurd (wellSectioned_of_parseLines h) (by decide)

/-- In a file without peers, the lines of all sections together are those that are not headers. -/
theorem body_append_interfaceLines {ls : List JString}
    (h : ∀ l ∈ ls, isHeader l = true → isInterfaceHeader l = true) :
    body ls ++ interfaceLines ls = ls.filter fun l => !isHeader l := by
  induction ls with
  | nil => rfl
  | cons l ls ih =>
    have htail := ih fun l' hl' => h l' (List.mem_cons_of_mem l hl')
    cases hl : isHeader l with
    | true =>
      rw [SectionsLemmas.body_of_header hl, SectionsLemmas.interfaceLines_of_header hl,
        if_pos (h l List.mem_cons_self hl), List.nil_append, htail, List.filter_cons_of_neg (by simp [hl])]
    | false =>
      rw [SectionsLemmas.body_of_line hl, SectionsLemmas.interfaceLines_of_line hl, List.cons_append, htail,
        List.filter_cons_of_pos (by simp [hl])]

theorem peerSections_eq_nil_iff {ls : List JString} :
    peerSections ls = [] ↔ ∀ l ∈ ls, isHeader l = true → isPeerHeader l = false := by
  induction ls with
  | nil => simp [peerSections, sections]
  | cons l ls ih =>
    rw [List.forall_mem_cons, ← ih]
    cases hl : isHeader l with
    | true =>
      rw [SectionsLemmas.peerSections_of_header hl]
      cases hp : isPeerHeader l <;> simp
    | false => simp [SectionsLemmas.peerSections_of_line hl]

/-- Lines that count make a difference: to an entry that is complete, or to one that lacks its
header. -/
theorem differs_of_lines {Z : List JString} (hZ : cleanLines Z ≠ [])
    (hwhole : (parseLines P (Z ++ [headerLine, keyLine])).toOption =
      (parseLines P [headerLine, keyLine]).toOption)
    (hkey : (parseLines P (Z ++ [keyLine])).toOption = (parseLines P [keyLine]).toOption) : False := by
  obtain ⟨c, hown, hpeers⟩ := parseLines_own P
  have hboth : parseLines P (Z ++ [headerLine, keyLine]) = .ok c :=
    Checked.toOption_eq_some.mp (hwhole.trans (Checked.toOption_eq_some.mpr hown))
  obtain ⟨hsections, hparsed, hinterface⟩ := parseLines_eq_ok.mp hboth
  have happend : ∀ u, cleanLines u = u → cleanLines (Z ++ u) = cleanLines Z ++ u :=
    fun u hu => (cleanLines_append Z u).trans (congrArg _ hu)
  rw [happend _ (by decide)] at hsections hparsed hinterface
  -- the config has no peers, so there is no [Peer] header
  rw [hpeers, List.forall₂_nil_right_iff, peerSections_eq_nil_iff] at hparsed
  have hheaders : ∀ l ∈ cleanLines Z ++ [headerLine, keyLine], isHeader l = true → isInterfaceHeader l = true :=
    fun l hl hheader => (hsections.known l hl hheader).resolve_right (by simp [hparsed l hl hheader])
  have hsubset : ∀ l ∈ cleanLines Z ++ [keyLine], l ∈ cleanLines Z ++ [headerLine, keyLine] := by
    intro l hl
    rcases List.mem_append.mp hl with hl | hl
    · exact List.mem_append_left _ hl
    · exact List.mem_append_right _ (List.mem_cons_of_mem _ hl)
  -- the lines that count begin with a header, which serves the key line as well
  obtain ⟨z, zs, hzs⟩ := List.exists_cons_of_ne_nil hZ
  have hz : isHeader z = true := by
    by_contra hz
    have hstart := hsections.start
    rw [hzs, List.cons_append, SectionsLemmas.body_of_line (Bool.eq_false_iff.mpr hz)] at hstart
    cases hstart
  have hstart : ∀ u, body (cleanLines Z ++ u) = [] := fun u => by
    rw [hzs, List.cons_append, SectionsLemmas.body_of_header hz]
  have hlines : interfaceLines (cleanLines Z ++ [keyLine]) =
      interfaceLines (cleanLines Z ++ [headerLine, keyLine]) := by
    have hshort := body_append_interfaceLines fun l hl => hheaders l (hsubset l hl)
    have hlong := body_append_interfaceLines hheaders
    rw [hstart, List.nil_append] at hshort hlong
    rw [hshort, hlong, List.filter_append, List.filter_append]
    rfl
  have hmem : z ∈ cleanLines Z := hzs ▸ List.mem_cons_self
  refine parseLines_keyLine P c (Checked.toOption_eq_some.mp (hkey.symm.trans ?_))
  refine Checked.toOption_eq_some.mpr (parseLines_eq_ok.mpr ?_)
  rw [happend _ (by decide), hlines, hpeers, List.forall₂_nil_right_iff, peerSections_eq_nil_iff]
  refine ⟨⟨?_, hstart _, ?_⟩, fun l hl => hparsed l (hsubset l hl), hinterface⟩
  · exact fun l hl hheader => .inl (hheaders l (hsubset l hl) hheader)
  · exact ⟨z, List.mem_append_left _ hmem, hz, hheaders z (List.mem_append_left _ hmem) hz⟩

/-- A line feed ends the unfinished line. -/
theorem cleanLines_after_LF {line : JString} {skipLF : Bool} (hskip : skipLF = true → line = [])
    {u : List JString} (hu : ∀ l ∈ u, ∀ c ∈ l, isBreak c = false) :
    cleanLines (readLinesFrom line skipLF (LF :: unlines u)) = cleanLines (line :: u) := by
  have hlines : readLinesFrom [] false (unlines u) = u := readLines_unlines hu
  unfold readLinesFrom
  rw [if_pos rfl]
  cases skipLF with
  | true =>
    cases hskip rfl
    rw [if_pos rfl, hlines, cleanLines_cons_nil rfl]
  | false => rw [if_neg Bool.false_ne_true, hlines]

/-- The lines in the buffer, with the unfinished one. -/
def Reader.lines (reader : Reader) : List JString :=
  (scanLines [] reader.skipLF reader.buffer).1 ++ [(scanLines [] reader.skipLF reader.buffer).2.1]

theorem parseReader_after_LF (P : Platform) (reader : Reader) {u : List JString}
    (hu : ∀ l ∈ u, ∀ c ∈ l, isBreak c = false) :
    (parseReader P reader [LF :: unlines u]).1 = parseLines P (reader.lines ++ u) := by
  rw [parseReader_fst, List.flatten_singleton]
  refine parseLines_congr ?_
  unfold Reader.lines
  rw [readLinesFrom_scanLines, List.append_assoc, cleanLines_append, cleanLines_append,
    cleanLines_after_LF (scanLines_skip fun _ => rfl) hu]
  rfl

theorem parse_after_LF (P : Platform) {u : List JString} (hu : ∀ l ∈ u, ∀ c ∈ l, isBreak c = false) :
    Config.parse P [LF :: unlines u].flatten = parseLines P u := by
  rw [List.flatten_singleton]
  refine parseLines_congr ?_
  exact (cleanLines_after_LF (fun _ => rfl) hu).trans (cleanLines_cons_nil rfl)

/-- A comment that has begun swallows the first line of the entry. -/
theorem cleanLine_comment_append {b l : JString} (hb : unit '#' ∈ b) : cleanLine (b ++ l) = cleanLine b := by
  unfold cleanLine
  rw [List.takeWhile_append, if_neg]
  intro hlength
  have hall := List.takeWhile_eq_self_iff.mp ((List.takeWhile_prefix _).eq_of_length hlength) _ hb
  exact absurd hall (by decide)

/-- A line that cleaning removes is blank or has a comment. -/
theorem blank_of_cleanLine {l : JString} (h : cleanLine l = []) (hcomment : unit '#' ∉ l) :
    ∀ c ∈ l, isTrim c = true := by
  have hcut : l.takeWhile (· != unit '#') = l := by
    rw [List.takeWhile_eq_self_iff]
    intro c hc
    rw [bne_iff_ne]
    rintro rfl
    exact hcomment hc
  unfold cleanLine trim Delimited.strip at h
  rw [hcut, List.rdropWhile_eq_nil_iff] at h
  intro c hc
  by_cases hblank : l.dropWhile isTrim = []
  · exact List.dropWhile_eq_nil_iff.mp hblank c hc
  · obtain ⟨d, ds, hds⟩ := List.exists_cons_of_ne_nil hblank
    have hd : isTrim d = false := Delimited.head_dropWhile d (by rw [hds]; rfl)
    rw [h d (hds ▸ List.mem_cons_self)] at hd
    cases hd

/-- An entry whose header disappears in a comment. -/
theorem parseReader_of_comment {reader : Reader} (hclean : ∀ l ∈ reader.lines, cleanLine l = [])
    (hcomment : unit '#' ∈ (scanLines [] reader.skipLF reader.buffer).2.1) :
    (parseReader P reader [unlines [headerLine, keyLine]]).1 = parseLines P [keyLine] := by
  obtain ⟨hlines, hline⟩ := List.forall_mem_append.mp hclean
  have hskip : (scanLines [] reader.skipLF reader.buffer).2.2 = false := by
    by_contra hskip
    rw [scanLines_skip (fun _ => rfl) (Bool.eq_true_of_not_eq_false hskip)] at hcomment
    cases hcomment
  have hrest : unlines [headerLine, keyLine] = headerLine ++ (LF :: unlines [keyLine]) := rfl
  rw [parseReader_fst, List.flatten_singleton]
  refine parseLines_congr ?_
  rw [readLinesFrom_scanLines, cleanLines_append, cleanLines_eq_nil hlines, List.nil_append, hskip, hrest,
    readLinesFrom_append (by decide),
    cleanLines_after_LF (fun h => absurd h Bool.false_ne_true) (by decide), cleanLines_cons_nil]
  rw [cleanLine_comment_append hcomment]
  exact hline _ List.mem_cons_self

/-- What can be left without any effect on the entry that follows. -/
theorem harmless_iff (P : Platform) (reader : Reader) :
    Harmless reader ↔ ∀ chunks,
      (parseReader P reader chunks).1.toOption = (Config.parse P chunks.flatten).toOption := by
  refine ⟨fun h chunks => congrArg _ (parseReader_of_harmless h chunks), fun h => ?_⟩
  have hagree : ∀ u : List JString, (∀ l ∈ u, ∀ c ∈ l, isBreak c = false) →
      (parseLines P (reader.lines ++ u)).toOption = (parseLines P u).toOption := by
    intro u hu
    rw [← parseReader_after_LF P reader hu, h, parse_after_LF P hu]
  have hnone : cleanLines reader.lines = [] := by
    by_contra hlines
    exact differs_of_lines hlines (hagree _ (by decide)) (hagree _ (by decide))
  have hclean : ∀ l ∈ reader.lines, cleanLine l = [] := by
    intro l hl
    have hempty := List.filter_eq_nil_iff.mp hnone _ (List.mem_map_of_mem hl)
    simpa using hempty
  obtain ⟨hlines, hline⟩ := List.forall_mem_append.mp hclean
  refine ⟨hlines, blank_of_cleanLine (hline _ List.mem_cons_self) fun hcomment => ?_⟩
  -- the header of a complete entry disappears in the comment
  obtain ⟨c, hown, -⟩ := parseLines_own P
  have hentry := h [unlines [headerLine, keyLine]]
  rw [List.flatten_singleton, Config.parse, readLines_unlines (by decide), hown,
    parseReader_of_comment hclean hcomment] at hentry
  exact parseLines_keyLine P c (Checked.toOption_eq_some.mp hentry)

/-! ## Archives -/

theorem importZip_concat (es : List ZipEntry) (e : ZipEntry) :
    importZip P (es ++ [e]) = importEntry P (importZip P es) e := List.foldl_concat ..

/-- What an entry adds depends on what its text is parsed to. -/
theorem importEntry_futureTunnels {i : Import} {e : ZipEntry} {name : JString} (h : confName e.name = some name) :
    (importEntry P i e).futureTunnels =
      i.futureTunnels ++ ((parseReader P i.reader e.chunks).1.toOption.map (name, ·)).toList := by
  unfold importEntry
  rw [h]
  rcases parseReader P i.reader e.chunks with ⟨ex | config, reader⟩
  · exact (List.append_nil _).symm
  · rfl

theorem ownTunnel_of_some {e : ZipEntry} {name : JString} (h : confName e.name = some name) :
    ownTunnel P e = (Config.parse P e.content).toOption.map (name, ·) := by
  unfold ownTunnel
  rw [h]
  cases (Config.parse P e.content).toOption with
  | none => rfl
  | some config => rfl

theorem importEntry_own {i : Import} {e : ZipEntry}
    (h : (confName e.name).isSome → (parseReader P i.reader e.chunks).1 = Config.parse P e.content) :
    (importEntry P i e).futureTunnels = i.futureTunnels ++ (ownTunnel P e).toList ∧
      (importEntry P i e).throwables = i.throwables ++ (ownError P e).toList := by
  unfold importEntry ownTunnel ownError
  cases hname : confName e.name with
  | none => exact ⟨(List.append_nil _).symm, (List.append_nil _).symm⟩
  | some name =>
    rw [← h (hname ▸ rfl)]
    rcases parseReader P i.reader e.chunks with ⟨ex | config, reader⟩
    · exact ⟨(List.append_nil _).symm, rfl⟩
    · exact ⟨rfl, (List.append_nil _).symm⟩

/-- Before every entry that is parsed, what is left in the buffer is harmless. -/
def LeavesNothing (P : Platform) (archive : List ZipEntry) : Prop :=
  ∀ es e, es ++ [e] <+: archive → (confName e.name).isSome → Harmless (importZip P es).reader

theorem filterMap_concat {α : Type} (f : ZipEntry → Option α) (es : List ZipEntry) (e : ZipEntry) :
    (es ++ [e]).filterMap f = es.filterMap f ++ (f e).toList := by
  rw [List.filterMap_append]
  cases h : f e <;> simp [h]

theorem importZip_of_leavesNothing {archive : List ZipEntry} (h : LeavesNothing P archive) :
    (importZip P archive).futureTunnels = archive.filterMap (ownTunnel P) ∧
      (importZip P archive).throwables = archive.filterMap (ownError P) := by
  induction archive using List.reverseRecOn with
  | nil => exact ⟨rfl, rfl⟩
  | append_singleton es e ih =>
    obtain ⟨htunnels, hthrowables⟩ := ih fun es' e' hstarts =>
      h es' e' (hstarts.trans (List.prefix_append es [e]))
    have hown := importEntry_own fun hconf =>
      parseReader_of_harmless (P := P) (h es e (List.prefix_refl _) hconf) e.chunks
    rw [importZip_concat, hown.1, hown.2, htunnels, hthrowables]
    exact ⟨(filterMap_concat _ es e).symm, (filterMap_concat _ es e).symm⟩

/-- Every entry gets the config of its own text, or an error, in an archive that leaves nothing in the
buffer. After some entries, the next one gets its own config whatever it holds exactly if what is left
in the buffer is harmless. -/
theorem importZip_own_configs (P : Platform) :
    (∀ archive, LeavesNothing P archive →
      (importZip P archive).futureTunnels = archive.filterMap (ownTunnel P) ∧
      (importZip P archive).throwables = archive.filterMap (ownError P)) ∧
    ∀ es, Harmless (importZip P es).reader ↔ ∀ e : ZipEntry, (confName e.name).isSome →
      (importZip P (es ++ [e])).futureTunnels =
        (importZip P es).futureTunnels ++ (ownTunnel P e).toList := by
  refine ⟨fun archive => importZip_of_leavesNothing, fun es => ⟨fun h e hconf => ?_, fun h => ?_⟩⟩
  · rw [importZip_concat]
    exact (importEntry_own fun _ => parseReader_of_harmless h e.chunks).1
  · refine (harmless_iff P _).mpr fun chunks => ?_
    have hname : confName (text "a.conf") = some (text "a") := by decide
    have hentry := h ⟨text "a.conf", chunks⟩ (hname ▸ rfl)
    rw [importZip_concat, importEntry_futureTunnels hname, ownTunnel_of_some hname] at hentry
    have hpair : Function.Injective fun c : Config => (text "a", c) := fun _ _ => congrArg Prod.snd
    have hsame := congrArg List.head? (List.append_cancel_left hentry)
    rw [Option.head?_toList, Option.head?_toList] at hsame
    exact Option.map_injective hpair hsame

/-- The first entry fails at its first line, and its `MTU` ends up in the tunnel of the second. -/
theorem importZip_merges_entries :
    let archive : List ZipEntry :=
      [⟨text "a.conf", [unlines [text "oops", headerLine, text "MTU = 1400"]]⟩,
        ⟨text "b.conf", [unlines [headerLine, keyLine]]⟩]
    let mtu := fun t : JString × Config => (t.1, t.2.interfaze.mtu)
    (importZip samplePlatform archive).futureTunnels.map mtu = [(text "b", some 1400)] ∧
      (archive.filterMap (ownTunnel samplePlatform)).map mtu = [(text "b", none)] := by
  decide +kernel

end WgAndroid.TunnelImporter
