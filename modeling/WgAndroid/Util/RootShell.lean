import WgAndroid.Java.Text

/-!
# The root shell

`RootShell.run` writes a script to a shell that stays open: it echoes a random marker on both streams,
runs the command and echoes the marker with the exit status. The reader waits for a line that starts
with the marker, so what the command writes last has to end its line.

Results:
1. `scan_echoed`: the loop keeps the lines of an output that ends its last line, and leaves nothing.
2. `scan_unterminated`: after any other output the loop throws, or blocks.
3. `call_of_endsLines`, `call_of_not_endsLines`: the same for a call.
4. `runAll_in_step_iff`: when all calls of a sequence stay in step.
-/

namespace WgAndroid.RootShell

/-! ## Code -/

/-- A `BufferedReader`: what is there to read, and whether the last line ended with a carriage
return. -/
structure Stream where
  pending : JString
  skipLF : Bool
  deriving DecidableEq

/-- The variables of a loop: the markers seen and the lines kept, in `output` or in the log. -/
structure Scan where
  markersSeen : Nat
  lines : List JString
  deriving DecidableEq

inductive OnLine where
  | go (s : Scan)
  | leave (s : Scan) (errno : Int)
  | throws

/-- The body of both loops; lines are kept once more than `threshold` markers were seen. -/
def onLine (marker : JString) (threshold : Nat) (s : Scan) (line : JString) : OnLine :=
  if marker.isPrefixOf line then
    if line.length > marker.length + 1 then
      match parseInt (line.drop (marker.length + 1)) with
      | some errno => .leave { s with markersSeen := s.markersSeen + 1 } errno
      | none => .throws
    else .go { s with markersSeen := s.markersSeen + 1 }
  else if s.markersSeen > threshold then .go { s with lines := s.lines ++ [line] }
  else .go s

inductive ScanEnd where
  | ended (s : Scan) (errno : Option Int) (stream : Stream)
  | throws
  | blocks

/-- A loop with its `readLine`, which blocks at the end of what is there while the shell is alive.
`line` is the line read so far. -/
def scan (marker : JString) (threshold : Nat) (alive : Bool) (line : JString) (skipLF : Bool)
    (s : Scan) : JString → ScanEnd
  | [] =>
    if alive then .blocks
    else if line.isEmpty then .ended s none ⟨[], skipLF⟩
    else
      match onLine marker threshold s line with
      | .go s => .ended s none ⟨[], false⟩
      | .leave s errno => .ended s (some errno) ⟨[], false⟩
      | .throws => .throws
  | c :: rest =>
    if c = LF ∧ skipLF then scan marker threshold alive line false s rest
    else if isBreak c then
      match onLine marker threshold s line with
      | .go s => scan marker threshold alive [] (c == CR) s rest
      | .leave s errno => .ended s (some errno) ⟨rest, c == CR⟩
      | .throws => .throws
    else scan marker threshold alive (line ++ [c]) false s rest

/-- How `run` ends. -/
inductive Outcome where
  | returned (status : Int)
  | shellMarkerCountError (markersSeen : Nat)
  | shellExitStatusReadError
  | numberFormatException
  | blocks
  deriving DecidableEq

/-- The shell process, as `run` sees it. -/
structure Shell where
  stdout : Stream
  stderr : Stream
  alive : Bool
  deriving DecidableEq

/-- `run` after the script was written: what it returns or throws, and what it adds to `output`. -/
def run (marker : JString) (sh : Shell) : Outcome × List JString × Shell :=
  match scan marker 0 sh.alive [] sh.stdout.skipLF ⟨0, []⟩ sh.stdout.pending with
  | .blocks => (.blocks, [], sh)
  | .throws => (.numberFormatException, [], sh)
  | .ended s errnoStdout stdout =>
    match scan marker 2 sh.alive [] sh.stderr.skipLF ⟨s.markersSeen, []⟩ sh.stderr.pending with
    | .blocks => (.blocks, s.lines, sh)
    | .throws => (.numberFormatException, s.lines, sh)
    | .ended s' errnoStderr stderr =>
      if s'.markersSeen ≠ 4 then
        (.shellMarkerCountError s'.markersSeen, s.lines, { sh with stdout, stderr })
      else if errnoStdout.getD (-2147483648) ≠ errnoStderr.getD 2147483647 then
        (.shellExitStatusReadError, s.lines, { sh with stdout, stderr })
      else (.returned (errnoStdout.getD (-2147483648)), s.lines, { sh with stdout, stderr })

/-! ## The shell -/

/-- A command with the marker of its call, what it writes and its exit status. -/
structure Command where
  marker : JString
  out : JString
  err : JString
  status : Nat
  marker_ne_nil : marker ≠ []
  marker_uuid : ∀ c ∈ marker, isAlnum c = true ∨ c = unit '-'
  out_no_marker : ¬ marker <:+: out
  err_no_marker : ¬ marker <:+: err
  status_lt : status < 256

/-- What the script writes to one of the streams. -/
def echoed (marker written : JString) (status : Nat) : JString :=
  marker ++ (LF :: (written ++ (marker ++ (unit ' ' :: (decimal status ++ [LF])))))

def Stream.write (s : Stream) (written : JString) : Stream := { s with pending := s.pending ++ written }

/-- The shell runs the script. -/
def Shell.execute (sh : Shell) (c : Command) : Shell :=
  { sh with
    stdout := sh.stdout.write (echoed c.marker c.out c.status)
    stderr := sh.stderr.write (echoed c.marker c.err c.status) }

def call (sh : Shell) (c : Command) : Outcome × List JString × Shell := run c.marker (sh.execute c)

/-- The calls of a sequence, until one blocks. -/
def runAll (sh : Shell) : List Command → List (Outcome × List JString) × Shell
  | [] => ([], sh)
  | c :: cs =>
    let r := call sh c
    if r.1 = .blocks then ([(r.1, r.2.1)], r.2.2)
    else ((r.1, r.2.1) :: (runAll r.2.2 cs).1, (runAll r.2.2 cs).2)

/-! ## The loops -/

/-- The last line of the text is ended, if there is one. -/
def EndsLine (s : JString) : Prop := ∀ c ∈ s.getLast?, isBreak c = true

/-- The lines of a text that has no marker are kept, or none. -/
def Scan.keep (s : Scan) (threshold : Nat) (lines : List JString) : Scan :=
  if s.markersSeen > threshold then { s with lines := s.lines ++ lines } else s

section Loop

variable {marker line l out tail : JString} {threshold : Nat} {alive skipLF : Bool} {s : Scan}

theorem Scan.keep_nil : s.keep threshold [] = s := by
  simp [Scan.keep]

theorem Scan.keep_append {ls ls' : List JString} :
    (s.keep threshold ls).keep threshold ls' = s.keep threshold (ls ++ ls') := by
  unfold Scan.keep
  split <;> simp [*]

theorem onLine_of_no_match (h : ¬ marker <+: l) :
    onLine marker threshold s l = .go (s.keep threshold [l]) := by
  unfold onLine Scan.keep
  rw [if_neg (mt List.isPrefixOf_iff_prefix.mp h)]
  split <;> rfl

theorem readLinesFrom_break {c : UInt16} (h : isBreak c = true) (hskip : ¬ (c = LF ∧ skipLF = true)) :
    readLinesFrom line skipLF (c :: out) = line :: readLinesFrom [] (c == CR) out := by
  rcases Bool.or_eq_true_iff.mp h with hLF | hCR
  · obtain rfl := eq_of_beq hLF
    rw [readLinesFrom, if_pos rfl, if_neg fun h => hskip ⟨rfl, h⟩]
    rfl
  · obtain rfl := eq_of_beq hCR
    rfl

theorem readLinesFrom_char {c : UInt16} (h : ¬ isBreak c = true) :
    readLinesFrom line skipLF (c :: out) = readLinesFrom (line ++ [c]) false out := by
  rw [readLinesFrom, if_neg fun hLF => h (by rw [hLF]; rfl), if_neg fun hCR => h (by rw [hCR]; rfl)]

/-- The end of a line that does not end the loop. -/
theorem scan_break {c : UInt16} {s' : Scan} (hbreak : isBreak c = true)
    (hskip : ¬ (c = LF ∧ skipLF = true)) (h : onLine marker threshold s line = .go s') :
    scan marker threshold alive line skipLF s (c :: tail) =
      scan marker threshold alive [] (c == CR) s' tail := by
  rw [scan, if_neg hskip, if_pos hbreak, h]

/-- A part of a line. -/
theorem scan_word (hl : ∀ c ∈ l, isBreak c = false) (hne : l ≠ []) :
    scan marker threshold alive line skipLF s (l ++ tail) =
      scan marker threshold alive (line ++ l) false s tail := by
  induction l generalizing line skipLF with
  | nil => exact absurd rfl hne
  | cons c l ih =>
    obtain ⟨hc, hl⟩ := List.forall_mem_cons.mp hl
    have hLF : c ≠ LF := by
      rintro rfl
      cases hc
    rw [List.cons_append, scan, if_neg fun h => hLF h.1, hc, if_neg Bool.false_ne_true]
    by_cases hnil : l = []
    · subst hnil
      rfl
    · rw [ih hl hnil, List.append_assoc, List.singleton_append]

/-- The loop keeps the lines of a text that ends its last line. -/
theorem scan_append (hends : EndsLine out) (hline : out = [] → line = [])
    (hskip : skipLF = true → line = [])
    (hmarker : ∀ l ∈ readLinesFrom line skipLF out, ¬ marker <+: l) :
    ∃ skipLF', scan marker threshold alive line skipLF s (out ++ tail) =
      scan marker threshold alive [] skipLF' (s.keep threshold (readLinesFrom line skipLF out)) tail := by
  induction out generalizing line skipLF s with
  | nil =>
    obtain rfl := hline rfl
    exact ⟨skipLF, by rw [readLinesFrom, List.isEmpty_nil, if_pos rfl, Scan.keep_nil, List.nil_append]⟩
  | cons c out ih =>
    have hends' : EndsLine out := by
      intro d hd
      cases out with
      | nil => cases hd
      | cons e out => exact hends d (by simpa using hd)
    by_cases hbreak : isBreak c = true
    · by_cases hskipped : c = LF ∧ skipLF = true
      · obtain ⟨rfl, rfl⟩ := hskipped
        rw [readLinesFrom, if_pos rfl, if_pos rfl] at hmarker ⊢
        rw [List.cons_append, scan, if_pos ⟨rfl, rfl⟩]
        exact ih hends' (fun _ => hskip rfl) (fun h => by cases h) hmarker
      · have hlines : readLinesFrom line skipLF (c :: out) = line :: readLinesFrom [] (c == CR) out :=
          readLinesFrom_break hbreak hskipped
        rw [hlines] at hmarker ⊢
        obtain ⟨hfirst, hmarker⟩ := List.forall_mem_cons.mp hmarker
        rw [List.cons_append, scan_break hbreak hskipped (onLine_of_no_match hfirst)]
        obtain ⟨skipLF', hscan⟩ := ih hends' (fun _ => rfl) (fun _ => rfl) hmarker
        exact ⟨skipLF', by rw [hscan, Scan.keep_append, List.singleton_append]⟩
    · have hchar : readLinesFrom line skipLF (c :: out) = readLinesFrom (line ++ [c]) false out :=
        readLinesFrom_char hbreak
      have hLF : ¬ (c = LF ∧ skipLF = true) := fun h => hbreak (by rw [h.1]; rfl)
      rw [hchar] at hmarker ⊢
      rw [List.cons_append, scan, if_neg hLF, if_neg hbreak]
      refine ih hends' (fun hnil => ?_) (fun h => by cases h) hmarker
      exact absurd (hends c (by rw [hnil]; rfl)) hbreak

/-- The lines of a text are parts of it. -/
theorem infix_of_mem_readLinesFrom (hskip : skipLF = true → line = [])
    (h : l ∈ readLinesFrom line skipLF out) : l <:+: line ++ out := by
  induction out generalizing line skipLF with
  | nil =>
    unfold readLinesFrom at h
    split at h
    · cases h
    · rw [List.mem_singleton.mp h, List.append_nil]
  | cons c out ih =>
    have hpart {l' : JString} (hl' : l' <:+: out) : l' <:+: line ++ c :: out :=
      hl'.trans ((List.suffix_cons c out).trans (List.suffix_append line _)).isInfix
    by_cases hbreak : isBreak c = true
    · by_cases hskipped : c = LF ∧ skipLF = true
      · obtain ⟨rfl, rfl⟩ := hskipped
        rw [readLinesFrom, if_pos rfl, if_pos rfl, hskip rfl] at h
        exact hpart (ih (fun h => by cases h) h)
      · rw [readLinesFrom_break hbreak hskipped] at h
        rcases List.mem_cons.mp h with rfl | h
        · exact (List.prefix_append l _).isInfix
        · exact hpart (ih (fun _ => rfl) h)
    · rw [readLinesFrom_char hbreak] at h
      have hinfix := ih (fun h => by cases h) h
      rwa [List.append_assoc, List.singleton_append] at hinfix

end Loop

/-! ## Markers -/

section Marker

variable {marker out tail begun : JString} {threshold status : Nat} {alive skipLF : Bool} {s : Scan}

/-- The line that opens the output of a command. -/
theorem scan_opening (hne : marker ≠ []) (hmarker : ∀ c ∈ marker, isBreak c = false) :
    scan marker threshold alive [] skipLF s (marker ++ LF :: tail) =
      scan marker threshold alive [] false { s with markersSeen := s.markersSeen + 1 } tail := by
  rw [scan_word hmarker hne, List.nil_append]
  refine scan_break rfl (by simp) ?_
  rw [onLine, if_pos (List.isPrefixOf_iff_prefix.mpr List.prefix_rfl), if_neg (by simp)]

/-- The closing line is a word, also after the rest of a line. -/
theorem closing_no_break (hmarker : ∀ c ∈ marker, isBreak c = false) :
    ∀ c ∈ marker ++ unit ' ' :: decimal status, isBreak c = false := by
  refine List.forall_mem_append.mpr ⟨hmarker, List.forall_mem_cons.mpr ⟨by decide, fun c hc => ?_⟩⟩
  exact isBreak_of_isTrim_false (isTrim_of_isAlnum (isAlnum_of_mem_decimal hc))

/-- The line that closes it. -/
theorem scan_closing (hmarker : ∀ c ∈ marker, isBreak c = false) (hstatus : status < 256) :
    scan marker threshold alive [] skipLF s
        ((marker ++ unit ' ' :: decimal status) ++ LF :: tail) =
      .ended { s with markersSeen := s.markersSeen + 1 } (some status) ⟨tail, false⟩ := by
  have hlength : 0 < (decimal status).length := List.length_pos_iff.mpr (decimal_ne_nil status)
  have hdrop : (marker ++ unit ' ' :: decimal status).drop (marker.length + 1) = decimal status := by
    rw [List.append_cons]
    exact List.drop_left' (by simp)
  have hline : onLine marker threshold s (marker ++ unit ' ' :: decimal status) =
      .leave { s with markersSeen := s.markersSeen + 1 } status := by
    rw [onLine, if_pos (List.isPrefixOf_iff_prefix.mpr (List.prefix_append ..)), if_pos, hdrop,
      parseInt_decimal (hstatus.trans (by decide))]
    simpa using hlength
  have hbreak : isBreak LF = true := rfl
  rw [scan_word (closing_no_break hmarker) (by simp), List.nil_append, scan, if_neg (by simp),
    if_pos hbreak, hline]
  rfl

theorem foldlM_digit_eq_none {c : UInt16} {t : JString} {n : Nat} (hc : c ∈ t) (h : digit c = none) :
    t.foldlM (fun n c => (digit c).map fun d => n * 10 + d) n = none := by
  induction t generalizing n with
  | nil => cases hc
  | cons d t ih =>
    rw [List.foldlM_cons]
    rcases List.mem_cons.mp hc with rfl | hc
    · rw [h]
      rfl
    · cases digit d with
      | none => rfl
      | some v => exact ih hc

theorem magnitude_eq_none {c : UInt16} {t : JString} (hc : c ∈ t) (h : digit c = none) :
    magnitude t = none := by
  cases t with
  | nil => rfl
  | cons d t => exact foldlM_digit_eq_none hc h

/-- A space is not part of a number. -/
theorem parseInt_eq_none {t : JString} (h : unit ' ' ∈ t) : parseInt t = none := by
  have hspace : digit (unit ' ') = none := by decide
  cases t with
  | nil => rfl
  | cons c t =>
    have hrest (hc : unit ' ' ≠ c) : magnitude t = none :=
      magnitude_eq_none ((List.mem_cons.mp h).resolve_left hc) hspace
    unfold parseInt
    dsimp only
    split
    · next hminus => rw [hrest (by rw [hminus]; decide), Option.bind_none]
    · split
      · next hplus => rw [hrest (by rw [hplus]; decide), Option.bind_none]
      · rw [magnitude_eq_none h hspace, Option.bind_none]

/-- If the line of the closing marker has begun before it, the loop throws, or blocks. -/
theorem scan_missed (hmarker : ∀ c ∈ marker, isBreak c = false)
    (hbegun : ∀ c ∈ begun, isBreak c = false) (hne : begun ≠ []) :
    scan marker threshold true [] skipLF s
        ((begun ++ (marker ++ unit ' ' :: decimal status)) ++ [LF]) = .throws ∨
      scan marker threshold true [] skipLF s
        ((begun ++ (marker ++ unit ' ' :: decimal status)) ++ [LF]) = .blocks := by
  have hbreak : isBreak LF = true := rfl
  have hlength : 0 < begun.length := List.length_pos_iff.mpr hne
  have hword : ∀ c ∈ begun ++ (marker ++ unit ' ' :: decimal status), isBreak c = false :=
    List.forall_mem_append.mpr ⟨hbegun, closing_no_break hmarker⟩
  have hspace : unit ' ' ∈ (begun ++ (marker ++ unit ' ' :: decimal status)).drop (marker.length + 1) := by
    rw [← List.append_assoc, List.drop_append_of_le_length (by simp; omega)]
    exact List.mem_append_right _ List.mem_cons_self
  have hlong : (begun ++ (marker ++ unit ' ' :: decimal status)).length > marker.length + 1 := by
    simp only [List.length_append, List.length_cons]
    omega
  rw [scan_word hword (by simp), List.nil_append, scan, if_neg (by simp), if_pos hbreak]
  by_cases hbegin : marker <+: begun ++ (marker ++ unit ' ' :: decimal status)
  · rw [onLine, if_pos (List.isPrefixOf_iff_prefix.mpr hbegin), if_pos hlong, parseInt_eq_none hspace]
    exact .inl rfl
  · rw [onLine_of_no_match hbegin]
    exact .inr rfl

/-- A text that does not end its last line has begun one. -/
theorem exists_begun_line (h : ¬ EndsLine out) : ∃ ended begun, out = ended ++ begun ∧ EndsLine ended ∧
    begun ≠ [] ∧ ∀ c ∈ begun, isBreak c = false := by
  induction out using List.reverseRecOn with
  | nil => exact absurd (fun c hc => by cases hc) h
  | append_singleton out c ih =>
    have hc : isBreak c = false := by
      by_contra hc
      refine h fun d hd => ?_
      rw [List.getLast?_concat] at hd
      cases hd
      exact Bool.eq_true_of_not_eq_false hc
    by_cases hout : EndsLine out
    · exact ⟨out, [c], rfl, hout, by simp, by simpa using hc⟩
    · obtain ⟨ended, begun, rfl, hended, hne, hbegun⟩ := ih hout
      refine ⟨ended, begun ++ [c], List.append_assoc .., hended, by simp, ?_⟩
      exact List.forall_mem_append.mpr ⟨hbegun, by simpa using hc⟩

/-- A text without the marker is passed over; its lines are kept once the threshold is passed. -/
theorem scan_output (hends : EndsLine out) (hmarker : ¬ marker <:+: out) :
    ∃ skipLF', scan marker threshold alive [] skipLF s (out ++ tail) =
      scan marker threshold alive [] skipLF' (s.keep threshold (readLinesFrom [] skipLF out)) tail := by
  refine scan_append hends (fun _ => rfl) (fun _ => rfl) fun l hl hbegin => hmarker ?_
  exact hbegin.isInfix.trans (infix_of_mem_readLinesFrom (fun _ => rfl) hl)

end Marker

/-! ## One stream -/

section OneStream

variable {marker left written : JString} {threshold status : Nat} {skipLF : Bool}
  (hne : marker ≠ []) (hmarker : ∀ c ∈ marker, isBreak c = false)
  (hleft : EndsLine left) (hleft_marker : ¬ marker <:+: left)
include hne hmarker hleft hleft_marker

/-- What was left on the stream is passed over, with the opening marker. -/
theorem scan_left {tail : JString} : scan marker threshold true [] skipLF ⟨threshold, []⟩
    (left ++ (marker ++ LF :: tail)) =
      scan marker threshold true [] false ⟨threshold + 1, []⟩ tail := by
  obtain ⟨skipLF', hscan⟩ : ∃ skipLF', scan marker threshold true [] skipLF ⟨threshold, []⟩
      (left ++ (marker ++ LF :: tail)) = scan marker threshold true [] skipLF'
        (Scan.keep ⟨threshold, []⟩ threshold (readLinesFrom [] skipLF left)) (marker ++ LF :: tail) :=
    scan_output hleft hleft_marker
  have hkeep : Scan.keep ⟨threshold, []⟩ threshold (readLinesFrom [] skipLF left) = ⟨threshold, []⟩ :=
    if_neg (Nat.lt_irrefl threshold)
  rw [hscan, hkeep, scan_opening hne hmarker]

/-- The lines are kept, and nothing is left. -/
theorem scan_echoed (hwritten : ¬ marker <:+: written) (hstatus : status < 256)
    (hends : EndsLine written) :
    scan marker threshold true [] skipLF ⟨threshold, []⟩ (left ++ echoed marker written status) =
      .ended ⟨threshold + 2, readLines written⟩ (some status) ⟨[], false⟩ := by
  have htail : marker ++ (unit ' ' :: (decimal status ++ [LF])) =
      (marker ++ unit ' ' :: decimal status) ++ [LF] := by simp
  rw [echoed, scan_left hne hmarker hleft hleft_marker, htail]
  obtain ⟨skipLF', hscan⟩ : ∃ skipLF', scan marker threshold true [] false ⟨threshold + 1, []⟩
      (written ++ ((marker ++ unit ' ' :: decimal status) ++ [LF])) = scan marker threshold true []
        skipLF' (Scan.keep ⟨threshold + 1, []⟩ threshold (readLinesFrom [] false written))
        ((marker ++ unit ' ' :: decimal status) ++ [LF]) :=
    scan_output hends hwritten
  have hkeep : Scan.keep ⟨threshold + 1, []⟩ threshold (readLinesFrom [] false written) =
      ⟨threshold + 1, readLines written⟩ := if_pos (Nat.lt_succ_self threshold)
  rw [hscan, hkeep, scan_closing hmarker hstatus]

/-- The closing marker is missed. -/
theorem scan_unterminated (hwritten : ¬ marker <:+: written) (hends : ¬ EndsLine written) :
    scan marker threshold true [] skipLF ⟨threshold, []⟩ (left ++ echoed marker written status) =
        .throws ∨
      scan marker threshold true [] skipLF ⟨threshold, []⟩ (left ++ echoed marker written status) =
        .blocks := by
  obtain ⟨ended, begun, rfl, hended, hbegun_ne, hbegun⟩ := exists_begun_line hends
  have htail : (ended ++ begun) ++ (marker ++ (unit ' ' :: (decimal status ++ [LF]))) =
      ended ++ ((begun ++ (marker ++ unit ' ' :: decimal status)) ++ [LF]) := by simp
  have hended_marker : ¬ marker <:+: ended :=
    fun h => hwritten (h.trans (List.prefix_append ended begun).isInfix)
  rw [echoed, scan_left hne hmarker hleft hleft_marker, htail]
  obtain ⟨skipLF', hscan⟩ : ∃ skipLF', scan marker threshold true [] false ⟨threshold + 1, []⟩
      (ended ++ ((begun ++ (marker ++ unit ' ' :: decimal status)) ++ [LF])) =
        scan marker threshold true [] skipLF'
          (Scan.keep ⟨threshold + 1, []⟩ threshold (readLinesFrom [] false ended))
          ((begun ++ (marker ++ unit ' ' :: decimal status)) ++ [LF]) :=
    scan_output hended hended_marker
  rw [hscan]
  exact scan_missed hmarker hbegun hbegun_ne

end OneStream

/-! ## Calls -/

namespace Command

theorem marker_no_break (c : Command) : ∀ d ∈ c.marker, isBreak d = false := by
  intro d hd
  rcases c.marker_uuid d hd with halnum | rfl
  · exact isBreak_of_isTrim_false (isTrim_of_isAlnum halnum)
  · decide

/-- Both outputs end their last lines. -/
def EndsLines (c : Command) : Prop := EndsLine c.out ∧ EndsLine c.err

end Command

/-- The shell is alive, and what is left on its streams is whole lines without the marker. -/
structure Shell.Ready (sh : Shell) (marker : JString) : Prop where
  alive : sh.alive = true
  stdout : EndsLine sh.stdout.pending ∧ ¬ marker <:+: sh.stdout.pending
  stderr : EndsLine sh.stderr.pending ∧ ¬ marker <:+: sh.stderr.pending

/-- Nothing is left on the streams. -/
def Shell.empty : Shell := ⟨⟨[], false⟩, ⟨[], false⟩, true⟩

theorem Shell.empty_ready {c : Command} : Shell.empty.Ready c.marker := by
  have hnil : EndsLine [] ∧ ¬ c.marker <:+: [] :=
    ⟨(fun d hd => by cases hd), fun h => c.marker_ne_nil (List.infix_nil.mp h)⟩
  exact ⟨rfl, hnil, hnil⟩

section Calls

variable {sh : Shell} {c : Command} (hsh : sh.Ready c.marker)
include hsh

/-- A call stays in step if both outputs end their last lines. -/
theorem call_of_endsLines (h : c.EndsLines) :
    call sh c = (.returned c.status, readLines c.out, .empty) := by
  obtain ⟨⟨stdout, skipOut⟩, ⟨stderr, skipErr⟩, alive⟩ := sh
  obtain ⟨halive, ⟨hout, hout_marker⟩, ⟨herr, herr_marker⟩⟩ := hsh
  obtain rfl : alive = true := halive
  unfold call run Shell.execute Stream.write
  dsimp only
  rw [scan_echoed c.marker_ne_nil c.marker_no_break hout hout_marker c.out_no_marker c.status_lt h.1]
  dsimp only
  rw [scan_echoed c.marker_ne_nil c.marker_no_break herr herr_marker c.err_no_marker c.status_lt h.2]
  simp [Shell.empty]

/-- Otherwise it throws, or blocks. -/
theorem call_of_not_endsLines (h : ¬ c.EndsLines) :
    (call sh c).1 = .numberFormatException ∨ (call sh c).1 = .blocks := by
  obtain ⟨⟨stdout, skipOut⟩, ⟨stderr, skipErr⟩, alive⟩ := sh
  obtain ⟨halive, ⟨hout, hout_marker⟩, ⟨herr, herr_marker⟩⟩ := hsh
  obtain rfl : alive = true := halive
  unfold call run Shell.execute Stream.write
  dsimp only
  by_cases hends : EndsLine c.out
  · rw [scan_echoed c.marker_ne_nil c.marker_no_break hout hout_marker c.out_no_marker c.status_lt hends]
    dsimp only
    have herr_ends : ¬ EndsLine c.err := fun herr_ends => h ⟨hends, herr_ends⟩
    rcases scan_unterminated c.marker_ne_nil c.marker_no_break herr herr_marker c.err_no_marker herr_ends
      with hscan | hscan
    · rw [hscan]
      exact .inl rfl
    · rw [hscan]
      exact .inr rfl
  · rcases scan_unterminated c.marker_ne_nil c.marker_no_break hout hout_marker c.out_no_marker hends
      with hscan | hscan
    · rw [hscan]
      exact .inl rfl
    · rw [hscan]
      exact .inr rfl

end Calls

/-- Every call of a sequence returns the status of its command with the lines of its output, and leaves
nothing on the streams, exactly when the outputs of all commands end their last lines. -/
theorem runAll_in_step_iff {sh : Shell} {commands : List Command}
    (hsh : ∀ c ∈ commands, sh.Ready c.marker) :
    ((runAll sh commands).1 = commands.map (fun c => (.returned c.status, readLines c.out)) ∧
      (commands ≠ [] → (runAll sh commands).2 = .empty)) ↔ ∀ c ∈ commands, c.EndsLines := by
  induction commands generalizing sh with
  | nil => exact iff_of_true ⟨rfl, fun h => absurd rfl h⟩ (List.forall_mem_nil _)
  | cons c commands ih =>
    have hready := hsh c List.mem_cons_self
    have hhead : (runAll sh (c :: commands)).1.head? = some ((call sh c).1, (call sh c).2.1) := by
      rw [runAll]
      split <;> rfl
    by_cases hends : c.EndsLines
    · have hcall := call_of_endsLines hready hends
      have hrun : runAll sh (c :: commands) = ((.returned c.status, readLines c.out) ::
          (runAll .empty commands).1, (runAll .empty commands).2) := by
        rw [runAll, hcall]
        rfl
      have hempty : ∀ c ∈ commands, Shell.empty.Ready c.marker := fun c _ => Shell.empty_ready
      have hrest := ih hempty
      rw [List.forall_mem_cons, hrun, and_iff_right hends, ← hrest, List.map_cons, List.cons_inj_right]
      refine and_congr_right fun _ => ⟨fun h _ => h (List.cons_ne_nil _ _), fun h _ => ?_⟩
      cases commands with
      | nil => rfl
      | cons d commands => exact h (List.cons_ne_nil _ _)
    · refine iff_of_false (fun h => ?_) fun h => hends (h c List.mem_cons_self)
      rw [h.1, List.map_cons, List.head?_cons] at hhead
      have hreturned : .returned c.status = (call sh c).1 := congrArg Prod.fst (Option.some.inj hhead)
      rcases call_of_not_endsLines hready hends with hcall | hcall
      · cases hreturned.trans hcall
      · cases hreturned.trans hcall

theorem sampleMarker_uuid : ∀ c ∈ text "123e4567-e89b-42d3-a456-426614174000",
    isAlnum c = true ∨ c = unit '-' := by
  decide

theorem sampleMarker_ne_nil : text "123e4567-e89b-42d3-a456-426614174000" ≠ [] := by decide

theorem nil_no_marker : ¬ text "123e4567-e89b-42d3-a456-426614174000" <:+: [] := by decide

theorem one_lt_256 : 1 < 256 := by decide

/-- A command that writes this text to `stdout`, if it does not have the marker. -/
def sampleCommand (out : JString) (h : ¬ text "123e4567-e89b-42d3-a456-426614174000" <:+: out) :
    Command where
  marker := text "123e4567-e89b-42d3-a456-426614174000"
  out := out
  err := []
  status := 1
  marker_ne_nil := sampleMarker_ne_nil
  marker_uuid := sampleMarker_uuid
  out_no_marker := h
  err_no_marker := nil_no_marker
  status_lt := one_lt_256

theorem lines_no_marker : ¬ text "123e4567-e89b-42d3-a456-426614174000" <:+: text "a\nb\n" := by decide

theorem runAll_sample : (runAll .empty [sampleCommand (text "a\nb\n") lines_no_marker]).1 =
    [(.returned 1, [text "a", text "b"])] := by
  have hready : ∀ c ∈ [sampleCommand (text "a\nb\n") lines_no_marker], Shell.empty.Ready c.marker :=
    fun c _ => Shell.empty_ready
  refine ((runAll_in_step_iff hready).mpr fun c hc => ?_).1
  cases List.mem_singleton.mp hc
  refine ⟨fun d hd => ?_, fun d hd => ?_⟩
  · cases hd
    rfl
  · cases hd

theorem word_no_marker : ¬ text "123e4567-e89b-42d3-a456-426614174000" <:+: text "a" := by decide

/-- `printf a`: the call does not return. -/
theorem runAll_unterminated :
    (runAll .empty [sampleCommand (text "a") word_no_marker]).1 = [(.blocks, [])] := by
  decide

end WgAndroid.RootShell
