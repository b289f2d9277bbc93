import WgAndroid.Java.Text
import WgAndroid.Lib.Checked
import WgAndroid.Lib.Continued

/-!
# The log viewer

`streamingLog` of `LogViewerFragment`: the lines of `logcat` are parsed and collected, and from time to
time the collected entries are moved to the list that the view shows, from which old entries are dropped.
The view is told of every change by a notification.

Results:
1. `flush_spec`: what a flush does to the lists and what the view makes of its notifications.
2. `run_inStep`: the invariant of the loop.
3. `streamingLog_in_step`: the view and its list stay in step, and no entry is lost or moved.
-/

namespace WgAndroid.LogViewer

open Checked

/-! ## Lines -/

/-- What ends the loop. -/
inductive Throwable where
  | numberFormat
  | arrayIndexOutOfBounds
  deriving DecidableEq

structure LogLine where
  pid : Int
  tid : Int
  time : Option Int  -- a `Date`
  level : JString
  tag : JString
  msg : JString
  deriving DecidableEq

/-- The ways in which a part of a pattern matches at the start of a text, in the order in which they are
tried: what is matched, and the rest. -/
abbrev Matcher : Type := JString → List (JString × JString)

namespace Matcher

/-- Some characters of a class, few before many. -/
def lazily (p : UInt16 → Bool) (least : Nat) : Matcher := fun s =>
  ((List.range ((s.takeWhile p).length + 1)).drop least).map fun n => (s.take n, s.drop n)

/-- Some characters of a class, many before few. -/
def greedily (p : UInt16 → Bool) (least : Nat) : Matcher := fun s => (lazily p least s).reverse

/-- So many characters of a class. -/
def times (p : UInt16 → Bool) (n : Nat) : Matcher := fun s =>
  if n ≤ s.length ∧ (s.take n).all p then [(s.take n, s.drop n)] else []

def literal (t : String) : Matcher := fun s =>
  if (text t).isPrefixOf s then [(text t, s.drop (text t).length)] else []

def isTerminator (c : UInt16) : Bool := isBreak c || c == 0x85 || c == 0x2028 || c == 0x2029

/-- `.`, for one character: a pair of surrogates is one. -/
def dot : Matcher
  | hi :: lo :: s =>
    if 0xD800 ≤ hi ∧ hi < 0xDC00 ∧ 0xDC00 ≤ lo ∧ lo < 0xE000 then [([hi, lo], s)]
    else if isTerminator hi then [] else [([hi], lo :: s)]
  | [c] => if isTerminator c then [] else [([c], [])]
  | [] => []

/-- One part after the other. -/
def andThen (m m' : Matcher) : Matcher := fun s =>
  (m s).flatMap fun (x, s) => (m' s).map fun (y, s) => (x ++ y, s)

def optional (m : Matcher) : Matcher := fun s => m s ++ [([], s)]

/-- The groups of the first way in which the parts match a whole text. The parts that are marked are
groups. -/
def groups : List (Bool × Matcher) → JString → List (List JString)
  | [], s => if s.isEmpty then [[]] else []
  | (isGroup, m) :: ms, s => (m s).flatMap fun (x, s) =>
    (groups ms s).map fun xs => if isGroup then x :: xs else xs

end Matcher

open Matcher in
/-- `THREADTIME_LINE`. A boundary inside of a pair of surrogates never leads to a match, since a blank or
a colon follows, so that `.+?` and `.*` may be taken unit by unit. -/
def threadtimeLine : List (Bool × Matcher) :=
  let d := times isDigit
  let char : UInt16 → Bool := fun c => !isTerminator c
  [(true, [d 2, literal "-", d 2, literal " ", d 2, literal ":", d 2, literal ":", d 2, dot].foldr andThen (d 3)),
   (false, optional (andThen (greedily isSpace 1) (greedily isAlnum 1))),
   (false, greedily isSpace 1), (true, greedily isDigit 1),
   (false, greedily isSpace 1), (true, greedily isDigit 1),
   (false, greedily isSpace 1), (true, times (inRange 'A' 'Z') 1),
   (false, greedily isSpace 1), (true, lazily char 1),
   (false, greedily isSpace 0), (false, literal ": "), (true, greedily char 0)]

/-- What the lines are read with: the year of the fragment, and the parser of
`yyyy-MM-dd HH:mm:ss.SSS`; `none` is a `ParseException`. -/
structure Dates where
  year : JString
  parse : JString → Option Int

/-- The year 2026, with a clock of which one reading is known. -/
def sampleDates : Dates where
  year := text "2026"
  parse s := if s = text "2026-01-02 03:04:05.678" then some 1767323045678 else none

variable (D : Dates)

def parseTime (timeStr : JString) : Option Int := D.parse (D.year ++ text "-" ++ timeStr)

/-- `String.toInt` -/
def toInt (s : JString) : Except Throwable Int := (parseInt s).elim (.error .numberFormat) .ok

def parseLine (line : JString) : Except Throwable (Option LogLine) :=
  match (Matcher.groups threadtimeLine line).head? with
  | some [time, pid, tid, level, tag, msg] => do
    let pid ← toInt pid
    let tid ← toInt tid
    return some ⟨pid, tid, parseTime D time, level, tag, msg⟩
  | _ => return none

example :
    parseLine sampleDates (text "01-02 03:04:05.678  100 20 I a: b: c") =
      .ok (some ⟨100, 20, some 1767323045678, text "I", text "a", text "b: c"⟩) := by
  decide +kernel

/-! ## The loop -/

/-- The fields of the fragment and the variables of the loop. -/
structure View where
  rawLogLines : List JString
  logLines : List LogLine
  bufferedLogLines : List LogLine
  posStart : Int
  priorModified : Bool
  timeLastNotify : Int64
  timeout : Int64
  deriving DecidableEq

/-- What the adapter tells the view. -/
inductive Notification where
  | itemChanged (position : Int)
  | rangeRemoved (positionStart itemCount : Int)
  | rangeInserted (positionStart itemCount : Int)
  deriving DecidableEq

/-- A line that is read, the clock after it, and whether more can be read without waiting. -/
structure Read where
  line : JString
  timeNow : Int64
  ready : Bool

def maxLines : Nat := 2 ^ 16 - 1

def maxBufferedLines : Nat := 2 ^ 14 - 1

def LogLine.append (l : LogLine) (line : JString) : LogLine := { l with msg := l.msg ++ LF :: line }

namespace View

def start (timeLastNotify : Int64) : View := ⟨[], [], [], 0, false, timeLastNotify, 1000000000 / 2⟩

/-- A line that cannot be parsed belongs to the last entry. -/
def continued (v : View) (line : JString) : View :=
  if v.bufferedLogLines ≠ [] then { v with bufferedLogLines := v.bufferedLogLines.modifyLast (·.append line) }
  else if v.logLines ≠ [] then
    { v with logLines := v.logLines.modifyLast (·.append line), priorModified := true }
  else v

/-- A round of the loop, up to the test. -/
def receive (v : View) (line : JString) : Except Throwable View := do
  let rawLogLines := if v.rawLogLines.length ≥ maxLines then v.rawLogLines.tail else v.rawLogLines
  let v := { v with rawLogLines := rawLogLines ++ [line] }
  match ← parseLine D line with
  | some logLine => return { v with bufferedLogLines := v.bufferedLogLines ++ [logLine] }
  | none => return v.continued line

/-- The test: nothing is shown yet. -/
def waits (v : View) (r : Read) : Bool :=
  decide (v.bufferedLogLines.length < maxBufferedLines) &&
    decide (r.timeNow - v.timeLastNotify < v.timeout) && r.ready

end View

/-- `CircularArray.removeFromStart` -/
def removeFromStart {α : Type} (xs : List α) (numOfElements : Int) : Except Throwable (List α) :=
  if numOfElements ≤ 0 then .ok xs
  else if numOfElements > xs.length then .error .arrayIndexOutOfBounds
  else .ok (xs.drop numOfElements.toNat)

/-- What a flush leaves: the view, what it was told, and the entries that were dropped, which the code
does not keep. -/
structure Flush where
  view : View
  notifications : List Notification
  dropped : List LogLine

namespace View

/-- The entries that do not fit any more are dropped. -/
def makeRoom (v : View) : Except Throwable Flush :=
  let fullLen : Int := v.logLines.length + v.bufferedLogLines.length
  if fullLen ≥ maxLines then do
    let numToRemove := fullLen - maxLines + 1
    let logLines ← removeFromStart v.logLines numToRemove
    return {
      view := { v with logLines, posStart := v.posStart - numToRemove }
      notifications := .rangeRemoved 0 numToRemove :: if logLines.length > 0 then [.itemChanged 0] else []
      dropped := v.logLines.take numToRemove.toNat }
  else return ⟨v, [], []⟩

/-- What runs on the main thread. -/
def flush (v : View) : Except Throwable Flush := do
  let modified := if v.priorModified then [.itemChanged (v.posStart - 1)] else []
  let room ← { v with priorModified := false }.makeRoom
  let v := room.view
  let logLines := v.logLines ++ v.bufferedLogLines
  let previousLast := v.posStart - 1
  return {
    view := { v with logLines, bufferedLogLines := [], posStart := logLines.length }
    notifications := modified ++ room.notifications ++
      .rangeInserted v.posStart (logLines.length - v.posStart) ::
        if previousLast ≥ 0 then [.itemChanged previousLast] else []
    dropped := room.dropped }

end View

/-- The loop so far: the lines that were read, the view, all that it was told, the entries that were
dropped, and whether the last round ended with a flush. -/
structure History where
  lines : List JString
  view : View
  issued : List Notification
  dropped : List LogLine
  flushed : Bool
  deriving DecidableEq

namespace History

def start (timeLastNotify : Int64) : History := ⟨[], .start timeLastNotify, [], [], false⟩

/-- A round of the loop. -/
def round (h : History) (r : Read) : Except Throwable History := do
  let v ← h.view.receive D r.line
  if v.waits r then return { h with lines := h.lines ++ [r.line], view := v, flushed := false }
  else
    let f ← { v with timeout := 1000000000 * 5 / 2, timeLastNotify := r.timeNow }.flush
    return ⟨h.lines ++ [r.line], f.view, h.issued ++ f.notifications, h.dropped ++ f.dropped, true⟩

end History

/-- The loop over some lines, with any clock and any pauses. -/
def streamingLog (timeLastNotify : Int64) (reads : List Read) : Except Throwable History :=
  reads.foldlM (History.round D) (.start timeLastNotify)

/-! ## What the view makes of it -/

/-- A notification on a list of so many items; `none` if it names an item that is not there. -/
def Notification.replay (count : Int) : Notification → Option Int
  | .itemChanged position => if 0 ≤ position ∧ position < count then some count else none
  | .rangeRemoved start itemCount =>
    if 0 ≤ start ∧ 0 ≤ itemCount ∧ start + itemCount ≤ count then some (count - itemCount) else none
  | .rangeInserted start itemCount =>
    if 0 ≤ start ∧ start ≤ count ∧ 0 ≤ itemCount then some (count + itemCount) else none

def replay (count : Int) (ns : List Notification) : Option Int := ns.foldlM Notification.replay count

/-- The entry of a line that can be parsed. -/
def entryOf (line : JString) : Option LogLine :=
  match parseLine D line with
  | .ok entry => entry
  | .error _ => none

/-- All entries of some lines, each with the lines behind it that cannot be parsed. -/
def entries (lines : List JString) : List LogLine := Continued.records (entryOf D) LogLine.append lines

variable {D}

@[simp] theorem replay_nil {count : Int} : replay count [] = some count := rfl

@[simp] theorem replay_cons {count : Int} {n : Notification} {ns : List Notification} :
    replay count (n :: ns) = (n.replay count).bind fun count => replay count ns :=
  List.foldlM_cons

theorem replay_append {count : Int} {ns ns' : List Notification} :
    replay count (ns ++ ns') = (replay count ns).bind fun count => replay count ns' :=
  List.foldlM_append

/-- A change of an item that is there. -/
theorem replay_itemChanged {count position : Int} {c : Prop} [Decidable c]
    (h : c → 0 ≤ position ∧ position < count) :
    replay count (if c then [.itemChanged position] else []) = some count := by
  split
  · next hc =>
    rw [replay_cons, Notification.replay, if_pos (h hc)]
    rfl
  · rfl

/-! ## A flush -/

theorem removeFromStart_eq {α : Type} {xs : List α} {n : Nat} (h : n ≤ xs.length) :
    removeFromStart xs n = .ok (xs.drop n) := by
  unfold removeFromStart
  split
  · next hn =>
    obtain rfl : n = 0 := by omega
    rfl
  · rw [if_neg (by omega), Int.toNat_natCast]

namespace View

/-- The state before a flush. -/
structure Ready (v : View) : Prop where
  posStart : v.posStart = v.logLines.length
  size : v.logLines.length ≤ 65534
  buffered : v.bufferedLogLines.length ≤ 16383

/-- What is true after room has been made. -/
structure MadeRoom (v : View) (room : Flush) : Prop where
  posStart : room.view.posStart = room.view.logLines.length
  buffered : room.view.bufferedLogLines = v.bufferedLogLines
  modified : room.view.priorModified = v.priorModified
  size : room.view.logLines.length + v.bufferedLogLines.length ≤ 65534
  entries : room.dropped ++ room.view.logLines = v.logLines
  kept : room.dropped ≠ [] → room.view.logLines ≠ []
  replayed : replay v.logLines.length room.notifications = some (room.view.logLines.length : Int)

theorem makeRoom_spec {v : View} (h : v.Ready) : ∃ room, v.makeRoom = .ok room ∧ MadeRoom v room := by
  have hsize := h.size
  have hbuffered := h.buffered
  unfold makeRoom
  dsimp only
  split
  · next hfull =>
    have hfull : (65535 : Int) ≤ v.logLines.length + v.bufferedLogLines.length := hfull
    -- the buffer alone never fills the list, so some of the shown entries stay
    obtain ⟨n, hn, hle, hrest⟩ : ∃ n : Nat,
        (v.logLines.length : Int) + v.bufferedLogLines.length - maxLines + 1 = n ∧ n ≤ v.logLines.length ∧
          v.logLines.length - n + v.bufferedLogLines.length = 65534 := by
      refine ⟨v.logLines.length + v.bufferedLogLines.length - 65534, ?_, ?_, ?_⟩
      · rw [show (maxLines : Int) = 65535 from rfl]
        omega
      · omega
      · omega
    have hlength : (v.logLines.drop n).length = v.logLines.length - n := List.length_drop
    rw [hn, removeFromStart_eq hle, ok_bind]
    refine ⟨_, rfl, ?_, rfl, rfl, ?_, List.take_append_drop .., fun _ hnil => ?_, ?_⟩
    · show v.posStart - n = ((v.logLines.drop n).length : Int)
      rw [h.posStart, hlength]
      omega
    · show (v.logLines.drop n).length + _ ≤ 65534
      omega
    · have hnil : v.logLines.drop n = [] := hnil
      rw [hnil, List.length_nil] at hlength
      omega
    · show replay _ (.rangeRemoved 0 n :: _) = some ((v.logLines.drop n).length : Int)
      rw [replay_cons, Notification.replay, if_pos (by omega), Option.bind_some, replay_itemChanged (by omega),
        hlength]
      congr 1
      omega
  · next hfull =>
    have hfull : ¬ (65535 : Int) ≤ v.logLines.length + v.bufferedLogLines.length := hfull
    refine ⟨⟨v, [], []⟩, rfl, h.posStart, rfl, rfl, ?_, rfl, fun h => absurd rfl h, rfl⟩
    show v.logLines.length + v.bufferedLogLines.length ≤ 65534
    omega

/-- What is true after a flush. -/
structure Flushed (v : View) (f : Flush) : Prop where
  posStart : f.view.posStart = f.view.logLines.length
  buffered : f.view.bufferedLogLines = []
  modified : f.view.priorModified = false
  size : f.view.logLines.length ≤ 65534
  entries : f.dropped ++ f.view.logLines = v.logLines ++ v.bufferedLogLines
  kept : f.dropped ≠ [] ∨ v.logLines ≠ [] → f.view.logLines ≠ []
  replayed : replay v.logLines.length f.notifications = some (f.view.logLines.length : Int)

theorem flush_spec {v : View} (h : v.Ready) (hmodified : v.priorModified = true → v.logLines ≠ []) :
    ∃ f, v.flush = .ok f ∧ Flushed v f := by
  have hready : { v with priorModified := false }.Ready := ⟨h.posStart, h.size, h.buffered⟩
  obtain ⟨room, hroom, hmade⟩ := makeRoom_spec hready
  have hentries : room.dropped ++ room.view.logLines = v.logLines := hmade.entries
  have hbuffered : room.view.bufferedLogLines = v.bufferedLogLines := hmade.buffered
  have hfirst : replay v.logLines.length (if v.priorModified then [.itemChanged (v.posStart - 1)] else []) =
      some (v.logLines.length : Int) := by
    refine replay_itemChanged fun hpm => ?_
    have hpos := List.length_pos_iff.mpr (hmodified hpm)
    rw [h.posStart]
    omega
  unfold flush
  rw [hroom, ok_bind]
  refine ⟨_, rfl, rfl, rfl, hmade.modified, ?_, ?_, ?_, ?_⟩
  · show (room.view.logLines ++ room.view.bufferedLogLines).length ≤ 65534
    rw [List.length_append, hbuffered]
    exact hmade.size
  · show room.dropped ++ (room.view.logLines ++ room.view.bufferedLogLines) = _
    rw [← List.append_assoc, hentries, hbuffered]
  · intro hkept
    have hne : room.view.logLines ≠ [] := by
      by_cases hdropped : room.dropped = []
      · rw [hdropped, List.nil_append] at hentries
        rw [hentries]
        exact hkept.resolve_left fun hne => hne hdropped
      · exact hmade.kept hdropped
    exact List.append_ne_nil_of_left_ne_nil hne _
  · show replay _ (_ ++ _ ++ _ :: _) = some ((room.view.logLines ++ room.view.bufferedLogLines).length : Int)
    rw [replay_append, replay_append, hfirst, Option.bind_some, hmade.replayed, Option.bind_some, replay_cons,
      Notification.replay, hmade.posStart, if_pos, Option.bind_some, replay_itemChanged]
    · congr 1
      omega
    · rw [List.length_append]
      omega
    · rw [List.length_append]
      omega

/-! ## A line -/

/-- What is true after a line. -/
structure Received (D : Dates) (v : View) (line : JString) (w : View) : Prop where
  posStart : w.posStart = v.posStart
  size : w.logLines.length = v.logLines.length
  buffered : w.bufferedLogLines.length ≤ v.bufferedLogLines.length + 1
  modified : (v.priorModified = true → v.logLines ≠ []) → w.priorModified = true → w.logLines ≠ []
  entries : ∀ dropped : List LogLine, (dropped ≠ [] → v.logLines ≠ []) →
    dropped ++ (w.logLines ++ w.bufferedLogLines) =
      Continued.add (entryOf D) LogLine.append (dropped ++ (v.logLines ++ v.bufferedLogLines)) line

theorem continued_spec {v : View} {line : JString} (h : entryOf D line = none) :
    Received D v line (v.continued line) := by
  unfold continued
  split
  · next hbuffered =>
    refine ⟨rfl, rfl, ?_, fun hv => hv, fun dropped _ => ?_⟩
    · rw [Continued.length_modifyLast]
      exact Nat.le_succ _
    · rw [Continued.add_none h, ← List.append_assoc, ← List.append_assoc,
        List.modifyLast_append_of_right_ne_nil _ _ _ hbuffered]
  · next hbuffered =>
    have hbuffered : v.bufferedLogLines = [] := not_not.mp hbuffered
    split
    · next hne =>
      have hlength : (v.logLines.modifyLast (·.append line)).length = v.logLines.length :=
        Continued.length_modifyLast _ _
      refine ⟨rfl, hlength, Nat.le_succ _, fun _ _ hnil => hne ?_, fun dropped _ => ?_⟩
      · rw [← List.length_eq_zero_iff, ← hlength]
        exact List.length_eq_zero_iff.mpr hnil
      · show dropped ++ (v.logLines.modifyLast (·.append line) ++ v.bufferedLogLines) = _
        rw [Continued.add_none h, hbuffered, List.append_nil, List.append_nil,
          List.modifyLast_append_of_right_ne_nil _ _ _ hne]
    · next hnil =>
      have hnil : v.logLines = [] := not_not.mp hnil
      refine ⟨rfl, rfl, Nat.le_succ _, fun hv => hv, fun dropped hkept => ?_⟩
      -- no entry came before this line
      have hdropped : dropped = [] := not_not.mp fun hne => hkept hne hnil
      rw [Continued.add_none h, hdropped, hnil, hbuffered]
      rfl

/-- The raw lines have no part in it. -/
theorem Received.of_raw {v w : View} {line : JString} {rawLogLines : List JString}
    (h : Received D { v with rawLogLines } line w) : Received D v line w :=
  ⟨h.posStart, h.size, h.buffered, h.modified, h.entries⟩

theorem receive_spec {v w : View} {line : JString} (h : v.receive D line = .ok w) : Received D v line w := by
  obtain ⟨parsed, hparsed, h⟩ := bind_eq_ok.mp h
  have hentry : entryOf D line = parsed := by rw [entryOf, hparsed]
  cases parsed with
  | none =>
    cases h
    exact (continued_spec hentry).of_raw
  | some logLine =>
    cases h
    refine ⟨rfl, rfl, List.length_append.le, fun hv => hv, fun dropped _ => ?_⟩
    rw [Continued.add_some hentry, List.append_assoc, List.append_assoc]

end View

theorem toInt_eq_error {s : JString} {e : Throwable} (h : toInt s = .error e) : e = .numberFormat := by
  unfold toInt at h
  cases hs : parseInt s <;> rw [hs] at h <;> cases h
  rfl

theorem parseLine_eq_error {line : JString} {e : Throwable} (h : parseLine D line = .error e) :
    e = .numberFormat := by
  unfold parseLine at h
  split at h
  · rcases bind_eq_error.mp h with h | ⟨_, -, h⟩
    · exact toInt_eq_error h
    · rcases bind_eq_error.mp h with h | ⟨_, -, h⟩
      · exact toInt_eq_error h
      · cases h
  · cases h

theorem View.receive_eq_error {v : View} {line : JString} {e : Throwable} (h : v.receive D line = .error e) :
    parseLine D line = .error e := by
  rcases bind_eq_error.mp h with h | ⟨parsed, -, h⟩
  · exact h
  · cases parsed <;> cases h

/-! ## Rounds -/

namespace History

/-- The view and its list are in step. -/
structure InStep (D : Dates) (h : History) : Prop where
  posStart : h.view.posStart = h.view.logLines.length
  size : h.view.logLines.length ≤ 65534
  buffered : h.view.bufferedLogLines.length < 16383
  modified : h.view.priorModified = true → h.view.logLines ≠ []
  kept : h.dropped ≠ [] → h.view.logLines ≠ []
  entries : h.dropped ++ (h.view.logLines ++ h.view.bufferedLogLines) = LogViewer.entries D h.lines
  replayed : replay 0 h.issued = some (h.view.logLines.length : Int)
  flushed : h.flushed = true → h.view.bufferedLogLines = []

theorem start_inStep {timeLastNotify : Int64} : InStep D (start timeLastNotify) where
  posStart := rfl
  size := Nat.zero_le _
  buffered := Nat.zero_lt_succ _
  modified h := absurd h Bool.false_ne_true
  kept h := absurd rfl h
  entries := rfl
  replayed := rfl
  flushed _ := rfl

/-- A round without a flush. -/
theorem InStep.wait {h : History} {r : Read} {v : View} (hs : InStep D h) (hv : h.view.Received D r.line v)
    (hwaits : v.waits r = true) :
    InStep D { h with lines := h.lines ++ [r.line], view := v, flushed := false } where
  posStart := by rw [hv.posStart, hv.size, hs.posStart]
  size := hv.size.trans_le hs.size
  buffered := by
    simp only [View.waits, Bool.and_eq_true, decide_eq_true_iff] at hwaits
    exact hwaits.1.1
  modified := hv.modified hs.modified
  kept hne hnil := hs.kept hne (List.length_eq_zero_iff.mp (hv.size ▸ List.length_eq_zero_iff.mpr hnil))
  entries := by
    rw [hv.entries _ hs.kept, hs.entries]
    exact Continued.records_concat.symm
  replayed := hv.size ▸ hs.replayed
  flushed hf := absurd hf Bool.false_ne_true

/-- A round with a flush. -/
theorem InStep.flush {h : History} {r : Read} {v : View} (hs : InStep D h) (hv : h.view.Received D r.line v) :
    ∃ f, v.flush = .ok f ∧
      InStep D ⟨h.lines ++ [r.line], f.view, h.issued ++ f.notifications, h.dropped ++ f.dropped, true⟩ := by
  have hready : v.Ready :=
    ⟨by rw [hv.posStart, hv.size, hs.posStart], hv.size.trans_le hs.size, hv.buffered.trans hs.buffered⟩
  obtain ⟨f, hf, hflushed⟩ := View.flush_spec hready (hv.modified hs.modified)
  refine ⟨f, hf, hflushed.posStart, hflushed.size, ?_, ?_, ?_, ?_, ?_, fun _ => hflushed.buffered⟩
  · rw [hflushed.buffered]
    exact Nat.zero_lt_succ _
  · intro hmodified
    rw [hflushed.modified] at hmodified
    cases hmodified
  · intro hne
    refine hflushed.kept ?_
    by_cases hdropped : f.dropped = []
    · rw [hdropped, List.append_nil] at hne
      have hlines := List.length_pos_iff.mpr (hs.kept hne)
      rw [← hv.size] at hlines
      exact .inr (List.length_pos_iff.mp hlines)
    · exact .inl hdropped
  · rw [hflushed.buffered, List.append_nil, List.append_assoc, hflushed.entries, hv.entries _ hs.kept, hs.entries]
    exact Continued.records_concat.symm
  · rw [replay_append, hs.replayed, Option.bind_some, ← hv.size, hflushed.replayed]

/-- The clock has no part in it. -/
theorem InStep.flush_later {h : History} {r : Read} {v : View} {timeLastNotify timeout : Int64}
    (hs : InStep D h) (hv : h.view.Received D r.line v) :
    ∃ f, { v with timeLastNotify, timeout }.flush = .ok f ∧
      InStep D ⟨h.lines ++ [r.line], f.view, h.issued ++ f.notifications, h.dropped ++ f.dropped, true⟩ :=
  hs.flush ⟨hv.posStart, hv.size, hv.buffered, hv.modified, hv.entries⟩

theorem round_inStep {h h' : History} {r : Read} (hs : InStep D h) (hround : h.round D r = .ok h') :
    InStep D h' ∧ h'.lines = h.lines ++ [r.line] := by
  obtain ⟨v, hv, hround⟩ := bind_eq_ok.mp hround
  have hv := View.receive_spec hv
  split at hround
  · next hwaits =>
    cases hround
    exact ⟨hs.wait hv hwaits, rfl⟩
  · obtain ⟨f, hf, hs'⟩ := hs.flush_later hv
    rw [hf, ok_bind] at hround
    cases hround
    exact ⟨hs', rfl⟩

/-- Only a line with a number that is too large ends the loop. -/
theorem round_eq_error {h : History} {r : Read} {e : Throwable} (hs : InStep D h)
    (hround : h.round D r = .error e) : parseLine D r.line = .error e := by
  rcases bind_eq_error.mp hround with herror | ⟨v, hv, hround⟩
  · exact View.receive_eq_error herror
  · split at hround
    · cases hround
    · obtain ⟨f, hf, -⟩ := hs.flush_later (View.receive_spec hv)
      rw [hf, ok_bind] at hround
      cases hround

end History

theorem run_inStep {timeLastNotify : Int64} {reads : List Read} {h : History}
    (hrun : streamingLog D timeLastNotify reads = .ok h) : h.InStep D ∧ h.lines = reads.map (·.line) := by
  have hkeeps := foldlM_invariant (f := History.round D)
    (fun h reads h' => h.InStep D → h'.InStep D ∧ h'.lines = h.lines ++ reads.map (·.line))
    (fun h hs => ⟨hs, (List.append_nil _).symm⟩)
    (fun hround hrest hs => by
      obtain ⟨hs', hlines⟩ := History.round_inStep hs hround
      rw [List.map_cons, List.append_cons, ← hlines]
      exact hrest hs')
    hrun
  exact hkeeps History.start_inStep

theorem run_eq_error {timeLastNotify : Int64} {reads : List Read} {e : Throwable}
    (hrun : streamingLog D timeLastNotify reads = .error e) : ∃ r ∈ reads, parseLine D r.line = .error e := by
  obtain ⟨pre, r, post, h, rfl, hpre, hround⟩ := foldlM_eq_error.mp hrun
  exact ⟨r, List.mem_append_right _ List.mem_cons_self, History.round_eq_error (run_inStep hpre).1 hround⟩

/-- The log view and its list stay in step, for every sequence of lines and every pattern of flushes: the
loop only ends early at a line with a number that does not fit, so that no entry is removed that is not
there; a flush leaves at most 65534 entries; what the view was told takes it from no item to the items of
the list; and the entries that were dropped and those that were kept are the entries of the lines, in
order, each with the lines behind it that cannot be parsed. -/
theorem streamingLog_in_step (D : Dates) (timeLastNotify : Int64) (reads : List Read) :
    (∀ e, streamingLog D timeLastNotify reads = .error e →
      e = .numberFormat ∧ ∃ r ∈ reads, parseLine D r.line = .error e) ∧
    ∀ h, streamingLog D timeLastNotify reads = .ok h →
      h.lines = reads.map (·.line) ∧
      h.view.logLines.length ≤ 65534 ∧
      h.view.posStart = h.view.logLines.length ∧
      replay 0 h.issued = some (h.view.logLines.length : Int) ∧
      h.dropped ++ h.view.logLines ++ h.view.bufferedLogLines = entries D h.lines ∧
      (h.flushed = true → h.view.bufferedLogLines = []) := by
  refine ⟨fun e hrun => ?_, fun h hrun => ?_⟩
  · obtain ⟨r, hmem, hparse⟩ := run_eq_error hrun
    exact ⟨parseLine_eq_error hparse, r, hmem, hparse⟩
  · obtain ⟨hs, hlines⟩ := run_inStep hrun
    refine ⟨hlines, hs.size, hs.posStart, hs.replayed, ?_, hs.flushed⟩
    rw [List.append_assoc]
    exact hs.entries

/-- A heading, an entry, and a second line of it, with one flush at the end. -/
def sampleReads : List Read :=
  [⟨text "--------- beginning of main", 1, true⟩, ⟨text "01-02 03:04:05.678  100 20 I a: b", 2, true⟩,
    ⟨text "c", 3, false⟩]

theorem streamingLog_sampleReads :
    ∃ h, streamingLog sampleDates 0 sampleReads = .ok h ∧ h.flushed = true ∧
      replay 0 h.issued = some (h.view.logLines.length : Int) ∧
      entries sampleDates h.lines = [⟨100, 20, some 1767323045678, text "I", text "a", text "b\nc"⟩] := by
  have hany : (streamingLog sampleDates 0 sampleReads).toOption.any (fun h => decide (h.flushed = true ∧
      h.dropped ++ h.view.logLines =
        [⟨100, 20, some 1767323045678, text "I", text "a", text "b\nc"⟩])) = true := by
    decide +kernel
  obtain ⟨h, hrun, hshown⟩ := (Option.any_eq_true _ _).mp hany
  rw [decide_eq_true_iff] at hshown
  have hrun := toOption_eq_some.mp hrun
  obtain ⟨-, hstep⟩ := streamingLog_in_step sampleDates 0 sampleReads
  obtain ⟨-, -, -, hreplayed, hentries, hflushed⟩ := hstep h hrun
  refine ⟨h, hrun, hshown.1, hreplayed, ?_⟩
  rw [← hentries, hflushed hshown.1, List.append_nil, hshown.2]

end WgAndroid.LogViewer
