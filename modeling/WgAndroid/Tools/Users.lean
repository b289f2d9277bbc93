import Mathlib.Data.List.Sort
import WgAndroid.Tools.WgQuick

/-!
# The users of a network

`get_uid_list` and `set_users` of `wg-quick/android.c`: the uids of the selected applications are
looked up in the list of packages, and the network is given ranges of uids, at most 18 in a command.

Results:
1. `mem_gaps`: the ranges before the last excluded uid are the gaps between the excluded uids.
2. `sent_batches`: every range is sent once, in commands of at most 18.
3. `setUsers_exact_iff`: exactly when the ranges are those of the selected applications.
-/

namespace WgAndroid

/-! ## The list of packages -/

/-- A line of `packages.list`. The system writes the uid as a Java `int`. -/
structure PackageEntry where
  name : Bytes
  uid : Nat
  rest : Bytes
  name_ne : name ≠ []
  name_ok : ∀ c ∈ name, c ≠ byte ' ' ∧ c ≠ newline ∧ c ≠ 0
  rest_ok : newline ∉ rest
  uid_lt : uid < 2 ^ 31

def PackageEntry.text (p : PackageEntry) : Bytes :=
  p.name ++ byte ' ' :: (ascii (decimal p.uid) ++ byte ' ' :: p.rest)

def packagesList (packages : List PackageEntry) : Bytes :=
  packages.flatMap fun p => p.text ++ [newline]

/-- `strtoul(s, &endptr, 10)` on any text. -/
def strtoulAny (s : Bytes) : Nat × Bytes :=
  let unsigned (t : Bytes) (negate : Nat → Nat) : Nat × Bytes :=
    if (t.takeWhile charIsDigit).isEmpty then (0, s)
    else if digitsValue (t.takeWhile charIsDigit) < 2 ^ 64 then
      (negate (digitsValue (t.takeWhile charIsDigit)), t.dropWhile charIsDigit)
    else (2 ^ 64 - 1, t.dropWhile charIsDigit)
  match s.dropWhile isspace with
  | [] => (0, s)
  | c :: t =>
    if c = byte '-' then unsigned t fun n => (2 ^ 64 - n) % 2 ^ 64
    else unsigned (if c = byte '+' then t else c :: t) id

/-- The name and the uid of a line, unless it is skipped. -/
def packageOfLine (line : Bytes) : Option (Bytes × Nat) :=
  let line := cstr line
  if line.contains (byte ' ') then
    let name := line.takeWhile (· != byte ' ')
    let uidStr := (line.dropWhile (· != byte ' ')).tail.takeWhile (· != byte ' ')
    let uid := (strtoulAny uidStr).1 % 2 ^ 32
    if uid = 0 || uidStr.isEmpty || !(strtoulAny uidStr).2.isEmpty then none else some (name, uid)
  else none

/-- The lines of `packages.list` that are not skipped. -/
def packageLines (file : Bytes) : List (Bytes × Nat) := (getlines file).filterMap packageOfLine

/-! ## The list of applications -/

/-- A string of the option, with the memory behind its NUL. -/
structure AppList where
  text : Bytes
  after : Bytes
  text_ok : 0 ∉ text

/-- The tokens of the inner loop of `get_uid_list`. After the last token `start` is set behind the NUL
that ends it, so that the loop only ends at a NUL that stands where a token starts; `none` is a read
outside of the memory. -/
def readTokens (start : Bool) (token : Bytes) : Bytes → Option (List Bytes)
  | [] => none
  | c :: memory =>
    if start && c == 0 then some []
    else if c == 0 || c == byte ',' then (readTokens true [] memory).map (token :: ·)
    else readTokens false (token ++ [c]) memory

def AppList.tokens (apps : AppList) : Option (List Bytes) :=
  readTokens true [] (apps.text ++ 0 :: apps.after)

/-- The tokens that are read: the loop over them is run for every line of `packages.list`. -/
def AppList.read (apps : AppList) (file : Bytes) : Option (List Bytes) :=
  if (packageLines file).isEmpty then some [] else apps.tokens

/-- The length of `uid_list`: one more than the rounds of a loop that looks for commas, from the second
character on. -/
def AppList.capacity (apps : AppList) : Nat :=
  2 + (cstr (apps.text ++ 0 :: apps.after).tail).count (byte ',')

/-- The uids that are stored, in this order. -/
def selectUids (file : Bytes) (tokens : List Bytes) : List Nat :=
  (packageLines file).flatMap fun (name, uid) =>
    (tokens.filter fun token => !token.isEmpty && token == name).map fun _ => uid

/-- The difference of two `uid_t` as an `int`. -/
def compareUid (a b : Nat) : Int := ((a : Int) - b).bmod (2 ^ 32)

/-- `get_uid_list`, without the zero at the end; `none` if the array has no room for it. -/
def getUidList (file : Bytes) : Option AppList → Option (List Nat)
  | none => some []
  | some apps => do
    let tokens ← apps.read file
    let uids := selectUids file tokens
    if uids.length < apps.capacity then
      some (uids.mergeSort fun a b => decide (compareUid a b ≤ 0))
    else none

/-! ## Ranges -/

/-- A range of uids as it is printed into `range`. -/
structure UidRange where
  first : Nat
  last : Nat
  deriving DecidableEq

def UidRange.text (r : UidRange) : Bytes :=
  if r.first = r.last then ascii (decimal r.first)
  else ascii (decimal r.first) ++ cstring "-" ++ ascii (decimal r.last)

def UidRange.Covers (r : UidRange) (uid : Nat) : Prop := r.first ≤ uid ∧ uid ≤ r.last

/-- `network users add netid ranges` -/
def usersCommand (netid : Nat) (ranges : List UidRange) : Bytes :=
  cstring "network users add " ++ ascii (decimal netid) ++ cstring " " ++
    (cstring " ").intercalate (ranges.map UidRange.text)

/-- The variables of the loops of `set_users`. -/
structure UserRanges where
  ranges : List UidRange
  argsPerCommand : Nat
  sent : List (List UidRange)

namespace UserRanges

def init : UserRanges := ⟨[], 0, []⟩

/-- The end of a round: a range is added, and every 18 of them make a command. -/
def add (s : UserRanges) (r : UidRange) : UserRanges :=
  if (s.argsPerCommand + 1) % 18 = 0 then
    ⟨[], s.argsPerCommand + 1, s.sent ++ [s.ranges ++ [r]]⟩
  else ⟨s.ranges ++ [r], s.argsPerCommand + 1, s.sent⟩

/-- The loop over the excluded uids, which are not zero. -/
def excludeUids (s : UserRanges) (start : Nat) : List Nat → UserRanges × Nat
  | [] => (s, start)
  | uid :: uids =>
    excludeUids (if start > uid - 1 then s else s.add ⟨start, uid - 1⟩) (uid + 1) uids

/-- The range after the last excluded uid. -/
def excludeRest (s : UserRanges) (start : Nat) : UserRanges :=
  if start < 99999 then { s with ranges := s.ranges ++ [⟨start, 99999⟩] } else s

/-- The loop over the included uids. -/
def includeUids (s : UserRanges) (uids : List Nat) : UserRanges :=
  uids.foldl (fun s uid => s.add ⟨uid, uid⟩) s

/-- The command at the end. -/
def finish (s : UserRanges) : List (List UidRange) :=
  if s.ranges.isEmpty then s.sent else s.sent ++ [s.ranges]

end UserRanges

/-- What `set_users` does: it exits, it leaves its memory, or it sends commands. -/
inductive UsersOutcome where
  | exit
  | fault
  | commands (sent : List (List UidRange))

def setUsers (file : Bytes) (excluded included : Option AppList) : UsersOutcome :=
  match excluded, included with
  | some _, some _ => .exit
  | excluded, none =>
    match getUidList file excluded with
    | none => .fault
    | some uids =>
      let (s, start) := UserRanges.init.excludeUids 0 uids
      .commands (s.excludeRest start).finish
  | none, some included =>
    match getUidList file (some included) with
    | none => .fault
    | some uids => .commands (UserRanges.init.includeUids uids).finish

/-! ## Reading the list of packages -/

theorem strtoulAny_decimal {n : Nat} (h : n < 2 ^ 64) : strtoulAny (ascii (decimal n)) = (n, []) := by
  obtain ⟨c, rest, hc, hdigit⟩ := exists_digit_cons n
  obtain ⟨hspace, hminus, hplus⟩ := class_of_charIsDigit c hdigit
  have hskip : (ascii (decimal n)).dropWhile isspace = c :: rest := by
    rw [hc, List.dropWhile_cons_of_neg (by simp [hspace])]
  have hdrop : (ascii (decimal n)).dropWhile charIsDigit = [] :=
    List.dropWhile_eq_nil_iff.mpr fun _ hb => charIsDigit_of_mem_decimal hb
  have hne : (ascii (decimal n)).isEmpty = false := by rw [hc]; rfl
  rw [strtoulAny, hskip]
  simp only [if_neg hminus, if_neg hplus]
  rw [← hc, takeWhile_decimal, digitsValue_decimal, hdrop, hne, if_neg (by simp), if_pos h, id]

theorem ne_of_mem_decimal {n : Nat} {b c : UInt8} (h : b ∈ ascii (decimal n))
    (hc : charIsDigit c = false) : b ≠ c := by
  rintro rfl
  rw [charIsDigit_of_mem_decimal h] at hc
  cases hc

theorem packageOfLine_text (p : PackageEntry) :
    packageOfLine (p.text ++ [newline]) = if p.uid = 0 then none else some (p.name, p.uid) := by
  have hspace : byte ' ' ∉ p.name := fun h => (p.name_ok _ h).1 rfl
  have hdecimal : ∀ c, charIsDigit c = false → c ∉ ascii (decimal p.uid) :=
    fun c hc h => ne_of_mem_decimal h hc rfl
  have hcstr : cstr (p.text ++ [newline]) =
      p.name ++ byte ' ' :: (ascii (decimal p.uid) ++ byte ' ' :: cstr (p.rest ++ [newline])) := by
    have hzero : 0 ∉ p.name ++ byte ' ' :: (ascii (decimal p.uid) ++ [byte ' ']) := by
      simp only [List.mem_append, List.mem_cons, List.not_mem_nil, or_false, not_or]
      exact ⟨fun h => (p.name_ok _ h).2.2 rfl, by decide, hdecimal 0 (by decide), by decide⟩
    have happend := cstr_append hzero (p.rest ++ [newline])
    simpa [PackageEntry.text] using happend
  have hname := cut_append hspace
    (ascii (decimal p.uid) ++ byte ' ' :: cstr (p.rest ++ [newline]))
  have huid := (cut_append (hdecimal (byte ' ') (by decide)) (cstr (p.rest ++ [newline]))).1
  have hne : (ascii (decimal p.uid)).isEmpty = false := by
    obtain ⟨c, rest, hc, -⟩ := exists_digit_cons p.uid
    rw [hc]
    rfl
  have hlt := p.uid_lt
  rw [packageOfLine, hcstr]
  simp only [hname.1, hname.2, List.tail_cons, huid, strtoulAny_decimal (n := p.uid) (by omega), hne,
    Nat.mod_eq_of_lt (show p.uid < 2 ^ 32 by omega)]
  simp

theorem getlines_packagesList (packages : List PackageEntry) :
    getlines (packagesList packages) = packages.map fun p => p.text ++ [newline] := by
  have hlines : ∀ l ∈ packages.map PackageEntry.text, newline ∉ l := by
    intro l hl
    obtain ⟨p, -, rfl⟩ := List.mem_map.mp hl
    simp only [PackageEntry.text, List.mem_append, List.mem_cons, not_or]
    exact ⟨fun h => (p.name_ok _ h).2.1 rfl, by decide, fun h => ne_of_mem_decimal h (by decide) rfl,
      by decide, p.rest_ok⟩
  have h := getlines_lines hlines
  rwa [List.flatMap_map, List.map_map] at h

theorem packageLines_packagesList (packages : List PackageEntry) :
    packageLines (packagesList packages) =
      packages.filterMap fun p => if p.uid = 0 then none else some (p.name, p.uid) := by
  rw [packageLines, getlines_packagesList, List.filterMap_map]
  exact List.filterMap_congr fun p _ => packageOfLine_text p

theorem packageLines_ne_nil {packages : List PackageEntry} {p : PackageEntry} (hp : p ∈ packages)
    (hne : p.uid ≠ 0) : ¬ (packageLines (packagesList packages)).isEmpty = true := by
  rw [List.isEmpty_iff, packageLines_packagesList]
  refine List.ne_nil_of_mem (a := (p.name, p.uid)) (List.mem_filterMap.mpr ⟨p, hp, ?_⟩)
  rw [if_neg hne]

theorem mem_selectUids {packages : List PackageEntry} {tokens : List Bytes} {uid : Nat} :
    uid ∈ selectUids (packagesList packages) tokens ↔
      ∃ p ∈ packages, p.uid = uid ∧ uid ≠ 0 ∧ p.name ∈ tokens := by
  rw [selectUids, packageLines_packagesList]
  simp only [List.mem_flatMap, List.mem_filterMap, List.mem_map, List.mem_filter]
  constructor
  · rintro ⟨⟨name, uid'⟩, ⟨p, hp, heq⟩, token, ⟨htoken, hmatch⟩, rfl⟩
    split at heq
    · cases heq
    · next hzero =>
      obtain ⟨rfl, rfl⟩ := Prod.mk.inj (Option.some.inj heq)
      obtain rfl := eq_of_beq (Bool.and_eq_true_iff.mp hmatch).2
      exact ⟨p, hp, rfl, hzero, htoken⟩
  · rintro ⟨p, hp, rfl, hzero, htoken⟩
    exact ⟨(p.name, p.uid), ⟨p, hp, by rw [if_neg hzero]⟩, p.name, ⟨htoken, by simp [p.name_ne]⟩, rfl⟩

/-! ## The tokens -/

/-- Every name of the text is a token. -/
theorem mem_readTokens {text after token : Bytes} {start : Bool} {tokens : List Bytes}
    (htext : 0 ∉ text) (hstart : start = true → token = []) (hcomma : byte ',' ∉ token)
    (h : readTokens start token (text ++ 0 :: after) = some tokens) :
    ∀ name ∈ (token ++ text).splitOn (byte ','), name ≠ [] → name ∈ tokens := by
  induction text generalizing token start tokens with
  | nil =>
    intro name hname hne
    rw [List.append_nil, List.splitOn_eq_singleton hcomma, List.mem_singleton] at hname
    subst hname
    rw [List.nil_append, readTokens] at h
    cases start with
    | true => exact absurd (hstart rfl) hne
    | false =>
      simp only [Bool.false_and, Bool.false_eq_true, if_false, beq_self_eq_true, Bool.true_or,
        if_true, Option.map_eq_some_iff] at h
      obtain ⟨rest, -, rfl⟩ := h
      exact List.mem_cons_self
  | cons c text ih =>
    obtain ⟨hc, htail⟩ : c ≠ 0 ∧ 0 ∉ text := by
      rw [List.mem_cons, not_or] at htext
      exact ⟨Ne.symm htext.1, htext.2⟩
    rw [List.cons_append, readTokens, beq_false_of_ne hc, Bool.and_false, if_neg (by simp),
      Bool.false_or] at h
    split at h
    · next hsep =>
      obtain rfl := eq_of_beq hsep
      obtain ⟨rest, hrest, rfl⟩ := Option.map_eq_some_iff.mp h
      rw [List.splitOn_append_cons_self_of_not_mem hcomma]
      intro name hname hne
      rcases List.mem_cons.mp hname with rfl | hname
      · exact List.mem_cons_self
      · exact List.mem_cons_of_mem _ (ih htail (fun _ => rfl) (by simp) hrest name hname hne)
    · next hsep =>
      have htoken : byte ',' ∉ token ++ [c] := by
        simp only [List.mem_append, List.mem_singleton, not_or]
        exact ⟨hcomma, fun h => hsep (by rw [h]; simp)⟩
      have := ih htail (by simp) htoken h
      rwa [List.append_assoc, List.singleton_append] at this

/-! ## The ranges that are sent -/

/-- The ranges before the last excluded uid. -/
def gaps (start : Nat) : List Nat → List UidRange
  | [] => []
  | uid :: uids => (if start > uid - 1 then [] else [⟨start, uid - 1⟩]) ++ gaps (uid + 1) uids

/-- Where the loop over the excluded uids ends. -/
def afterLast (start : Nat) : List Nat → Nat
  | [] => start
  | uid :: uids => afterLast (uid + 1) uids

namespace UserRanges

theorem excludeUids_eq (s : UserRanges) (start : Nat) (uids : List Nat) :
    s.excludeUids start uids = ((gaps start uids).foldl add s, afterLast start uids) := by
  induction uids generalizing s start with
  | nil => rfl
  | cons uid uids ih =>
    rw [excludeUids, ih, gaps, List.foldl_append, afterLast]
    split <;> rfl

/-- What was added is in the commands and in the ranges that wait, in this order. -/
structure Batched (s : UserRanges) (added : List UidRange) : Prop where
  flatten : s.sent.flatten ++ s.ranges = added
  full : ∀ command ∈ s.sent, command.length ≤ 18
  waiting : s.ranges.length = s.argsPerCommand % 18

theorem Batched.add {s : UserRanges} {added : List UidRange} (h : s.Batched added) (r : UidRange) :
    (s.add r).Batched (added ++ [r]) := by
  have hwaiting := h.waiting
  unfold UserRanges.add
  split
  · next hfull =>
    refine ⟨?_, ?_, ?_⟩
    · rw [← h.flatten]
      simp
    · intro command hcommand
      rcases List.mem_append.mp hcommand with hcommand | hcommand
      · exact h.full command hcommand
      · rw [List.mem_singleton.mp hcommand, List.length_append, List.length_singleton]
        omega
    · exact hfull.symm
  · next hfull =>
    refine ⟨?_, h.full, ?_⟩
    · rw [← h.flatten]
      simp
    · show (s.ranges ++ [r]).length = (s.argsPerCommand + 1) % 18
      rw [List.length_append, List.length_singleton]
      omega

theorem Batched.foldl {s : UserRanges} {added : List UidRange} (h : s.Batched added)
    (rs : List UidRange) : (rs.foldl UserRanges.add s).Batched (added ++ rs) := by
  induction rs generalizing s added with
  | nil => rwa [List.append_nil]
  | cons r rs ih =>
    rw [List.foldl_cons, List.append_cons]
    exact ih (h.add r)

theorem batched_init : init.Batched [] := ⟨rfl, fun _ h => absurd h List.not_mem_nil, rfl⟩

/-- Every range is sent once, in commands of at most 18. At the end one more may have been added. -/
theorem sent_batches {s : UserRanges} {added last : List UidRange} (h : s.Batched added)
    (hlast : last.length ≤ 1) :
    ({ s with ranges := s.ranges ++ last }.finish).flatten = added ++ last ∧
      ∀ command ∈ { s with ranges := s.ranges ++ last }.finish, command.length ≤ 18 := by
  have hwaiting := h.waiting
  rw [← h.flatten]
  unfold finish
  split
  · next hempty =>
    obtain ⟨hranges, rfl⟩ := List.append_eq_nil_iff.mp (List.isEmpty_iff.mp hempty)
    refine ⟨?_, h.full⟩
    rw [hranges]
    simp
  · refine ⟨by simp, fun command hcommand => ?_⟩
    rcases List.mem_append.mp hcommand with hcommand | hcommand
    · exact h.full command hcommand
    · rw [List.mem_singleton.mp hcommand, List.length_append]
      omega

end UserRanges

/-! ## Gaps -/

/-- The uids of some ranges. -/
def Covered (rs : List UidRange) (uid : Nat) : Prop := ∃ r ∈ rs, r.Covers uid

theorem covered_append {rs rs' : List UidRange} {uid : Nat} :
    Covered (rs ++ rs') uid ↔ Covered rs uid ∨ Covered rs' uid := by
  simp only [Covered, List.mem_append, or_and_right, exists_or]

/-- The ranges before the last excluded uid are the gaps between the excluded uids. -/
theorem covered_gaps {start : Nat} {uids : List Nat} (hsorted : uids.Pairwise (· ≤ ·))
    (hstart : ∀ w ∈ uids, start ≤ w + 1) (hpos : ∀ w ∈ uids, w ≠ 0) (uid : Nat) :
    Covered (gaps start uids) uid ↔ start ≤ uid ∧ uid ∉ uids ∧ ∃ w ∈ uids, uid < w := by
  induction uids generalizing start with
  | nil => simp [Covered, gaps]
  | cons w uids ih =>
    obtain ⟨hle, htail⟩ := List.pairwise_cons.mp hsorted
    have hw := hpos w List.mem_cons_self
    have hsw := hstart w List.mem_cons_self
    have hrest := ih htail (fun v hv => Nat.succ_le_succ (hle v hv))
      fun v hv => hpos v (List.mem_cons_of_mem _ hv)
    have hhead : Covered (if start > w - 1 then [] else [⟨start, w - 1⟩]) uid ↔
        start ≤ uid ∧ uid < w := by
      split
      · next h =>
        simp only [Covered, List.not_mem_nil, false_and, exists_false, false_iff]
        omega
      · simp only [Covered, List.mem_singleton, exists_eq_left, UidRange.Covers]
        omega
    rw [gaps, covered_append, hhead, hrest]
    constructor
    · rintro (⟨h₁, h₂⟩ | ⟨h₁, h₂, v, hv, hlt⟩)
      · refine ⟨h₁, ?_, w, List.mem_cons_self, h₂⟩
        rw [List.mem_cons, not_or]
        exact ⟨Nat.ne_of_lt h₂, fun hmem => absurd (hle uid hmem) (Nat.not_le.mpr h₂)⟩
      · refine ⟨by omega, ?_, v, List.mem_cons_of_mem _ hv, hlt⟩
        rw [List.mem_cons, not_or]
        exact ⟨by omega, h₂⟩
    · rintro ⟨h₁, h₂, v, hv, hlt⟩
      rw [List.mem_cons, not_or] at h₂
      rcases Nat.lt_or_gt_of_ne h₂.1 with h | h
      · exact .inl ⟨h₁, h⟩
      · refine .inr ⟨h, h₂.2, ?_⟩
        rcases List.mem_cons.mp hv with rfl | hv
        · omega
        · exact ⟨v, hv, hlt⟩

theorem le_afterLast {start : Nat} {uids : List Nat} (hsorted : uids.Pairwise (· ≤ ·))
    (hne : uids ≠ []) : afterLast start uids ∈ uids.map (· + 1) ∧
      ∀ w ∈ uids, w < afterLast start uids := by
  induction uids generalizing start with
  | nil => exact absurd rfl hne
  | cons w uids ih =>
    obtain ⟨hle, htail⟩ := List.pairwise_cons.mp hsorted
    cases uids with
    | nil => simp [afterLast]
    | cons v uids =>
      obtain ⟨hmem, hlt⟩ := ih htail (List.cons_ne_nil _ _)
      rw [afterLast]
      refine ⟨List.mem_cons_of_mem _ hmem, ?_⟩
      rw [List.forall_mem_cons]
      exact ⟨Nat.lt_of_le_of_lt (hle v List.mem_cons_self) (hlt v List.mem_cons_self), hlt⟩

/-- The ranges stand in order, between the start and what comes after the last uid. -/
theorem gaps_ordered {start : Nat} {uids : List Nat} (hsorted : uids.Pairwise (· ≤ ·))
    (hstart : ∀ w ∈ uids, start ≤ w + 1) :
    (gaps start uids).Pairwise (fun r r' => r.last < r'.first) ∧
      (∀ r ∈ gaps start uids, start ≤ r.first ∧ r.last < afterLast start uids) ∧
      start ≤ afterLast start uids := by
  induction uids generalizing start with
  | nil => simp [gaps, afterLast]
  | cons w uids ih =>
    obtain ⟨hle, htail⟩ := List.pairwise_cons.mp hsorted
    have hnext : ∀ v ∈ uids, w + 1 ≤ v + 1 := fun v hv => Nat.succ_le_succ (hle v hv)
    obtain ⟨hordered, hbounds, hafter⟩ := ih htail hnext
    have hw := hstart w List.mem_cons_self
    have hhead : ∀ r ∈ (if start > w - 1 then [] else [(⟨start, w - 1⟩ : UidRange)]),
        r = ⟨start, w - 1⟩ := by
      intro r hr
      split at hr
      · exact absurd hr List.not_mem_nil
      · exact List.mem_singleton.mp hr
    rw [gaps, afterLast]
    refine ⟨List.pairwise_append.mpr ⟨?_, hordered, fun r hr r' hr' => ?_⟩, fun r hr => ?_, by omega⟩
    · split <;> simp
    · rw [hhead r hr]
      exact Nat.lt_of_le_of_lt (Nat.sub_le w 1) (hbounds r' hr').1
    · rcases List.mem_append.mp hr with hr | hr
      · rw [hhead r hr]
        exact ⟨Nat.le_refl _, by show w - 1 < _; omega⟩
      · exact ⟨Nat.le_trans hw (hbounds r hr).1, (hbounds r hr).2⟩

/-! ## The selection -/

/-- The uid of a package that the option names. -/
def Listed (packages : List PackageEntry) (apps : Option AppList) (uid : Nat) : Prop :=
  ∃ a ∈ apps, ∃ p ∈ packages, p.uid = uid ∧ p.name ∈ a.text.splitOn (byte ',')

/-- The commands give the network the wanted uids, each once, in at most 18 ranges a command. -/
structure ExactUsers (sent : List (List UidRange)) (wanted : Nat → Prop) : Prop where
  covers : ∀ uid, Covered sent.flatten uid ↔ wanted uid
  once : sent.flatten.Pairwise fun r r' => ∀ uid, ¬ (r.Covers uid ∧ r'.Covers uid)
  short : ∀ command ∈ sent, command.length ≤ 18

/-- Ranges in order have no uid in common. -/
theorem once_of_ordered {rs : List UidRange} (h : rs.Pairwise fun r r' => r.last < r'.first) :
    rs.Pairwise fun r r' => ∀ uid, ¬ (r.Covers uid ∧ r'.Covers uid) := by
  refine h.imp fun {r r'} hlt uid => ?_
  rintro ⟨⟨-, h₁⟩, ⟨h₂, -⟩⟩
  omega

/-- What is sent when uids are excluded. -/
def excludedRanges (uids : List Nat) : List UidRange :=
  gaps 0 uids ++ if afterLast 0 uids < 99999 then [⟨afterLast 0 uids, 99999⟩] else []

theorem excludedRanges_ordered {uids : List Nat} (hsorted : uids.Pairwise (· ≤ ·)) :
    (excludedRanges uids).Pairwise fun r r' => r.last < r'.first := by
  obtain ⟨hordered, hbounds, -⟩ := gaps_ordered hsorted fun _ _ => Nat.zero_le _
  refine List.pairwise_append.mpr ⟨hordered, ?_, fun r hr r' hr' => ?_⟩
  · split <;> simp
  · split at hr'
    · rw [List.mem_singleton.mp hr']
      exact (hbounds r hr).2
    · exact absurd hr' List.not_mem_nil

theorem setUsers_excluded {file : Bytes} {excluded : Option AppList} {uids : List Nat}
    (h : getUidList file excluded = some uids) :
    ∃ sent, setUsers file excluded none = .commands sent ∧ sent.flatten = excludedRanges uids ∧
      ∀ command ∈ sent, command.length ≤ 18 := by
  have hbatched := UserRanges.batched_init.foldl (gaps 0 uids)
  rw [List.nil_append] at hbatched
  have hrun : setUsers file excluded none =
      .commands (((gaps 0 uids).foldl UserRanges.add .init).excludeRest (afterLast 0 uids)).finish := by
    rw [setUsers.eq_def]
    simp only [h, UserRanges.excludeUids_eq]
  refine ⟨_, hrun, ?_⟩
  unfold UserRanges.excludeRest excludedRanges
  split
  · exact UserRanges.sent_batches hbatched (by simp)
  · have hnone : ([] : List UidRange).length ≤ 1 := Nat.zero_le 1
    simpa using UserRanges.sent_batches hbatched hnone

theorem setUsers_included {file : Bytes} {included : AppList} {uids : List Nat}
    (h : getUidList file (some included) = some uids) :
    ∃ sent, setUsers file none (some included) = .commands sent ∧
      sent.flatten = uids.map (fun uid => ⟨uid, uid⟩) ∧ ∀ command ∈ sent, command.length ≤ 18 := by
  have hbatched := UserRanges.batched_init.foldl (uids.map fun uid => ⟨uid, uid⟩)
  rw [List.nil_append, List.foldl_map] at hbatched
  have hrun : setUsers file none (some included) =
      .commands (UserRanges.init.includeUids uids).finish := by
    rw [setUsers.eq_def]
    simp only [h]
  refine ⟨_, hrun, ?_⟩
  have hnone : ([] : List UidRange).length ≤ 1 := Nat.zero_le 1
  simpa [UserRanges.includeUids] using UserRanges.sent_batches hbatched hnone

theorem compareUid_le {a b : Nat} (ha : a < 2 ^ 31) (hb : b < 2 ^ 31) :
    decide (compareUid a b ≤ 0) = decide (a ≤ b) := by
  have hdiff : compareUid a b = (a : Int) - b := by
    unfold compareUid
    exact Int.bmod_eq_of_le (by omega) (by omega)
  rw [hdiff]
  exact decide_eq_decide.mpr (by omega)

theorem sort_selectUids (packages : List PackageEntry) (tokens : List Bytes) :
    (selectUids (packagesList packages) tokens).mergeSort
        (fun a b => decide (compareUid a b ≤ 0)) =
      (selectUids (packagesList packages) tokens).mergeSort := by
  have hlt : ∀ uid ∈ selectUids (packagesList packages) tokens, uid < 2 ^ 31 := by
    intro uid huid
    obtain ⟨p, -, rfl, -⟩ := mem_selectUids.mp huid
    exact p.uid_lt
  have hmap := List.map_mergeSort (f := id) (s := fun a b : Nat => decide (a ≤ b)) fun a ha b hb =>
    compareUid_le (hlt a ha) (hlt b hb)
  rwa [List.map_id, List.map_id] at hmap

/-- The uids of an option that is given, as they are read and sorted. -/
theorem getUidList_eq_some {packages : List PackageEntry} {apps : AppList} {uids : List Nat} :
    getUidList (packagesList packages) (some apps) = some uids ↔
      ∃ tokens, apps.read (packagesList packages) = some tokens ∧
        (selectUids (packagesList packages) tokens).length < apps.capacity ∧
        (selectUids (packagesList packages) tokens).mergeSort = uids := by
  simp only [getUidList, Option.bind_eq_bind, Option.bind_eq_some_iff, sort_selectUids,
    Option.ite_none_right_eq_some, Option.some.injEq]

theorem pairwise_mergeSort (uids : List Nat) : (uids.mergeSort).Pairwise (· ≤ ·) := by
  have h := @List.pairwise_mergeSort Nat (fun a b => decide (a ≤ b))
    (fun a b c hab hbc => by simp only [decide_eq_true_eq] at hab hbc ⊢; exact Nat.le_trans hab hbc)
    (fun a b => by simpa using Nat.le_total a b) uids
  simpa using h

/-! ## When the selection is exact -/

/-- The uids that are excluded are those that were asked for, as far as the network has them; those
that are too high follow each other from 100000 on; and the last one is not 99998. -/
structure ExcludesWell (uids : List Nat) (listed : Nat → Prop) : Prop where
  same : ∀ uid ≤ 99999, uid ∈ uids ↔ listed uid
  high : ∀ uid ∈ uids, 100000 < uid → uid - 1 ∈ uids
  last : ¬ (99998 ∈ uids ∧ ∀ uid ∈ uids, uid ≤ 99998)

theorem covered_excludedRanges {uids : List Nat} (hsorted : uids.Pairwise (· ≤ ·))
    (hpos : ∀ w ∈ uids, w ≠ 0) (uid : Nat) :
    Covered (excludedRanges uids) uid ↔
      (uid ∉ uids ∧ ∃ w ∈ uids, uid < w) ∨
        (afterLast 0 uids ≤ uid ∧ uid ≤ 99999 ∧ afterLast 0 uids < 99999) := by
  have hrest : Covered (if afterLast 0 uids < 99999 then [⟨afterLast 0 uids, 99999⟩] else []) uid ↔
      afterLast 0 uids ≤ uid ∧ uid ≤ 99999 ∧ afterLast 0 uids < 99999 := by
    split
    · simp only [Covered, List.mem_singleton, exists_eq_left, UidRange.Covers]
      omega
    · simp only [Covered, List.not_mem_nil, false_and, exists_false, false_iff]
      omega
  rw [excludedRanges, covered_append, hrest,
    covered_gaps hsorted (fun _ _ => Nat.zero_le _) hpos, and_iff_right (Nat.zero_le _)]

/-- What comes after the last uid is above all of them. -/
theorem lt_afterLast {uids : List Nat} (hsorted : uids.Pairwise (· ≤ ·)) {w : Nat} (hw : w ∈ uids) :
    w < afterLast 0 uids :=
  (le_afterLast hsorted (List.ne_nil_of_mem hw)).2 w hw

theorem excludesWell_of_exact {uids : List Nat} {listed : Nat → Prop}
    (hsorted : uids.Pairwise (· ≤ ·)) (hpos : ∀ w ∈ uids, w ≠ 0)
    (hsub : ∀ uid, listed uid → uid ≠ 0 → uid ∈ uids)
    (h : ∀ uid, Covered (excludedRanges uids) uid ↔ uid ≤ 99999 ∧ ¬ listed uid) :
    ExcludesWell uids listed := by
  have hnot : ∀ uid ∈ uids, ¬ Covered (excludedRanges uids) uid := by
    intro uid huid
    rw [covered_excludedRanges hsorted hpos]
    rintro (⟨hmem, -⟩ | ⟨hle, -⟩)
    · exact hmem huid
    · exact absurd (lt_afterLast hsorted huid) (Nat.not_lt.mpr hle)
  refine ⟨fun uid hle => ⟨fun huid => ?_, fun hlisted => ?_⟩, fun uid huid hhigh => ?_, ?_⟩
  · by_contra hlisted
    exact hnot uid huid ((h uid).mpr ⟨hle, hlisted⟩)
  · by_contra hmem
    -- only the uid 0 is listed and not found, and then it is in the first range
    obtain rfl : uid = 0 := by_contra fun hne => hmem (hsub uid hlisted hne)
    refine ((h 0).mp ?_).2 hlisted
    rw [covered_excludedRanges hsorted hpos]
    cases huids : uids with
    | nil => exact .inr ⟨Nat.le_refl 0, Nat.zero_le _, by decide⟩
    | cons w rest =>
      have hw : w ∈ uids := by rw [huids]; exact List.mem_cons_self
      exact .inl ⟨huids ▸ hmem, w, List.mem_cons_self, Nat.pos_of_ne_zero (hpos w hw)⟩
  · by_contra hmem
    have hcovered : Covered (excludedRanges uids) (uid - 1) :=
      (covered_excludedRanges hsorted hpos _).mpr (.inl ⟨hmem, uid, huid, by omega⟩)
    have := ((h (uid - 1)).mp hcovered).1
    omega
  · rintro ⟨hmem, hall⟩
    have hmissing : ¬ Covered (excludedRanges uids) 99999 := by
      rw [covered_excludedRanges hsorted hpos]
      have hlast := lt_afterLast hsorted hmem
      rintro (⟨-, w, hw, hlt⟩ | ⟨-, -, hlt⟩)
      · exact absurd (hall w hw) (by omega)
      · omega
    have hlisted : listed 99999 := by
      by_contra hlisted
      exact hmissing ((h 99999).mpr ⟨Nat.le_refl _, hlisted⟩)
    exact absurd (hall _ (hsub _ hlisted (by decide))) (by decide)

/-- Above 100000 there is no gap below an excluded uid. -/
theorem mem_of_high {uids : List Nat} (hhigh : ∀ uid ∈ uids, 100000 < uid → uid - 1 ∈ uids)
    {uid d : Nat} (hge : 99999 < uid) (h : uid + d + 1 ∈ uids) : uid ∈ uids := by
  induction d with
  | zero => exact hhigh (uid + 1) h (by omega)
  | succ d ih => exact ih (hhigh (uid + (d + 1) + 1) h (by omega))

theorem exact_of_excludesWell {uids : List Nat} {listed : Nat → Prop}
    (hsorted : uids.Pairwise (· ≤ ·)) (hpos : ∀ w ∈ uids, w ≠ 0) (h : ExcludesWell uids listed)
    (uid : Nat) : Covered (excludedRanges uids) uid ↔ uid ≤ 99999 ∧ ¬ listed uid := by
  rw [covered_excludedRanges hsorted hpos]
  constructor
  · rintro (⟨hmem, w, hw, hlt⟩ | ⟨hafter, hle, -⟩)
    · have hle : uid ≤ 99999 := by
        by_contra hgt
        obtain ⟨d, rfl⟩ := Nat.exists_eq_add_of_lt hlt
        exact hmem (mem_of_high h.high (Nat.not_le.mp hgt) hw)
      exact ⟨hle, fun hlisted => hmem ((h.same uid hle).mpr hlisted)⟩
    · refine ⟨hle, fun hlisted => ?_⟩
      exact absurd (lt_afterLast hsorted ((h.same uid hle).mpr hlisted)) (Nat.not_lt.mpr hafter)
  · rintro ⟨hle, hlisted⟩
    have hmem : uid ∉ uids := fun hmem => hlisted ((h.same uid hle).mp hmem)
    by_cases hbelow : ∃ w ∈ uids, uid < w
    · exact .inl ⟨hmem, hbelow⟩
    · right
      by_cases hempty : uids = []
      · rw [hempty]
        exact ⟨Nat.zero_le _, hle, by decide⟩
      · have hlastMem : afterLast 0 uids ∈ uids.map (· + 1) := (le_afterLast hsorted hempty).1
        obtain ⟨w, hw, hafter⟩ := List.mem_map.mp hlastMem
        have hwle : w ≤ uid := Nat.not_lt.mp fun hlt => hbelow ⟨w, hw, hlt⟩
        have hwne : w ≠ uid := fun heq => hmem (heq ▸ hw)
        -- the last range is missing exactly when the last uid is 99998
        have hlast : w ≠ 99998 := by
          rintro rfl
          refine h.last ⟨hw, fun v hv => ?_⟩
          have := lt_afterLast hsorted hv
          omega
        omega

/-- The option that excludes applications does what it says. -/
def ExactExcluded (packages : List PackageEntry) (excluded : Option AppList) : Prop :=
  ∃ sent, setUsers (packagesList packages) excluded none = .commands sent ∧
    ExactUsers sent fun uid => uid ≤ 99999 ∧ ¬ Listed packages excluded uid

/-- The option that includes applications does what it says. -/
def ExactIncluded (packages : List PackageEntry) (included : AppList) : Prop :=
  ∃ sent, setUsers (packagesList packages) none (some included) = .commands sent ∧
    ExactUsers sent (Listed packages (some included))

/-- What is read from the memory of the option stays in it, fits into the array and is good. -/
def Reads (packages : List PackageEntry) (apps : AppList) (Good : List Nat → Prop) : Prop :=
  ∃ tokens, apps.read (packagesList packages) = some tokens ∧
    (selectUids (packagesList packages) tokens).length < apps.capacity ∧
    Good (selectUids (packagesList packages) tokens)

/-- Every listed package that is installed is found, unless its uid is 0. -/
theorem mem_selectUids_of_listed {packages : List PackageEntry} {apps : AppList}
    {tokens : List Bytes} (htokens : apps.read (packagesList packages) = some tokens) {uid : Nat}
    (h : Listed packages (some apps) uid) (hne : uid ≠ 0) :
    uid ∈ selectUids (packagesList packages) tokens := by
  obtain ⟨a, ha, p, hp, rfl, hname⟩ := h
  cases ha
  refine mem_selectUids.mpr ⟨p, hp, rfl, hne, ?_⟩
  rw [AppList.read, if_neg (packageLines_ne_nil hp hne)] at htokens
  exact mem_readTokens apps.text_ok (fun _ => rfl) (by simp) htokens p.name hname p.name_ne

theorem exactExcluded_none (packages : List PackageEntry) : ExactExcluded packages none := by
  obtain ⟨sent, hrun, hflatten, hshort⟩ :=
    setUsers_excluded (rfl : getUidList (packagesList packages) none = some [])
  refine ⟨sent, hrun, ?_, ?_, hshort⟩
  · intro uid
    have hnone : ExcludesWell [] fun _ => False := ⟨by simp, by simp, by simp⟩
    rw [hflatten, exact_of_excludesWell .nil (by simp) hnone]
    simp [Listed]
  · rw [hflatten]
    exact once_of_ordered (excludedRanges_ordered .nil)

theorem exactExcluded_iff (packages : List PackageEntry) (apps : AppList) :
    ExactExcluded packages (some apps) ↔
      Reads packages apps fun uids => ExcludesWell uids (Listed packages (some apps)) := by
  have hwell : ∀ {uids : List Nat} {listed : Nat → Prop},
      ExcludesWell uids.mergeSort listed ↔ ExcludesWell uids listed := by
    intro uids listed
    constructor <;> exact fun h => ⟨by simpa using h.same, by simpa using h.high, by simpa using h.last⟩
  constructor
  · rintro ⟨sent, hrun, hexact⟩
    cases hlist : getUidList (packagesList packages) (some apps) with
    | none =>
      rw [setUsers.eq_def] at hrun
      simp only [hlist] at hrun
      cases hrun
    | some sorted =>
      obtain ⟨tokens, htokens, hroom, rfl⟩ := getUidList_eq_some.mp hlist
      obtain ⟨sent', hrun', hflatten, -⟩ := setUsers_excluded hlist
      obtain rfl : sent = sent' := UsersOutcome.commands.inj (hrun.symm.trans hrun')
      refine ⟨tokens, htokens, hroom, hwell.mp (excludesWell_of_exact (pairwise_mergeSort _) ?_ ?_ ?_)⟩
      · intro w hw
        obtain ⟨p, -, -, hne, -⟩ := mem_selectUids.mp (List.mem_mergeSort.mp hw)
        exact hne
      · intro uid hlisted hne
        exact List.mem_mergeSort.mpr (mem_selectUids_of_listed htokens hlisted hne)
      · rw [← hflatten]
        exact hexact.covers
  · rintro ⟨tokens, htokens, hroom, hgood⟩
    obtain ⟨sent, hrun, hflatten, hshort⟩ :=
      setUsers_excluded (getUidList_eq_some.mpr ⟨tokens, htokens, hroom, rfl⟩)
    refine ⟨sent, hrun, fun uid => ?_, ?_, hshort⟩
    · rw [hflatten]
      refine exact_of_excludesWell (pairwise_mergeSort _) ?_ (hwell.mpr hgood) uid
      intro w hw
      obtain ⟨p, -, -, hne, -⟩ := mem_selectUids.mp (List.mem_mergeSort.mp hw)
      exact hne
    · rw [hflatten]
      exact once_of_ordered (excludedRanges_ordered (pairwise_mergeSort _))

theorem covered_singles {uids : List Nat} {uid : Nat} :
    Covered (uids.map fun uid => ⟨uid, uid⟩) uid ↔ uid ∈ uids := by
  constructor
  · rintro ⟨r, hr, hcovers⟩
    obtain ⟨w, hw, rfl⟩ := List.mem_map.mp hr
    rwa [show uid = w from Nat.le_antisymm hcovers.2 hcovers.1]
  · exact fun h => ⟨⟨uid, uid⟩, List.mem_map_of_mem h, Nat.le_refl _, Nat.le_refl _⟩

theorem once_singles {uids : List Nat} :
    ((uids.map fun uid => (⟨uid, uid⟩ : UidRange)).Pairwise
      fun r r' => ∀ uid, ¬ (r.Covers uid ∧ r'.Covers uid)) ↔ uids.Nodup := by
  rw [List.pairwise_map, List.nodup_iff_pairwise_ne]
  refine List.Pairwise.iff fun a b => ⟨?_, ?_⟩
  · rintro h rfl
    exact h a ⟨⟨Nat.le_refl _, Nat.le_refl _⟩, Nat.le_refl _, Nat.le_refl _⟩
  · rintro hne uid ⟨⟨h₁, h₂⟩, h₃, h₄⟩
    exact hne (Nat.le_antisymm (Nat.le_trans h₁ h₄) (Nat.le_trans h₃ h₂))

theorem exactIncluded_iff (packages : List PackageEntry) (apps : AppList) :
    ExactIncluded packages apps ↔
      Reads packages apps fun uids =>
        uids.Nodup ∧ ∀ uid, uid ∈ uids ↔ Listed packages (some apps) uid := by
  constructor
  · rintro ⟨sent, hrun, hexact⟩
    cases hlist : getUidList (packagesList packages) (some apps) with
    | none =>
      rw [setUsers.eq_def] at hrun
      simp only [hlist] at hrun
      cases hrun
    | some sorted =>
      obtain ⟨tokens, htokens, hroom, rfl⟩ := getUidList_eq_some.mp hlist
      obtain ⟨sent', hrun', hflatten, -⟩ := setUsers_included hlist
      obtain rfl : sent = sent' := UsersOutcome.commands.inj (hrun.symm.trans hrun')
      have hcovers := hexact.covers
      have honce := hexact.once
      rw [hflatten] at hcovers honce
      refine ⟨tokens, htokens, hroom, ?_, fun uid => ?_⟩
      · exact (List.mergeSort_perm _ _).nodup_iff.mp (once_singles.mp honce)
      · rw [← hcovers, covered_singles, List.mem_mergeSort]
  · rintro ⟨tokens, htokens, hroom, hnodup, hsame⟩
    obtain ⟨sent, hrun, hflatten, hshort⟩ :=
      setUsers_included (getUidList_eq_some.mpr ⟨tokens, htokens, hroom, rfl⟩)
    refine ⟨sent, hrun, fun uid => ?_, ?_, hshort⟩
    · rw [hflatten, covered_singles, List.mem_mergeSort, hsame]
    · rw [hflatten]
      exact once_singles.mpr ((List.mergeSort_perm _ _).nodup_iff.mpr hnodup)

/-! ## Options in clean memory -/

/-- A NUL behind the one that ends the text ends the loop over the tokens. -/
theorem readTokens_clean (rest : Bytes) (start : Bool) {text token : Bytes} (htext : 0 ∉ text)
    (hcomma : byte ',' ∉ token) :
    ∃ tokens, readTokens start token (text ++ 0 :: 0 :: rest) = some tokens ∧
      tokens.length ≤ text.count (byte ',') + 1 ∧
      ∀ name ∈ tokens, name ∈ (token ++ text).splitOn (byte ',') := by
  induction text generalizing token start with
  | nil =>
    rw [List.nil_append, readTokens, List.append_nil, List.splitOn_eq_singleton hcomma]
    cases start with
    | true => exact ⟨[], rfl, by simp, by simp⟩
    | false => exact ⟨[token], rfl, by simp, by simp⟩
  | cons c text ih =>
    obtain ⟨hc, htail⟩ : c ≠ 0 ∧ 0 ∉ text := by
      rw [List.mem_cons, not_or] at htext
      exact ⟨Ne.symm htext.1, htext.2⟩
    rw [List.cons_append, readTokens, beq_false_of_ne hc, Bool.and_false, if_neg (by simp),
      Bool.false_or]
    by_cases hsep : c = byte ','
    · obtain ⟨tokens, hread, hlength, hnames⟩ := ih true htail List.not_mem_nil
      rw [if_pos (by simpa using hsep), hread, hsep, List.splitOn_append_cons_self_of_not_mem hcomma]
      refine ⟨token :: tokens, rfl, ?_, ?_⟩
      · rw [List.length_cons, List.count_cons_self]
        exact Nat.succ_le_succ hlength
      · rw [List.forall_mem_cons]
        exact ⟨List.mem_cons_self, fun name hname => List.mem_cons_of_mem _ (hnames name hname)⟩
    · have htoken : byte ',' ∉ token ++ [c] := by
        simp only [List.mem_append, List.mem_singleton, not_or]
        exact ⟨hcomma, fun h => hsep h.symm⟩
      obtain ⟨tokens, hread, hlength, hnames⟩ := ih false htail htoken
      rw [if_neg (by simpa using hsep)]
      refine ⟨tokens, hread, ?_, ?_⟩
      · rwa [List.count_cons_of_ne hsep]
      · rwa [List.append_assoc, List.singleton_append] at hnames

/-- The uids of a package, once for each token that names it. -/
def matchingUids (tokens : List Bytes) (package : Bytes × Nat) : List Nat :=
  (tokens.filter fun token => !token.isEmpty && token == package.1).map fun _ => package.2

theorem selectUids_eq_flatMap (file : Bytes) (tokens : List Bytes) :
    selectUids file tokens = (packageLines file).flatMap (matchingUids tokens) := rfl

/-- Different packages share no token. -/
theorem length_matchingUids_le {entries : List (Bytes × Nat)} (hnames : (entries.map Prod.fst).Nodup)
    (tokens : List Bytes) :
    (entries.flatMap (matchingUids tokens)).length ≤ tokens.countP fun token => !token.isEmpty := by
  induction entries generalizing tokens with
  | nil => exact Nat.zero_le _
  | cons p entries ih =>
    rw [List.map_cons, List.nodup_cons] at hnames
    have hhead : (matchingUids tokens p).length =
        (tokens.filter (· == p.1)).countP fun token => !token.isEmpty := by
      rw [matchingUids, List.length_map, List.countP_eq_length_filter, List.filter_filter]
    -- the other packages do not see the tokens of this one
    have hsame : entries.flatMap (matchingUids (tokens.filter fun token => !(token == p.1))) =
        entries.flatMap (matchingUids tokens) := by
      refine List.flatMap_congr fun q hq => ?_
      have hne : q.1 ≠ p.1 := fun heq => hnames.1 (heq ▸ List.mem_map_of_mem hq)
      rw [matchingUids, matchingUids, List.filter_filter]
      congr 1
      refine List.filter_congr fun token _ => ?_
      by_cases htoken : token = q.1
      · simp [htoken, hne]
      · simp [htoken]
    rw [List.flatMap_cons, List.length_append, hhead,
      List.countP_eq_countP_filter_add tokens (fun token => !token.isEmpty) (· == p.1), ← hsame]
    exact Nat.add_le_add_left (ih hnames.2 _) _

/-- The names that are read from the list of packages are those of packages. -/
theorem nodup_names {packages : List PackageEntry} (hdistinct : packages.Pairwise fun p q => p.name ≠ q.name) :
    ((packageLines (packagesList packages)).map Prod.fst).Nodup := by
  rw [packageLines_packagesList, List.map_filterMap, List.nodup_iff_pairwise_ne, List.pairwise_filterMap]
  refine hdistinct.imp fun {p q} hne name hname name' hname' => ?_
  have hof : ∀ {p : PackageEntry} {name : Bytes},
      (if p.uid = 0 then none else some (p.name, p.uid)).map Prod.fst = some name → name = p.name := by
    intro p name h
    split at h
    · cases h
    · exact (Option.some.inj h).symm
  rw [hof hname, hof hname']
  exact hne

/-- The names in the text are at most one more than the commas that are counted: a comma at its start
is not counted, and has no name before it. -/
theorem countP_tokens_le {text rest : Bytes} {tokens : List Bytes} (htext : 0 ∉ text)
    (h : readTokens true [] (text ++ 0 :: 0 :: rest) = some tokens) :
    (tokens.countP fun token => !token.isEmpty) ≤ text.tail.count (byte ',') + 1 := by
  cases text with
  | nil =>
    cases h
    exact Nat.zero_le _
  | cons c text =>
    have htail : 0 ∉ text := fun h => htext (List.mem_cons_of_mem _ h)
    by_cases hsep : c = byte ','
    · obtain ⟨names, hread, hlength, -⟩ :=
        readTokens_clean rest true htail List.not_mem_nil
      rw [hsep, List.cons_append, readTokens, if_neg (by decide), if_pos (by decide), hread] at h
      cases h
      show List.countP _ ([] :: names) ≤ _
      rw [List.countP_cons_of_neg (by simp)]
      exact Nat.le_trans List.countP_le_length hlength
    · obtain ⟨names, hread, hlength, -⟩ :=
        readTokens_clean rest true htext List.not_mem_nil
      cases h.symm.trans hread
      rw [List.count_cons_of_ne hsep] at hlength
      exact Nat.le_trans List.countP_le_length hlength

/-- With a NUL behind the text the uids are those of the listed packages, and the array has room for
them. -/
theorem selectUids_clean {packages : List PackageEntry} {apps : AppList}
    (hdistinct : packages.Pairwise fun p q => p.name ≠ q.name) (hclean : apps.after.head? = some 0) :
    ∃ tokens, apps.read (packagesList packages) = some tokens ∧
      (selectUids (packagesList packages) tokens).length < apps.capacity ∧
      ∀ uid, uid ∈ selectUids (packagesList packages) tokens ↔
        Listed packages (some apps) uid ∧ uid ≠ 0 := by
  obtain ⟨tokens, htokens, hcount, hnames⟩ : ∃ tokens, apps.read (packagesList packages) = some tokens ∧
      (tokens.countP fun token => !token.isEmpty) ≤ apps.text.tail.count (byte ',') + 1 ∧
      ∀ name ∈ tokens, name ∈ apps.text.splitOn (byte ',') := by
    unfold AppList.read
    split
    · exact ⟨[], rfl, Nat.zero_le _, fun _ hname => absurd hname List.not_mem_nil⟩
    · obtain ⟨rest, hafter⟩ := List.head?_eq_some_iff.mp hclean
      obtain ⟨tokens, hread, -, hnames⟩ := readTokens_clean rest true apps.text_ok List.not_mem_nil
      exact ⟨tokens, by rw [AppList.tokens, hafter, hread], countP_tokens_le apps.text_ok hread, hnames⟩
  refine ⟨tokens, htokens, Nat.lt_of_le_of_lt (length_matchingUids_le (nodup_names hdistinct) tokens) ?_, ?_⟩
  · have hle : apps.text.tail.count (byte ',') ≤
        (cstr (apps.text ++ 0 :: apps.after).tail).count (byte ',') := by
      cases htext : apps.text with
      | nil => exact Nat.zero_le _
      | cons c text =>
        have hzero : 0 ∉ text := fun h => apps.text_ok (htext ▸ List.mem_cons_of_mem _ h)
        rw [List.cons_append, List.tail_cons, List.tail_cons, cstr_append hzero, List.count_append]
        exact Nat.le_add_right _ _
    rw [AppList.capacity]
    omega
  · intro uid
    refine ⟨fun h => ?_, fun ⟨hlisted, hne⟩ => mem_selectUids_of_listed htokens hlisted hne⟩
    obtain ⟨p, hp, rfl, hne, hname⟩ := mem_selectUids.mp h
    exact ⟨⟨apps, rfl, p, hp, rfl, hnames p.name hname⟩, hne⟩

/-- For an option in clean memory: no listed uid is 0, those that are too high follow each other from
100000 on, and the last one is not 99998. -/
theorem exactExcluded_clean_iff {packages : List PackageEntry} {apps : AppList}
    (hdistinct : packages.Pairwise fun p q => p.name ≠ q.name) (hclean : apps.after.head? = some 0) :
    ExactExcluded packages (some apps) ↔
      ¬ Listed packages (some apps) 0 ∧
      (∀ uid, Listed packages (some apps) uid → 100000 < uid → Listed packages (some apps) (uid - 1)) ∧
      ¬ (Listed packages (some apps) 99998 ∧ ∀ uid, Listed packages (some apps) uid → uid ≤ 99998) := by
  obtain ⟨tokens, htokens, hroom, hmem⟩ := selectUids_clean hdistinct hclean
  rw [exactExcluded_iff]
  constructor
  · rintro ⟨tokens', htokens', -, hwell⟩
    cases htokens.symm.trans htokens'
    refine ⟨fun hzero => ?_, fun uid huid hhigh => ?_, fun ⟨hlast, hall⟩ => ?_⟩
    · exact ((hmem 0).mp ((hwell.same 0 (Nat.zero_le _)).mpr hzero)).2 rfl
    · exact ((hmem _).mp (hwell.high uid ((hmem uid).mpr ⟨huid, by omega⟩) hhigh)).1
    · exact hwell.last ⟨(hmem _).mpr ⟨hlast, by decide⟩, fun uid huid => hall uid ((hmem uid).mp huid).1⟩
  · rintro ⟨hzero, hhigh, hlast⟩
    have hsame : ∀ uid, uid ∈ selectUids (packagesList packages) tokens ↔
        Listed packages (some apps) uid := by
      intro uid
      rw [hmem]
      exact and_iff_left_of_imp fun h hz => hzero (hz ▸ h)
    refine ⟨tokens, htokens, hroom, fun uid _ => hsame uid, ?_, ?_⟩
    · simpa only [hsame] using hhigh
    · simpa only [hsame] using hlast

theorem sample_name_ok : ∀ c ∈ cstring "com.example", c ≠ byte ' ' ∧ c ≠ newline ∧ c ≠ 0 := by
  decide +kernel

theorem sample_uid_lt : 99998 < 2 ^ 31 := by omega

/-- An application with the uid 99998, which is excluded. -/
def samplePackage : PackageEntry where
  name := cstring "com.example"
  uid := 99998
  rest := cstring "0 none"
  name_ne := List.cons_ne_nil _ _
  name_ok := sample_name_ok
  rest_ok := by decide
  uid_lt := sample_uid_lt

def sampleApps : AppList := ⟨cstring "com.example", [0], by decide⟩

end WgAndroid
