import WgAndroid.Lib.Checked
import WgAndroid.Tools.QuickFile
import WgAndroid.Tools.Users

/-!
# The bounds of the list of uids

`get_uid_list` once more, with every access checked: it may read the string of the option with the NUL
that ends it, and write to the array that it has allocated.

Results:
1. `readTokens_isSome_iff`: when the loop over the names stays in the string.
2. `loop_noNul`: what `parse_options` stores are C strings.
3. `getUidList_of_checked`: within the bounds the checked list is the one that is sent.
4. `uidList_inBounds_iff`: exactly when the list of uids is made within its bounds.
-/

namespace WgAndroid

/-! ## The checked accesses -/

/-- An access outside of the string or of the array. -/
inductive UidFault where
  | scan
  | write
  deriving DecidableEq

/-- The loop `comma = strchr(comma + 1, ','), ++i` from `comma + 1` on: the value of `i` when no comma is
left. -/
def countCommas (i : Nat) : Bytes → Except UidFault Nat
  | [] => .error .scan
  | c :: memory =>
    if c == byte ',' then countCommas (i + 1) memory
    else if c == 0 then .ok (i + 1)
    else countCommas i memory

/-- `uid_list[i++] = package_uid` -/
def storeUid (capacity : Nat) (uid : Nat) (uids : List Nat) : Except UidFault (List Nat) :=
  if uids.length < capacity then .ok (uids ++ [uid]) else .error .write

/-- The loop over the names of the option, for a line of `packages.list`. -/
def storeLine (memory : Bytes) (capacity : Nat) (uids : List Nat) (package : Bytes × Nat) :
    Except UidFault (List Nat) := do
  let tokens ← (readTokens true [] memory).elim (.error .scan) .ok
  (tokens.filter fun token => !token.isEmpty && token == package.1).foldlM
    (fun uids _ => storeUid capacity package.2 uids) uids

/-- The array that is returned, and how much of it is in use. -/
structure UidArray where
  capacity : Nat
  uids : List Nat
  deriving DecidableEq

/-- The entries of the array; `xcalloc` has cleared those that are not in use. -/
def UidArray.entries (a : UidArray) : List Nat := a.uids ++ List.replicate (a.capacity - a.uids.length) 0

/-- `get_uid_list`, on the memory of the string. -/
def getUidListChecked (file : Bytes) : Option Bytes → Except UidFault UidArray
  | none => .ok ⟨1, []⟩
  | some text => do
    let memory := text ++ [0]
    let capacity ← countCommas 1 memory.tail
    let uids ← (packageLines file).foldlM (storeLine memory capacity) []
    return ⟨capacity, uids.mergeSort fun a b => decide (compareUid a b ≤ 0)⟩

/-! ## Reading the string -/

theorem countCommas_eq {text : Bytes} (h : 0 ∉ text) (i : Nat) :
    countCommas i (text ++ [0]) = .ok (i + text.count (byte ',') + 1) := by
  induction text generalizing i with
  | nil => rfl
  | cons c text ih =>
    rw [List.mem_cons, not_or] at h
    rw [List.cons_append, countCommas]
    by_cases hc : c = byte ','
    · rw [if_pos (by simpa using hc), ih h.2, hc, List.count_cons_self, Nat.add_right_comm i]
      rfl
    · rw [if_neg (by simpa using hc), if_neg (by simpa using Ne.symm h.1), ih h.2, List.count_cons_of_ne hc]

/-- The loop over the names stays in a text that ends with a comma, and in an empty one. -/
theorem readTokens_isSome_iff {text token : Bytes} {start : Bool} (h : 0 ∉ text) :
    (readTokens start token (text ++ [0])).isSome = true ↔
      text = [] ∧ start = true ∨ text.getLast? = some (byte ',') := by
  induction text generalizing token start with
  | nil => cases start <;> simp [readTokens]
  | cons c text ih =>
    rw [List.mem_cons, not_or] at h
    rw [List.cons_append, readTokens, beq_false_of_ne (Ne.symm h.1), Bool.and_false, if_neg (by simp),
      Bool.false_or]
    by_cases hc : c = byte ','
    · rw [if_pos (by simpa using hc), Option.isSome_map, ih h.2, hc]
      cases text <;> simp
    · rw [if_neg (by simpa using hc), ih h.2]
      cases text <;> simp [hc]

theorem length_readTokens {text token : Bytes} {start : Bool} {tokens : List Bytes} (h : 0 ∉ text)
    (hread : readTokens start token (text ++ [0]) = some tokens) : tokens.length = text.count (byte ',') := by
  induction text generalizing token start tokens with
  | nil =>
    cases start with
    | true =>
      cases hread
      rfl
    | false => cases hread
  | cons c text ih =>
    rw [List.mem_cons, not_or] at h
    rw [List.cons_append, readTokens, beq_false_of_ne (Ne.symm h.1), Bool.and_false, if_neg (by simp),
      Bool.false_or] at hread
    by_cases hc : c = byte ','
    · rw [if_pos (by simpa using hc)] at hread
      obtain ⟨rest, hrest, rfl⟩ := Option.map_eq_some_iff.mp hread
      rw [List.length_cons, ih h.2 hrest, hc, List.count_cons_self]
    · rw [if_neg (by simpa using hc)] at hread
      rw [ih h.2 hread, List.count_cons_of_ne hc]

/-- What was read within the bounds is read in a larger memory too. -/
theorem readTokens_append {memory token : Bytes} {start : Bool} {tokens : List Bytes}
    (h : readTokens start token memory = some tokens) (after : Bytes) :
    readTokens start token (memory ++ after) = some tokens := by
  induction memory generalizing token start tokens with
  | nil => cases h
  | cons c memory ih =>
    rw [readTokens] at h
    rw [List.cons_append, readTokens]
    split at h
    · rwa [if_pos (by assumption)]
    · rw [if_neg (by assumption)]
      split at h
      · obtain ⟨rest, hrest, rfl⟩ := Option.map_eq_some_iff.mp h
        rw [if_pos (by assumption), ih hrest]
        rfl
      · rw [if_neg (by assumption)]
        exact ih h

/-! ## Filling the array -/

theorem foldlM_storeUid {β : Type} {capacity uid : Nat} {xs : List β} {uids : List Nat}
    (h : uids.length + xs.length ≤ capacity) :
    xs.foldlM (fun uids _ => storeUid capacity uid uids) uids = .ok (uids ++ xs.map fun _ => uid) := by
  induction xs generalizing uids with
  | nil => rw [List.foldlM_nil, List.map_nil, List.append_nil]; rfl
  | cons x xs ih =>
    rw [List.length_cons] at h
    rw [List.foldlM_cons, storeUid, if_pos (by omega), Checked.ok_bind, ih]
    · rw [List.map_cons, List.append_assoc, List.singleton_append]
    · rw [List.length_append, List.length_singleton]
      omega

section Lines

variable {memory : Bytes} {capacity : Nat} {uids : List Nat} {entries : List (Bytes × Nat)}

/-- If the names can be read and there is room, every package is stored once for each of them. -/
theorem storeLines_eq {tokens : List Bytes} (hread : readTokens true [] memory = some tokens)
    (h : uids.length + (entries.flatMap (matchingUids tokens)).length ≤ capacity) :
    entries.foldlM (storeLine memory capacity) uids = .ok (uids ++ entries.flatMap (matchingUids tokens)) := by
  induction entries generalizing uids with
  | nil => rw [List.foldlM_nil, List.flatMap_nil, List.append_nil]; rfl
  | cons p entries ih =>
    rw [List.flatMap_cons, List.length_append, ← Nat.add_assoc] at h
    have hline : storeLine memory capacity uids p = .ok (uids ++ matchingUids tokens p) := by
      rw [storeLine, hread]
      refine foldlM_storeUid ?_
      rw [matchingUids, List.length_map] at h
      omega
    rw [List.foldlM_cons, hline, Checked.ok_bind, ih, List.flatMap_cons, List.append_assoc]
    rwa [List.length_append]

theorem storeLines_fault (hread : readTokens true [] memory = none) (hne : entries ≠ []) :
    entries.foldlM (storeLine memory capacity) uids = .error .scan := by
  obtain ⟨p, entries, rfl⟩ := List.exists_cons_of_ne_nil hne
  rw [List.foldlM_cons, storeLine, hread]
  rfl

end Lines

/-! ## The strings of the options -/

/-- The application lists of the options are C strings. -/
def QuickOptions.NoNul (s : QuickOptions) : Prop :=
  (∀ text ∈ s.excludedApplications, 0 ∉ text) ∧ ∀ text ∈ s.includedApplications, 0 ∉ text

namespace QuickOptions

theorem concatAndFree_noNul {orig : Option Bytes} {value : Bytes} (horig : ∀ text ∈ orig, 0 ∉ text)
    (hvalue : 0 ∉ value) : ∀ text ∈ concatAndFree orig (cstring ",") value, 0 ∉ text := by
  intro text htext
  cases orig with
  | none =>
    cases htext
    exact hvalue
  | some t =>
    cases htext
    rw [List.mem_append, List.mem_append, not_or, not_or]
    exact ⟨horig t rfl, by decide, hvalue⟩

theorem record_noNul {s : QuickOptions} (h : s.NoNul) {value : Bytes} (hvalue : 0 ∉ value) (key : QuickKey) :
    (s.record value key).NoNul := by
  cases key with
  | excludedApplications => exact ⟨concatAndFree_noNul h.1 hvalue, h.2⟩
  | includedApplications => exact ⟨h.1, concatAndFree_noNul h.2 hvalue⟩
  | address => exact h
  | dns => exact h
  | mtu => exact h

theorem init_noNul : init.NoNul := ⟨by simp [init], by simp [init]⟩

theorem zero_not_mem_clean (input : Bytes) : 0 ∉ clean input := by
  intro h
  simpa using List.mem_takeWhile_imp (List.mem_of_mem_filter h)

theorem line_noNul {s : QuickOptions} (h : s.NoNul) (input : Bytes) : (s.line input).NoNul := by
  unfold line
  dsimp only
  split
  · next key value hmatch =>
    split at hmatch
    · obtain ⟨name, least, -, -, rfl⟩ := quickMatch_eq_some hmatch
      exact record_noNul (s := { s with inInterfaceSection := s.inSection (clean input) }) h
        (fun hmem => zero_not_mem_clean input (List.mem_of_mem_drop hmem)) key
    · cases hmatch
  · exact h

theorem loop_noNul {s : QuickOptions} (h : s.NoNul) (ls : List Bytes) : (s.loop ls).NoNul := by
  induction ls generalizing s with
  | nil => exact h
  | cons l ls ih =>
    rw [loop]
    split
    · exact h
    · exact ih (line_noNul h l)

end QuickOptions

/-! ## The whole list -/

/-- The list of uids is made without an access outside of the string and the array, and ends with a
zero. -/
def InBounds (file : Bytes) (apps : Option Bytes) : Prop :=
  ∃ a, getUidListChecked file apps = .ok a ∧ a.uids.length + 1 ≤ a.capacity ∧ a.entries.getLast? = some 0

/-- The option is not given, or its list is not empty, and it ends with a comma unless there are no
packages. -/
def EndsWithComma (file : Bytes) (apps : Option Bytes) : Prop :=
  ∀ text ∈ apps, text ≠ [] ∧ (packageLines file = [] ∨ text.getLast? = some (byte ','))

theorem getLast_entries {a : UidArray} (h : a.uids.length + 1 ≤ a.capacity) : a.entries.getLast? = some 0 := by
  have hpos : a.capacity - a.uids.length ≠ 0 := by omega
  rw [UidArray.entries, List.getLast?_append, List.getLast?_replicate, if_neg hpos]
  rfl

/-- Within the bounds of the string every name fits: a text with a comma at its end has as many names as
commas. -/
theorem length_uids_lt {file : Bytes} {c : UInt8} {text : Bytes} {tokens : List Bytes} (h : 0 ∉ c :: text)
    (hnames : ((packageLines file).map Prod.fst).Nodup)
    (hread : readTokens true [] (c :: text ++ [0]) = some tokens) :
    ((packageLines file).flatMap (matchingUids tokens)).length + 1 ≤ 1 + text.count (byte ',') + 1 := by
  have hle := length_matchingUids_le hnames tokens
  have hcount : (tokens.countP fun token => !token.isEmpty) ≤ tokens.length := List.countP_le_length
  rw [length_readTokens h hread, List.count_cons] at hcount
  split at hcount <;> omega

section Text

variable {file : Bytes} {c : UInt8} {text : Bytes} (hzero : 0 ∉ c :: text)
include hzero

theorem getUidListChecked_cons :
    getUidListChecked file (some (c :: text)) =
      ((packageLines file).foldlM (storeLine (c :: text ++ [0]) (1 + text.count (byte ',') + 1)) []).map
        fun uids => ⟨1 + text.count (byte ',') + 1, uids.mergeSort fun a b => decide (compareUid a b ≤ 0)⟩ := by
  have htail : 0 ∉ text := fun h => hzero (List.mem_cons_of_mem _ h)
  show (countCommas 1 (text ++ [0]) >>= _) = _
  rw [countCommas_eq htail]
  rfl

theorem inBounds_of_stored {uids : List Nat}
    (h : (packageLines file).foldlM (storeLine (c :: text ++ [0]) (1 + text.count (byte ',') + 1)) [] = .ok uids)
    (hroom : uids.length + 1 ≤ 1 + text.count (byte ',') + 1) : InBounds file (some (c :: text)) := by
  have hlength : (uids.mergeSort fun a b => decide (compareUid a b ≤ 0)).length + 1 ≤
      1 + text.count (byte ',') + 1 := by
    rwa [List.length_mergeSort]
  refine ⟨⟨_, _⟩, ?_, hlength, getLast_entries (a := ⟨_, _⟩) hlength⟩
  rw [getUidListChecked_cons hzero, h]
  rfl

theorem inBounds_cons_iff (hnames : ((packageLines file).map Prod.fst).Nodup) :
    InBounds file (some (c :: text)) ↔
      packageLines file = [] ∨ (c :: text).getLast? = some (byte ',') := by
  by_cases hlines : packageLines file = []
  · have hnone : (packageLines file).foldlM (storeLine (c :: text ++ [0]) (1 + text.count (byte ',') + 1)) [] =
        .ok [] := by
      rw [hlines]
      rfl
    exact iff_of_true (inBounds_of_stored hzero hnone (by simp)) (.inl hlines)
  rw [or_iff_right hlines]
  have hends : (readTokens true [] (c :: text ++ [0])).isSome = true ↔
      (c :: text).getLast? = some (byte ',') :=
    (readTokens_isSome_iff hzero).trans (or_iff_right fun h => nomatch h.1)
  rw [← hends]
  cases hread : readTokens true [] (c :: text ++ [0]) with
  | none =>
    refine iff_of_false ?_ Bool.false_ne_true
    rintro ⟨a, ha, -⟩
    rw [getUidListChecked_cons hzero, storeLines_fault hread hlines] at ha
    cases ha
  | some tokens =>
    have hroom := length_uids_lt hzero hnames hread
    refine iff_of_true (inBounds_of_stored hzero (storeLines_eq hread ?_) hroom) rfl
    rw [List.length_nil, Nat.zero_add]
    exact Nat.le_of_succ_le hroom

end Text

/-- What lies behind the string does not matter then. -/
theorem getUidList_of_checked {file : Bytes} {apps : AppList} {a : UidArray}
    (hnames : ((packageLines file).map Prod.fst).Nodup)
    (h : getUidListChecked file (some apps.text) = .ok a) (hroom : a.uids.length + 1 ≤ a.capacity) :
    getUidList file (some apps) = some a.uids := by
  cases htext : apps.text with
  | nil =>
    rw [htext] at h
    cases h
  | cons c text =>
    have hzero : 0 ∉ c :: text := htext ▸ apps.text_ok
    have htail : 0 ∉ text := fun h => hzero (List.mem_cons_of_mem _ h)
    have hcapacity : apps.capacity = 1 + text.count (byte ',') + 1 := by
      rw [AppList.capacity, htext, List.cons_append, List.tail_cons, cstr_append htail, List.count_append,
        show cstr (0 :: apps.after) = [] from rfl, List.count_nil]
      omega
    rw [htext, getUidListChecked_cons hzero] at h
    obtain ⟨uids, huids, rfl⟩ := Checked.map_eq_ok h
    have hread : ∃ tokens, apps.read file = some tokens ∧ uids = selectUids file tokens := by
      unfold AppList.read
      by_cases hlines : packageLines file = []
      · rw [hlines] at huids
        cases huids
        refine ⟨[], by rw [hlines]; rfl, ?_⟩
        rw [selectUids_eq_flatMap, hlines]
        rfl
      · rw [if_neg (by simpa using hlines)]
        cases htokens : readTokens true [] (c :: text ++ [0]) with
        | none =>
          rw [storeLines_fault htokens hlines] at huids
          cases huids
        | some tokens =>
          have hlength := Nat.le_of_succ_le (length_uids_lt hzero hnames htokens)
          rw [storeLines_eq htokens (by rwa [List.length_nil, Nat.zero_add])] at huids
          cases huids
          refine ⟨tokens, ?_, rfl⟩
          have hmore := readTokens_append htokens apps.after
          rwa [List.append_assoc, List.singleton_append, ← htext] at hmore
    obtain ⟨tokens, htokens, rfl⟩ := hread
    rw [List.length_mergeSort] at hroom
    rw [getUidList, htokens]
    dsimp only [Option.bind_eq_bind, Option.bind_some]
    rw [if_pos (hcapacity ▸ hroom)]

theorem inBounds_iff {file : Bytes} {apps : Option Bytes} (hnames : ((packageLines file).map Prod.fst).Nodup)
    (happs : ∀ text ∈ apps, 0 ∉ text) : InBounds file apps ↔ EndsWithComma file apps := by
  cases apps with
  | none => exact iff_of_true ⟨⟨1, []⟩, rfl, Nat.le_refl 1, rfl⟩ fun _ h => nomatch h
  | some text =>
    cases text with
    | nil =>
      -- the search for commas starts behind the NUL
      refine iff_of_false ?_ fun h => (h [] rfl).1 rfl
      rintro ⟨a, ha, -⟩
      cases ha
    | cons c text =>
      rw [inBounds_cons_iff (happs _ rfl) hnames]
      constructor
      · rintro h _ ⟨⟩
        exact ⟨List.cons_ne_nil _ _, h⟩
      · exact fun h => (h _ rfl).2

/-- For the two options of any configuration and any list of packages with distinct names, the list of
uids is made within its bounds if and only if the list of the option ends with a comma, or is not given,
or is not empty and there is nothing to look up. -/
theorem uidList_inBounds_iff (config file : Bytes) (hnames : ((packageLines file).map Prod.fst).Nodup) :
    (InBounds file (parseOptions config).excludedApplications ↔
      EndsWithComma file (parseOptions config).excludedApplications) ∧
    (InBounds file (parseOptions config).includedApplications ↔
      EndsWithComma file (parseOptions config).includedApplications) := by
  have hnul : (parseOptions config).NoNul := QuickOptions.loop_noNul QuickOptions.init_noNul _
  exact ⟨inBounds_iff hnames hnul.1, inBounds_iff hnames hnul.2⟩

def sampleAppsConfig (apps : String) : Bytes := cstring "[Interface]\nExcludedApplications=" ++ cstring apps ++ [newline]

def samplePackages : Bytes := cstring "com.example 10001 0 /data\ncom.other 10002 0 /data\n"

theorem uidList_comma : InBounds samplePackages (parseOptions (sampleAppsConfig "com.example,")).excludedApplications := by
  refine (uidList_inBounds_iff (sampleAppsConfig "com.example,") samplePackages (by decide +kernel)).1.mpr ?_
  rw [show (parseOptions (sampleAppsConfig "com.example,")).excludedApplications = some (cstring "com.example,") by
    decide +kernel]
  rintro _ ⟨⟩
  exact ⟨by decide, .inr (by decide)⟩

/-- One application, and none: both times the string is left behind its NUL. -/
theorem uidList_overrun :
    getUidListChecked samplePackages (parseOptions (sampleAppsConfig "com.example")).excludedApplications =
      .error .scan ∧
    getUidListChecked samplePackages (parseOptions (sampleAppsConfig "")).excludedApplications = .error .scan := by
  decide +kernel

end WgAndroid
