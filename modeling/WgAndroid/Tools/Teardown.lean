import WgAndroid.Lib.Regex
import WgAndroid.Tools.QuickFile

/-!
# Taking down an interface

`del_if` of `wg-quick/android.c`. It finds the rules of an interface among those of all interfaces with
two regular expressions that hold the name of the interface as it is: a dot in the name is any
character, a plus repeats what is before it, and the pattern for `ip rule show` has no end.

Results:
1. `searchRule_vpn`, `matchComment_wireguard`: which rules the two patterns find.
2. `touches_only_iff`: when exactly the rules of the interface are deleted.
3. `touches_only_literal`: the same for names without a dot and a plus.
-/

namespace WgAndroid

/-! ## The name as a pattern -/

/-- A character of a pattern, which holds only characters of names. -/
def patternAtom (c : UInt8) : Regex UInt8 := if c = byte '.' then .cls fun _ => true else .lit c

/-- `regcomp`; `none` is `REG_BADRPT`, a plus that has nothing to repeat. -/
def regcomp : Bytes → Option (Regex UInt8)
  | [] => some .eps
  | [c] => if c = byte '+' then none else some (patternAtom c)
  | c :: d :: s =>
    if c = byte '+' then none
    else if d = byte '+' then (regcomp s).map (.seq (.plus (patternAtom c)))
    else (regcomp (d :: s)).map (.seq (patternAtom c))

/-- The name in a pattern. There is a blank before it in both. -/
def ifacePattern (iface : Bytes) : Option (Regex UInt8) := regcomp (byte ' ' :: iface)

/-! ## The patterns -/

/-- `[0-9a-f]` -/
def isLowerHex (c : UInt8) : Bool := charIsDigit c || (decide (byte 'a' ≤ c) && decide (c ≤ byte 'f'))

def netMark : Bytes := cstring "0xc"

def tableLookup : Bytes := cstring "/0xcffff lookup"

/-- A match of `0xc([0-9a-f]+)/0xcffff lookup NAME` that starts here. The digits end at the slash. -/
def ruleAt (name : Regex UInt8) (s : Bytes) : Option Bytes :=
  let digits := (s.drop netMark.length).takeWhile isLowerHex
  let rest := (s.drop netMark.length).dropWhile isLowerHex
  if netMark.isPrefixOf s && !digits.isEmpty && tableLookup.isPrefixOf rest &&
      name.acceptsThen (fun _ => true) (rest.drop tableLookup.length) then
    some digits
  else none

/-- The group of the first match. -/
def searchRule (name : Regex UInt8) : Bytes → Option Bytes
  | [] => none
  | c :: s => (ruleAt name (c :: s)).or (searchRule name s)

def ruleComment : Bytes := cstring " --comment \"wireguard rule"

/-- ` --comment "wireguard rule NAME"` starts here. -/
def commentAt (name : Regex UInt8) (s : Bytes) : Bool :=
  ruleComment.isPrefixOf s &&
    name.acceptsThen (fun rest => rest.head? == some (byte '"')) (s.drop ruleComment.length)

def hasComment (name : Regex UInt8) : Bytes → Bool
  | [] => false
  | c :: s => commentAt name (c :: s) || hasComment name s

/-- The group of `^-A (.* --comment "wireguard rule NAME"[^\n]*)\n*$` in a line that has no newline
before its end. -/
def matchComment (name : Regex UInt8) (line : Bytes) : Option Bytes :=
  let rule := (line.drop 3).takeWhile (· != newline)
  if (cstring "-A ").isPrefixOf line && hasComment name rule then some rule else none

/-- `strtoul(netid, NULL, 16)` for digits that the pattern has found. -/
def netidOf (digits : Bytes) : Nat :=
  min (digits.foldl (fun n c => n * 16 + (if charIsDigit c then c.toNat - 48 else c.toNat - 87)) 0)
    (2 ^ 64 - 1)

/-- What is taken down, apart from the link. -/
structure Teardown where
  /-- The rules in the calls of `iptables -D`. -/
  iptables : List Bytes
  ip6tables : List Bytes
  /-- The network in `network destroy`. -/
  network : Option Nat
  deriving DecidableEq

/-- `del_if` on the lines of `iptables-save`, `ip6tables-save` and `ip rule show`; `none` if it exits
since a pattern cannot be compiled. -/
def delIf (iface : Bytes) (iptablesSave ip6tablesSave ruleShow : List Bytes) : Option Teardown :=
  (ifacePattern iface).map fun name =>
    ⟨iptablesSave.filterMap (matchComment name), ip6tablesSave.filterMap (matchComment name),
      (ruleShow.findSome? (searchRule name)).map netidOf⟩

/-! ## The rules of the interfaces -/

/-- The rule of a network in `ip rule show`; it looks up the table of its interface. -/
structure VpnRule where
  head : Bytes
  digits : Bytes
  name : Bytes
  tail : Bytes
  digits_ne : digits ≠ []
  digits_ok : ∀ c ∈ digits, isLowerHex c = true
  name_ok : isIfaceName name = true
  /-- The mask and the word after it are there once. -/
  once : ∀ u v, head ++ (netMark ++ (digits ++ (tableLookup ++ (byte ' ' :: (name ++ tail))))) =
    u ++ (tableLookup ++ v) → u = head ++ (netMark ++ digits)

/-- A rule of an interface in `iptables-save`. -/
structure CommentedRule where
  head : Bytes
  name : Bytes
  tail : Bytes
  name_ok : isIfaceName name = true
  head_line : newline ∉ head
  tail_line : newline ∉ tail
  /-- The comment is there once, and no quote follows it. -/
  once : ∀ u v, head ++ (ruleComment ++ (byte ' ' :: (name ++ (byte '"' :: tail)))) =
    u ++ (ruleComment ++ v) → u = head
  tail_quote : byte '"' ∉ tail

namespace VpnRule

def line (r : VpnRule) : Bytes :=
  r.head ++ (netMark ++ (r.digits ++ (tableLookup ++ (byte ' ' :: (r.name ++ r.tail)))))

/-- What the name in the pattern is matched against. -/
def target (r : VpnRule) : Bytes := byte ' ' :: (r.name ++ r.tail)

def netid (r : VpnRule) : Nat := netidOf r.digits

end VpnRule

namespace CommentedRule

/-- The rule without the command that appends it. -/
def rule (r : CommentedRule) : Bytes :=
  r.head ++ (ruleComment ++ (byte ' ' :: (r.name ++ (byte '"' :: r.tail))))

def line (r : CommentedRule) : Bytes := cstring "-A " ++ (r.rule ++ [newline])

end CommentedRule

/-- A line of `ip rule show`. -/
inductive RuleLine where
  | vpn (r : VpnRule)
  | other (l : Bytes) (h : ∀ u v, l ≠ u ++ (tableLookup ++ v))

def RuleLine.line : RuleLine → Bytes
  | .vpn r => r.line
  | .other l _ => l

/-- A line of `iptables-save`. -/
inductive SaveLine where
  | commented (r : CommentedRule)
  | other (l : Bytes) (h : ∀ u v, l ≠ u ++ (ruleComment ++ v))

def SaveLine.line : SaveLine → Bytes
  | .commented r => r.line
  | .other l _ => l

/-! ## What the patterns find -/

theorem ruleAt_eq_some {name : Regex UInt8} {s digits : Bytes} :
    ruleAt name s = some digits ↔ digits ≠ [] ∧ (∀ c ∈ digits, isLowerHex c = true) ∧
      ∃ rest, s = netMark ++ (digits ++ (tableLookup ++ rest)) ∧
        name.acceptsThen (fun _ => true) rest = true := by
  unfold ruleAt
  constructor
  · intro h
    dsimp only at h
    split at h
    · next hcond =>
      cases h
      simp only [Bool.and_eq_true, List.isPrefixOf_iff_prefix, Bool.not_eq_true',
        List.isEmpty_eq_false_iff] at hcond
      obtain ⟨⟨⟨⟨t, rfl⟩, hne⟩, rest, hrest⟩, haccepts⟩ := hcond
      rw [List.drop_left] at hne hrest haccepts ⊢
      refine ⟨hne, fun c hc => List.mem_takeWhile_imp hc, rest, ?_, ?_⟩
      · rw [hrest, List.takeWhile_append_dropWhile]
      · rwa [← hrest, List.drop_left] at haccepts
    · cases h
  · rintro ⟨hne, hhex, rest, rfl, haccepts⟩
    have htake : (digits ++ (tableLookup ++ rest)).takeWhile isLowerHex = digits := by
      rw [List.takeWhile_append_of_pos hhex]
      exact List.append_nil digits
    have hdrop : (digits ++ (tableLookup ++ rest)).dropWhile isLowerHex = tableLookup ++ rest := by
      rw [List.dropWhile_append_of_pos hhex]
      rfl
    simp only [List.drop_left, htake, hdrop, haccepts, Bool.and_true]
    rw [if_pos]
    simp [hne]

theorem searchRule_sound {name : Regex UInt8} {s digits : Bytes}
    (h : searchRule name s = some digits) :
    ∃ u rest, s = u ++ (netMark ++ (digits ++ (tableLookup ++ rest))) ∧
      (∀ c ∈ digits, isLowerHex c = true) ∧ name.acceptsThen (fun _ => true) rest = true := by
  induction s with
  | nil => cases h
  | cons c s ih =>
    rw [searchRule, Option.or_eq_some_iff] at h
    rcases h with h | ⟨_, h⟩
    · obtain ⟨_, hhex, rest, hs, haccepts⟩ := ruleAt_eq_some.mp h
      exact ⟨[], rest, hs, hhex, haccepts⟩
    · obtain ⟨u, rest, rfl, hhex, haccepts⟩ := ih h
      exact ⟨c :: u, rest, rfl, hhex, haccepts⟩

theorem searchRule_complete {name : Regex UInt8} {u digits rest : Bytes} (hne : digits ≠ [])
    (hhex : ∀ c ∈ digits, isLowerHex c = true)
    (haccepts : name.acceptsThen (fun _ => true) rest = true) :
    searchRule name (u ++ (netMark ++ (digits ++ (tableLookup ++ rest)))) ≠ none := by
  induction u with
  | nil =>
    have hat := ruleAt_eq_some.mpr ⟨hne, hhex, rest, rfl, haccepts⟩
    have hcons : netMark ++ (digits ++ (tableLookup ++ rest)) =
        byte '0' :: (cstring "xc" ++ (digits ++ (tableLookup ++ rest))) := rfl
    rw [List.nil_append, hcons, searchRule, ← hcons, hat]
    simp
  | cons c u ih =>
    rw [List.cons_append, searchRule, ne_eq, Option.or_eq_none_iff]
    exact fun h => ih h.2

/-- The digits before the slash are those after the last `x`. -/
theorem digits_unique {u v digits digits' : Bytes} (hhex : ∀ c ∈ digits, isLowerHex c = true)
    (hhex' : ∀ c ∈ digits', isLowerHex c = true)
    (h : u ++ (netMark ++ digits) = v ++ (netMark ++ digits')) : digits = digits' := by
  have hrun : ∀ {w d : Bytes}, (∀ c ∈ d, isLowerHex c = true) →
      (w ++ (netMark ++ d)).rtakeWhile (· != byte 'x') = byte 'c' :: d := by
    intro w d hd
    have hshape : w ++ (netMark ++ d) = (w ++ [byte '0']) ++ byte 'x' :: (byte 'c' :: d) := by
      rw [List.append_assoc]
      rfl
    have hne : ∀ c ∈ (byte 'c' :: d).reverse, (c != byte 'x') = true := by
      intro c hc
      rw [List.mem_reverse, List.mem_cons] at hc
      rcases hc with rfl | hc
      · decide
      · refine bne_iff_ne.mpr ?_
        rintro rfl
        exact absurd (hd _ hc) (by decide)
    rw [hshape, List.rtakeWhile, List.reverse_append, List.reverse_cons, List.append_assoc,
      List.takeWhile_append_of_pos hne]
    simp
  have heq := congrArg (List.rtakeWhile (· != byte 'x')) h
  rw [hrun hhex, hrun hhex'] at heq
  exact (List.cons.inj heq).2

theorem vpn_of_searchRule {name : Regex UInt8} {r : VpnRule} {digits : Bytes}
    (h : searchRule name r.line = some digits) :
    digits = r.digits ∧ name.acceptsThen (fun _ => true) r.target = true := by
  obtain ⟨u, rest, hline, hhex, haccepts⟩ := searchRule_sound h
  have hcut : r.line = (u ++ (netMark ++ digits)) ++ (tableLookup ++ rest) := by
    simp only [hline, List.append_assoc]
  have hown : r.line = (r.head ++ (netMark ++ r.digits)) ++ (tableLookup ++ r.target) := by
    simp only [VpnRule.line, VpnRule.target, List.append_assoc]
  have honce := r.once _ _ hcut
  rw [hown, honce] at hcut
  obtain rfl := List.append_cancel_left (List.append_cancel_left hcut)
  exact ⟨digits_unique hhex r.digits_ok honce, haccepts⟩

/-- The rule of a network is found if the pattern fits the start of what is after the blank. -/
theorem searchRule_vpn (name : Regex UInt8) (r : VpnRule) :
    searchRule name r.line =
      if name.acceptsThen (fun _ => true) r.target then some r.digits else none := by
  split
  · next haccepts =>
    have hfound : searchRule name r.line ≠ none :=
      searchRule_complete r.digits_ne r.digits_ok haccepts
    obtain ⟨digits, hsome⟩ := Option.ne_none_iff_exists'.mp hfound
    rw [hsome, (vpn_of_searchRule hsome).1]
  · next haccepts =>
    rw [Option.eq_none_iff_forall_ne_some]
    exact fun digits hsome => haccepts (vpn_of_searchRule hsome).2

theorem searchRule_other {name : Regex UInt8} {l : Bytes} (h : ∀ u v, l ≠ u ++ (tableLookup ++ v)) :
    searchRule name l = none := by
  rw [Option.eq_none_iff_forall_ne_some]
  intro digits hsome
  obtain ⟨u, rest, hline, _⟩ := searchRule_sound hsome
  exact h (u ++ (netMark ++ digits)) rest (by simp only [hline, List.append_assoc])

theorem commentAt_iff {name : Regex UInt8} {s : Bytes} :
    commentAt name s = true ↔ ∃ m v, s = ruleComment ++ (m ++ byte '"' :: v) ∧ Regex.Lang name m := by
  rw [commentAt, Bool.and_eq_true, List.isPrefixOf_iff_prefix, Regex.acceptsThen_iff]
  constructor
  · rintro ⟨⟨t, rfl⟩, m, rest, hrest, hm, hquote⟩
    rw [List.drop_left] at hrest
    obtain ⟨v, rfl⟩ := List.head?_eq_some_iff.mp (eq_of_beq hquote)
    exact ⟨m, v, by rw [hrest], hm⟩
  · rintro ⟨m, v, rfl, hm⟩
    exact ⟨⟨_, rfl⟩, m, byte '"' :: v, by rw [List.drop_left], hm, by simp⟩

theorem hasComment_iff {name : Regex UInt8} {s : Bytes} :
    hasComment name s = true ↔
      ∃ u m v, s = u ++ (ruleComment ++ (m ++ byte '"' :: v)) ∧ Regex.Lang name m := by
  induction s with
  | nil =>
    refine ⟨fun h => absurd h (by simp [hasComment]), ?_⟩
    rintro ⟨u, m, v, hnil, _⟩
    exact absurd hnil (by simp)
  | cons c s ih =>
    rw [hasComment, Bool.or_eq_true, commentAt_iff, ih]
    constructor
    · rintro (⟨m, v, hs, hm⟩ | ⟨u, m, v, rfl, hm⟩)
      · exact ⟨[], m, v, hs, hm⟩
      · exact ⟨c :: u, m, v, rfl, hm⟩
    · rintro ⟨u, m, v, hs, hm⟩
      cases u with
      | nil => exact .inl ⟨m, v, hs, hm⟩
      | cons d u =>
        cases hs
        exact .inr ⟨u, m, v, rfl, hm⟩

/-- A name has no quote and no newline. -/
theorem name_chars {name : Bytes} (h : isIfaceName name = true) :
    name ≠ [] ∧ ∀ c ∈ name, isIfaceChar c = true := by
  simp only [isIfaceName, Bool.and_eq_true, decide_eq_true_eq, List.all_eq_true] at h
  exact ⟨List.length_pos_iff.mp h.1.1, h.2⟩

theorem not_mem_name {name : Bytes} (h : isIfaceName name = true) {c : UInt8}
    (hc : isIfaceChar c = false) : c ∉ name := fun hmem => by
  simp [(name_chars h).2 c hmem] at hc

theorem hasComment_rule (name : Regex UInt8) (r : CommentedRule) :
    hasComment name r.rule = true ↔ Regex.Lang name (byte ' ' :: r.name) := by
  rw [hasComment_iff]
  constructor
  · rintro ⟨u, m, v, hrule, hm⟩
    obtain rfl := r.once u _ hrule
    have hcut : (byte ' ' :: r.name) ++ byte '"' :: r.tail = m ++ byte '"' :: v :=
      List.append_cancel_left (List.append_cancel_left hrule)
    have hquote : byte '"' ∉ byte ' ' :: r.name := by
      rw [List.mem_cons, not_or]
      exact ⟨by decide, not_mem_name r.name_ok (by decide)⟩
    obtain ⟨rfl, _⟩ := (List.append_cons_inj_of_notMem hquote r.tail_quote).mp hcut
    exact hm
  · exact fun hm => ⟨r.head, byte ' ' :: r.name, r.tail, rfl, hm⟩

theorem matchComment_commented (name : Regex UInt8) (r : CommentedRule) :
    matchComment name r.line =
      if name.accepts (byte ' ' :: r.name) then some r.rule else none := by
  have hline : ∀ c ∈ r.rule, (c != newline) = true := by
    have hcomment : newline ∉ ruleComment := by decide
    have hname : newline ∉ r.name := not_mem_name r.name_ok (by decide)
    have hnot : newline ∉ r.rule := by
      simp only [CommentedRule.rule, List.mem_append, List.mem_cons, not_or]
      exact ⟨r.head_line, hcomment, by decide, hname, by decide, r.tail_line⟩
    exact fun c hc => bne_iff_ne.mpr fun h => hnot (h ▸ hc)
  have hrule : (r.line.drop 3).takeWhile (· != newline) = r.rule := by
    have hdrop : r.line.drop 3 = r.rule ++ [newline] := rfl
    rw [hdrop, List.takeWhile_append_of_pos hline]
    exact List.append_nil _
  have hbegin : (cstring "-A ").isPrefixOf r.line = true :=
    List.isPrefixOf_iff_prefix.mpr ⟨_, rfl⟩
  rw [matchComment]
  simp only [hrule, hbegin, Bool.true_and]
  exact if_congr ((hasComment_rule name r).trans Regex.accepts_iff.symm) rfl rfl

theorem matchComment_other {name : Regex UInt8} {l : Bytes} (h : ∀ u v, l ≠ u ++ (ruleComment ++ v)) :
    matchComment name l = none := by
  rw [matchComment, if_neg]
  rw [Bool.and_eq_true, hasComment_iff, List.isPrefixOf_iff_prefix]
  rintro ⟨⟨t, rfl⟩, u, m, v, hrule, _⟩
  have hdrop : (cstring "-A " ++ t).drop 3 = t := rfl
  rw [hdrop] at hrule
  have ht := List.takeWhile_append_dropWhile (p := (· != newline)) (l := t)
  rw [hrule] at ht
  refine h (cstring "-A " ++ u) (m ++ byte '"' :: v ++ t.dropWhile (· != newline)) ?_
  conv_lhs => rw [← ht]
  simp only [List.append_assoc]

/-! ## Only the rules of the interface -/

/-- The rule of a line, if its comment names the interface. -/
def SaveLine.ruleOf (iface : Bytes) : SaveLine → Option Bytes
  | .commented r => if r.name = iface then some r.rule else none
  | .other _ _ => none

/-- `del_if` deletes the rules of the interface and destroys its network, and nothing else. -/
def TouchesOnly (iface : Bytes) (save save6 : List SaveLine) (rules : List RuleLine)
    (own : VpnRule) : Prop :=
  delIf iface (save.map SaveLine.line) (save6.map SaveLine.line) (rules.map RuleLine.line) =
    some ⟨save.filterMap (SaveLine.ruleOf iface), save6.filterMap (SaveLine.ruleOf iface),
      some own.netid⟩

theorem name_of_rule {r r' : CommentedRule} (h : r.rule = r'.rule) : r.name = r'.name := by
  have hhead : r.head = r'.head := r'.once _ _ h.symm
  rw [CommentedRule.rule, CommentedRule.rule, hhead] at h
  have hcut : r.name ++ byte '"' :: r.tail = r'.name ++ byte '"' :: r'.tail :=
    (List.cons.inj (List.append_cancel_left (List.append_cancel_left h))).2
  exact ((List.append_cons_inj_of_notMem (not_mem_name r.name_ok (by decide)) r.tail_quote).mp hcut).1

theorem matchComment_line (name : Regex UInt8) (l : SaveLine) (r : Bytes) :
    matchComment name l.line = some r ↔
      ∃ c, l = .commented c ∧ name.accepts (byte ' ' :: c.name) = true ∧ r = c.rule := by
  cases l with
  | commented c =>
    rw [SaveLine.line, matchComment_commented]
    constructor
    · intro hr
      split at hr
      · next h =>
        cases hr
        exact ⟨c, rfl, h, rfl⟩
      · cases hr
    · rintro ⟨d, hd, h, rfl⟩
      cases hd
      rw [if_pos h]
  | other l h =>
    rw [SaveLine.line, matchComment_other h]
    simp

theorem ruleOf_eq_some {iface : Bytes} {l : SaveLine} {r : Bytes} :
    l.ruleOf iface = some r ↔ ∃ c, l = .commented c ∧ c.name = iface ∧ r = c.rule := by
  cases l with
  | commented c => simp [SaveLine.ruleOf, eq_comm]
  | other l h => simp [SaveLine.ruleOf]

/-- The pattern finds the rules of the interface if it fits its name and no other. -/
theorem filterMap_matchComment_iff (name : Regex UInt8) (iface : Bytes) (save : List SaveLine) :
    (save.map SaveLine.line).filterMap (matchComment name) = save.filterMap (SaveLine.ruleOf iface) ↔
      ∀ r, .commented r ∈ save → (name.accepts (byte ' ' :: r.name) = true ↔ r.name = iface) := by
  rw [List.filterMap_map]
  constructor
  · intro h r hr
    have hmem : r.rule ∈ save.filterMap (matchComment name ∘ SaveLine.line) ↔
        r.rule ∈ save.filterMap (SaveLine.ruleOf iface) := by rw [h]
    simp only [List.mem_filterMap, Function.comp_apply, matchComment_line, ruleOf_eq_some] at hmem
    constructor
    · intro haccepts
      obtain ⟨_, _, c, _, hname, hrule⟩ := hmem.mp ⟨_, hr, r, rfl, haccepts, rfl⟩
      rw [name_of_rule hrule, hname]
    · intro hname
      obtain ⟨_, _, c, _, haccepts, hrule⟩ := hmem.mpr ⟨_, hr, r, rfl, hname, rfl⟩
      rwa [name_of_rule hrule]
  · intro h
    refine List.filterMap_congr fun l hl => Option.ext fun r => ?_
    rw [Function.comp_apply, matchComment_line, ruleOf_eq_some]
    refine exists_congr fun c => and_congr_right fun hc => ?_
    rw [h c (hc ▸ hl)]

/-- The name in the pattern fits the rule of a network. -/
def Fits (name : Regex UInt8) (r : VpnRule) : Prop :=
  name.acceptsThen (fun _ => true) r.target = true

theorem searchRule_line {name : Regex UInt8} {l : RuleLine} {digits : Bytes} :
    searchRule name l.line = some digits ↔ ∃ r, l = .vpn r ∧ Fits name r ∧ digits = r.digits := by
  cases l with
  | vpn r =>
    rw [RuleLine.line, searchRule_vpn]
    constructor
    · intro hdigits
      split at hdigits
      · next h =>
        cases hdigits
        exact ⟨r, rfl, h, rfl⟩
      · cases hdigits
    · rintro ⟨d, hd, h, rfl⟩
      cases hd
      exact if_pos h
  | other l h =>
    rw [RuleLine.line, searchRule_other h]
    simp

theorem findSome_eq_none_iff {name : Regex UInt8} {ls : List RuleLine} :
    (ls.map RuleLine.line).findSome? (searchRule name) = none ↔ ∀ r, .vpn r ∈ ls → ¬ Fits name r := by
  rw [List.findSome?_eq_none_iff, List.forall_mem_map]
  constructor
  · intro h r hr hfits
    have hsome := searchRule_line.mpr ⟨r, rfl, hfits, rfl⟩
    rw [h _ hr] at hsome
    cases hsome
  · intro h l hl
    rw [Option.eq_none_iff_forall_ne_some]
    intro digits hsome
    obtain ⟨r, rfl, hfits, _⟩ := searchRule_line.mp hsome
    exact h r hl hfits

/-- The network of the interface is found if its rule is the first one that the pattern fits. -/
theorem network_iff {name : Regex UInt8} {before after : List RuleLine} {own : VpnRule}
    (hnetid : ∀ r, .vpn r ∈ before ++ after → r.netid ≠ own.netid) :
    (((before ++ .vpn own :: after).map RuleLine.line).findSome? (searchRule name)).map netidOf =
        some own.netid ↔
      Fits name own ∧ ∀ r, .vpn r ∈ before → ¬ Fits name r := by
  have hother : ∀ ls : List RuleLine, (∀ l ∈ ls, l ∈ before ++ after) →
      ((ls.map RuleLine.line).findSome? (searchRule name)).map netidOf ≠ some own.netid := by
    intro ls hls h
    obtain ⟨digits, hfind, hdigits⟩ := Option.map_eq_some_iff.mp h
    obtain ⟨line, hline, hsearch⟩ := List.exists_of_findSome?_eq_some hfind
    obtain ⟨l, hl, rfl⟩ := List.mem_map.mp hline
    obtain ⟨r, rfl, _, rfl⟩ := searchRule_line.mp hsearch
    exact hnetid r (hls _ hl) hdigits
  rw [List.map_append, List.findSome?_append, List.map_cons, List.findSome?_cons]
  constructor
  · intro h
    cases hbefore : (before.map RuleLine.line).findSome? (searchRule name) with
    | some digits =>
      rw [hbefore, Option.some_or, ← hbefore] at h
      exact absurd h (hother before fun l hl => List.mem_append_left _ hl)
    | none =>
      refine ⟨?_, findSome_eq_none_iff.mp hbefore⟩
      by_contra hfits
      have hnone : searchRule name (RuleLine.vpn own).line = none :=
        (searchRule_vpn name own).trans (if_neg hfits)
      rw [hbefore, Option.none_or, hnone] at h
      exact hother after (fun l hl => List.mem_append_right _ hl) h
  · rintro ⟨hfits, hbefore⟩
    rw [findSome_eq_none_iff.mpr hbefore, Option.none_or,
      searchRule_line.mpr ⟨own, rfl, hfits, rfl⟩]
    rfl

theorem touchesOnly_of_pattern {save save6 : List SaveLine} {before after : List RuleLine}
    {own : VpnRule} (hnetid : ∀ r, .vpn r ∈ before ++ after → r.netid ≠ own.netid)
    {name : Regex UInt8} (hpattern : ifacePattern own.name = some name) :
    TouchesOnly own.name save save6 (before ++ .vpn own :: after) own ↔
      (∀ r, .commented r ∈ save ++ save6 →
        (name.accepts (byte ' ' :: r.name) = true ↔ r.name = own.name)) ∧
      Fits name own ∧ ∀ r, .vpn r ∈ before → ¬ Fits name r := by
  rw [TouchesOnly, delIf, hpattern, Option.map_some, Option.some_inj, Teardown.mk.injEq,
    filterMap_matchComment_iff, filterMap_matchComment_iff, network_iff hnetid, ← and_assoc]
  refine and_congr_left fun _ => ?_
  simp only [List.mem_append, or_imp, forall_and]

/-- Exactly the rules of an interface are deleted and exactly its network is destroyed if and only if
its name is a pattern that fits, among the names in the comments, itself and no other, and the first
rule of a network that it fits is the one of the interface. -/
theorem touches_only_iff {save save6 : List SaveLine} {before after : List RuleLine} {own : VpnRule}
    (hnetid : ∀ r, .vpn r ∈ before ++ after → r.netid ≠ own.netid) :
    TouchesOnly own.name save save6 (before ++ .vpn own :: after) own ↔
      ∃ name, ifacePattern own.name = some name ∧
        (∀ r, .commented r ∈ save ++ save6 →
          (name.accepts (byte ' ' :: r.name) = true ↔ r.name = own.name)) ∧
        Fits name own ∧ ∀ r, .vpn r ∈ before → ¬ Fits name r := by
  cases hpattern : ifacePattern own.name with
  | none => simp [TouchesOnly, delIf, hpattern]
  | some name =>
    rw [touchesOnly_of_pattern hnetid hpattern]
    simp only [Option.some.injEq, exists_eq_left']

/-! ## Names that are no patterns -/

open Regex.RegexLemmas in
/-- A name without a dot and a plus stands for itself. -/
theorem regcomp_literal {s : Bytes} (h : ∀ c ∈ s, c ≠ byte '.' ∧ c ≠ byte '+') :
    ∃ r, regcomp s = some r ∧ ∀ w, Regex.Lang r w ↔ w = s := by
  induction s with
  | nil => exact ⟨.eps, rfl, fun w => lang_eps_iff⟩
  | cons c s ih =>
    obtain ⟨hdot, hplus⟩ := h c List.mem_cons_self
    have hatom : patternAtom c = .lit c := if_neg hdot
    cases s with
    | nil => exact ⟨patternAtom c, if_neg hplus, fun w => by rw [hatom, lang_lit_iff]⟩
    | cons d s =>
      obtain ⟨r, hr, hlang⟩ := ih fun e he => h e (List.mem_cons_of_mem _ he)
      refine ⟨.seq (patternAtom c) r, ?_, fun w => ?_⟩
      · rw [regcomp, if_neg hplus, if_neg (h d (by simp)).2, hr]
        rfl
      · rw [hatom, lang_seq_iff]
        constructor
        · rintro ⟨u, v, rfl, hu, hv⟩
          rw [lang_lit_iff.mp hu, (hlang v).mp hv]
          rfl
        · rintro rfl
          exact ⟨[c], d :: s, rfl, lang_lit_iff.mpr rfl, (hlang _).mpr rfl⟩

/-- For a name without a dot and a plus it matters only that no rule that is listed before looks up a
table whose name starts with it. -/
theorem touches_only_literal {save save6 : List SaveLine} {before after : List RuleLine}
    {own : VpnRule} (hnetid : ∀ r, .vpn r ∈ before ++ after → r.netid ≠ own.netid)
    (hname : ∀ c ∈ own.name, c ≠ byte '.' ∧ c ≠ byte '+') :
    TouchesOnly own.name save save6 (before ++ .vpn own :: after) own ↔
      ∀ r, .vpn r ∈ before → ¬ own.name <+: r.name ++ r.tail := by
  have hblank : ∀ c ∈ byte ' ' :: own.name, c ≠ byte '.' ∧ c ≠ byte '+' :=
    List.forall_mem_cons.mpr ⟨by decide, hname⟩
  obtain ⟨name, hpattern, hlang⟩ := regcomp_literal hblank
  have hfits : ∀ r, Fits name r ↔ own.name <+: r.name ++ r.tail := by
    intro r
    rw [Fits, Regex.acceptsThen_iff]
    constructor
    · rintro ⟨u, v, htarget, hu, _⟩
      rw [(hlang u).mp hu] at htarget
      exact ⟨v, (List.cons.inj htarget).2.symm⟩
    · rintro ⟨v, hv⟩
      exact ⟨byte ' ' :: own.name, v, by rw [VpnRule.target, ← hv]; rfl, (hlang _).mpr rfl, rfl⟩
  rw [touchesOnly_of_pattern hnetid hpattern]
  constructor
  · rintro ⟨_, _, hbefore⟩ r hr hbegin
    exact hbefore r hr ((hfits r).mpr hbegin)
  · intro hbefore
    refine ⟨fun r _ => ?_, (hfits own).mpr ⟨own.tail, rfl⟩, fun r hr hr' =>
      hbefore r hr ((hfits r).mp hr')⟩
    rw [Regex.accepts_iff, hlang]
    exact ⟨fun h => (List.cons.inj h).2, fun h => by rw [h]⟩

/-! ## Some rules -/

theorem once_of_slash {head digits name tail : Bytes} (hhead : byte '/' ∉ head)
    (hdigits : ∀ c ∈ digits, isLowerHex c = true) (hname : isIfaceName name = true)
    (htail : byte '/' ∉ tail) (u v : Bytes)
    (h : head ++ (netMark ++ (digits ++ (tableLookup ++ (byte ' ' :: (name ++ tail))))) =
      u ++ (tableLookup ++ v)) : u = head ++ (netMark ++ digits) := by
  have hcut : (head ++ (netMark ++ digits)) ++ byte '/' ::
      (cstring "0xcffff lookup" ++ (byte ' ' :: (name ++ tail))) =
        u ++ byte '/' :: (cstring "0xcffff lookup" ++ v) := by
    simp only [List.append_assoc]
    exact h
  have hleft : byte '/' ∉ head ++ (netMark ++ digits) := by
    simp only [List.mem_append, not_or]
    exact ⟨hhead, by decide, fun hmem => absurd (hdigits _ hmem) (by decide)⟩
  have hright : byte '/' ∉ cstring "0xcffff lookup" ++ (byte ' ' :: (name ++ tail)) := by
    simp only [List.mem_append, List.mem_cons, not_or]
    exact ⟨by decide, by decide, not_mem_name hname (by decide), htail⟩
  exact ((List.append_cons_inj_of_notMem hleft hright).mp hcut).1.symm

theorem once_of_quote {head name tail : Bytes} (hhead : byte '"' ∉ head)
    (hname : isIfaceName name = true) (htail : byte '"' ∉ tail) (u v : Bytes)
    (h : head ++ (ruleComment ++ (byte ' ' :: (name ++ (byte '"' :: tail)))) =
      u ++ (ruleComment ++ v)) : u = head := by
  have hcut : (head ++ cstring " --comment ") ++ byte '"' ::
      ((cstring "wireguard rule" ++ (byte ' ' :: name)) ++ byte '"' :: tail) =
        (u ++ cstring " --comment ") ++ byte '"' :: (cstring "wireguard rule" ++ v) := by
    simp only [List.append_assoc]
    exact h
  have hleft : byte '"' ∉ head ++ cstring " --comment " := by
    simp only [List.mem_append, not_or]
    exact ⟨hhead, by decide⟩
  have hmid : byte '"' ∉ cstring "wireguard rule" ++ (byte ' ' :: name) := by
    simp only [List.mem_append, List.mem_cons, not_or]
    exact ⟨by decide, by decide, not_mem_name hname (by decide)⟩
  rcases List.append_eq_append_iff.mp hcut with ⟨a, hu, ha⟩ | ⟨a, hhead', ha⟩
  · cases a with
    | nil => exact List.append_cancel_right (hu.trans (List.append_nil _))
    | cons q a =>
      -- the other quote is the one after the name, but no name ends with a blank
      obtain ⟨rfl, hrest⟩ := List.cons.inj ha
      obtain ⟨rfl, _⟩ := (List.append_cons_inj_of_notMem hmid htail).mp hrest
      obtain ⟨init, c, rfl⟩ : ∃ init c, name = init ++ [c] :=
        List.eq_nil_or_concat' name |>.resolve_left (name_chars hname).1
      have hends : (u ++ cstring " --comment") ++ [byte ' '] = (head ++ cstring " --comment " ++
          byte '"' :: (cstring "wireguard rule" ++ (byte ' ' :: init))) ++ [c] := by
        simpa [cstring] using hu
      have hblank : byte ' ' = c := (List.cons.inj (List.append_inj' hends rfl).2).1
      exact absurd (hblank ▸ (name_chars hname).2 c (by simp)) (by decide)
  · cases a with
    | nil => exact (List.append_cancel_right (hhead'.trans (List.append_nil _))).symm
    | cons q a =>
      obtain ⟨rfl, _⟩ := List.cons.inj ha
      exact absurd (hhead' ▸ List.mem_append_right _ List.mem_cons_self) hleft

theorem slash_not_mem_fwmark : byte '/' ∉ cstring "12000:\tfrom all fwmark " := by decide

theorem slash_not_mem_newline : byte '/' ∉ [newline] := by decide

set_option maxRecDepth 4000 in
theorem upRule_head : newline ∉ cstring "OUTPUT -m mark --mark 0x20000 -m comment" ∧
    byte '"' ∉ cstring "OUTPUT -m mark --mark 0x20000 -m comment" := by decide

theorem upRule_tail : newline ∉ cstring " -j ACCEPT" ∧ byte '"' ∉ cstring " -j ACCEPT" := by decide

theorem isIfaceName_wg0 : isIfaceName (cstring "wg0") = true := by decide

theorem isIfaceName_wg01 : isIfaceName (cstring "wg01") = true := by decide

set_option maxRecDepth 4000 in
theorem sampleDigits_ok : (cstring "2000" ≠ [] ∧ ∀ c ∈ cstring "2000", isLowerHex c = true) ∧
    cstring "3000" ≠ [] ∧ ∀ c ∈ cstring "3000", isLowerHex c = true := by decide

/-- The rule of the network of an interface. -/
def sampleVpnRule (digits name : Bytes) (hne : digits ≠ []) (hdigits : ∀ c ∈ digits, isLowerHex c = true)
    (hname : isIfaceName name = true) : VpnRule where
  head := cstring "12000:\tfrom all fwmark "
  digits := digits
  name := name
  tail := [newline]
  digits_ne := hne
  digits_ok := hdigits
  name_ok := hname
  once := once_of_slash slash_not_mem_fwmark hdigits hname slash_not_mem_newline

/-- The rule that `up_if` inserts, as `iptables-save` prints it. -/
def upRule (name : Bytes) (hname : isIfaceName name = true) : CommentedRule where
  head := cstring "OUTPUT -m mark --mark 0x20000 -m comment"
  name := name
  tail := cstring " -j ACCEPT"
  name_ok := hname
  head_line := upRule_head.1
  tail_line := upRule_tail.1
  once := once_of_quote upRule_head.2 hname upRule_tail.2
  tail_quote := upRule_tail.2

/-- `wg0` with the network `0x2000`. -/
def wg0Rule : VpnRule :=
  sampleVpnRule (cstring "2000") (cstring "wg0") sampleDigits_ok.1.1 sampleDigits_ok.1.2 isIfaceName_wg0

/-- `wg01` with the network `0x3000`. -/
def wg01Rule : VpnRule :=
  sampleVpnRule (cstring "3000") (cstring "wg01") sampleDigits_ok.2.1 sampleDigits_ok.2.2
    isIfaceName_wg01

/-- The rules of both in one of the tables. -/
def sampleSave : List SaveLine :=
  [.commented (upRule (cstring "wg01") isIfaceName_wg01),
   .commented (upRule (cstring "wg0") isIfaceName_wg0)]

theorem wg01_netid_ne : ∀ r, .vpn r ∈ [] ++ [RuleLine.vpn wg01Rule] → r.netid ≠ wg0Rule.netid := by
  intro r hr
  cases List.mem_singleton.mp hr
  decide

/-- In this order only `wg0` is taken down. -/
theorem touches_only_first :
    TouchesOnly wg0Rule.name sampleSave sampleSave [.vpn wg0Rule, .vpn wg01Rule] wg0Rule ∧
      ∃ name, ifacePattern wg0Rule.name = some name ∧ Fits name wg0Rule := by
  have htouches : TouchesOnly wg0Rule.name sampleSave sampleSave
      ([] ++ .vpn wg0Rule :: [.vpn wg01Rule]) wg0Rule := by
    unfold TouchesOnly
    decide +kernel
  obtain ⟨name, hname, _, hfits, _⟩ := (touches_only_iff wg01_netid_ne).mp htouches
  exact ⟨htouches, name, hname, hfits⟩

/-- In the other order the network of `wg01` is destroyed. -/
theorem touches_other_network :
    ¬ TouchesOnly wg0Rule.name sampleSave sampleSave [.vpn wg01Rule, .vpn wg0Rule] wg0Rule := by
  unfold TouchesOnly
  decide +kernel

end WgAndroid
