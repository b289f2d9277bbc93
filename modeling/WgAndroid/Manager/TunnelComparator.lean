import Mathlib.Data.List.Lex
import Mathlib.Data.Prod.Lex
import Mathlib.Data.Sum.Order
import WgAndroid.Backend.Tunnel
import WgAndroid.Java.Text
import WgAndroid.Manager.SortedKeyedList

/-!
# The order of tunnel names

`TunnelComparator`: favourites first, then a natural order in which runs of digits count as
numbers. Names that differ never compare as equal, but the comparator is no order: two names with
the same tokens (`a` and `A`) each compare as greater than the other.

Results:
1. `compare_eq_zero`: the comparator is zero on equal names only, for every set of favourites.
2. `compare_lt`: a negative result says that the place of the first name is before that of the second
   in a linear order of places.
3. `laws_iff`: the laws of an order hold exactly for names that do not share a place.
4. `refined_isOrder`, `refined_eq`: where no two names share a place, the comparator is an order.
-/

namespace WgAndroid

namespace TunnelComparator

inductive NaturalSortToken where
  | number (n : Int)
  | string (s : JString)
  deriving DecidableEq

/-- Numbers come before strings. -/
def NaturalSortToken.compareTo : NaturalSortToken → NaturalSortToken → Int
  | .number _, .string _ => -1
  | .number m, .number n => if m < n then -1 else if m > n then 1 else 0
  | .string _, .number _ => 1
  | .string s, .string t => if s > t then 1 else if s < t then -1 else 0

def isDigit (c : UInt16) : Bool := inRange '0' '9' c

/-- `lowercase()`, as far as tunnel names go: their letters are those of `NAME_PATTERN`. -/
def lowercase (s : JString) : JString := s.map fun c => if inRange 'A' 'Z' c then c + 32 else c

/-- The matches of `\d+|\D+` one after the other: the maximal runs of digits and of other
characters. A run of digits that `toInt` rejects stays a string. -/
def naturalSortString (originalString : JString) : List NaturalSortToken :=
  -- splitting at each \s and joining with a blank turns every such character into a blank
  let blanks := originalString.map fun c => if isSpace c then unit ' ' else c
  ((lowercase blanks).splitBy fun a b => isDigit a == isDigit b).map fun s =>
    match parseInt s with
    | some n => .number n
    | none => .string s

/-- The loop over the tokens of the second name. -/
def compareTokens : List NaturalSortToken → List NaturalSortToken → Int
  | _, [] => 1
  | [], _ :: _ => -1
  | a :: as, b :: bs => if a.compareTo b ≠ 0 then a.compareTo b else compareTokens as bs

def compare (favourites : List JString) (a b : JString) : Int :=
  if a = b then 0
  else if favourites.contains a != favourites.contains b then
    if favourites.contains a then -1 else 1
  else compareTokens (naturalSortString a) (naturalSortString b)

theorem compareTokens_ne_zero (as bs : List NaturalSortToken) : compareTokens as bs ≠ 0 := by
  fun_induction compareTokens as bs with
  | case1 => decide
  | case2 => decide
  | case3 a as b bs hne => exact hne
  | case4 a as b bs _ ih => exact ih

theorem compare_eq_zero {favourites : List JString} {a b : JString} :
    compare favourites a b = 0 ↔ a = b := by
  constructor
  · intro h
    by_contra hne
    rw [compare, if_neg hne] at h
    split at h
    · split at h <;> cases h
    · exact compareTokens_ne_zero _ _ h
  · rintro rfl
    exact if_pos rfl

/-- The comparator of `tunnelMap`. -/
def comparator (favourites : List JString) : Comparator JString where
  compare := compare favourites
  compare_eq_zero := compare_eq_zero

/-! ## Places

Two names with the same tokens have the same place, and on places the order is linear. -/

/-- Numbers before strings, numbers by value and strings by their characters. -/
abbrev Rank := Int ⊕ₗ List Nat

def NaturalSortToken.rank : NaturalSortToken → Rank
  | .number n => Sum.inlₗ n
  | .string s => Sum.inrₗ (s.map UInt16.toNat)

/-- Where a name belongs: favourites before the others, and then by the tokens. -/
def place (favourites : List JString) (name : JString) : Bool ×ₗ List Rank :=
  toLex (!favourites.contains name, (naturalSortString name).map NaturalSortToken.rank)

theorem map_toNat_lt {s t : JString} : s.map UInt16.toNat < t.map UInt16.toNat ↔ s < t := by
  induction s generalizing t with
  | nil => cases t <;> simp
  | cons c s ih =>
    cases t with
    | nil => simp
    | cons d t =>
      rw [List.map_cons, List.map_cons, List.cons_lt_cons_iff, List.cons_lt_cons_iff, ih, UInt16.lt_iff_toNat_lt,
        UInt16.toNat_inj]

theorem map_toNat_injective : Function.Injective (List.map UInt16.toNat) :=
  List.map_injective_iff.mpr fun _ _ => UInt16.toNat_inj.mp

/-- The three results of `compareTo`. -/
theorem NaturalSortToken.compareTo_cases (a b : NaturalSortToken) :
    a.rank < b.rank ∧ a.compareTo b = -1 ∨ a = b ∧ a.compareTo b = 0 ∨ b.rank < a.rank ∧ a.compareTo b = 1 := by
  cases a with
  | number m =>
    cases b with
    | number n =>
      simp only [compareTo, rank, Sum.Lex.inl_lt_inl_iff]
      rcases lt_trichotomy m n with hlt | rfl | hgt
      · exact .inl ⟨hlt, if_pos hlt⟩
      · exact .inr (.inl ⟨rfl, by rw [if_neg (lt_irrefl m), if_neg (lt_irrefl m)]⟩)
      · exact .inr (.inr ⟨hgt, by rw [if_neg hgt.asymm, if_pos hgt]⟩)
    | string t => exact .inl ⟨Sum.Lex.inl_lt_inr _ _, rfl⟩
  | string s =>
    cases b with
    | number n => exact .inr (.inr ⟨Sum.Lex.inl_lt_inr _ _, rfl⟩)
    | string t =>
      simp only [compareTo, rank, Sum.Lex.inr_lt_inr_iff, map_toNat_lt]
      rcases lt_trichotomy (s.map UInt16.toNat) (t.map UInt16.toNat) with hlt | heq | hgt
      · rw [map_toNat_lt] at hlt
        exact .inl ⟨hlt, by rw [if_neg (List.lt_asymm hlt), if_pos hlt]⟩
      · cases map_toNat_injective heq
        exact .inr (.inl ⟨rfl, by rw [if_neg (List.lt_irrefl s), if_neg (List.lt_irrefl s)]⟩)
      · rw [map_toNat_lt] at hgt
        exact .inr (.inr ⟨hgt, if_pos hgt⟩)

theorem compareTokens_lt (as bs : List NaturalSortToken) :
    compareTokens as bs < 0 ↔ as.map NaturalSortToken.rank < bs.map NaturalSortToken.rank := by
  fun_induction compareTokens as bs with
  | case1 as => exact iff_of_false (by decide) (List.not_lt_nil _)
  | case2 b bs => exact iff_of_true (by decide) (List.nil_lt_cons _ _)
  | case3 a as b bs hne =>
    rw [List.map_cons, List.map_cons, List.cons_lt_cons_iff]
    rcases a.compareTo_cases b with ⟨hlt, hcmp⟩ | ⟨-, hcmp⟩ | ⟨hgt, hcmp⟩
    · exact iff_of_true (by rw [hcmp]; decide) (.inl hlt)
    · exact absurd hcmp hne
    · refine iff_of_false (by rw [hcmp]; decide) ?_
      rintro (hlt | ⟨heq, -⟩)
      · exact hlt.asymm hgt
      · exact hgt.ne heq.symm
  | case4 a as b bs hzero ih =>
    rw [List.map_cons, List.map_cons, List.cons_lt_cons_iff, ih]
    rcases a.compareTo_cases b with ⟨-, hcmp⟩ | ⟨rfl, -⟩ | ⟨-, hcmp⟩
    · exact absurd (by rw [hcmp]; decide) hzero
    · exact ⟨fun h => .inr ⟨rfl, h⟩, fun h => (h.resolve_left (lt_irrefl _)).2⟩
    · exact absurd (by rw [hcmp]; decide) hzero

variable {favourites : List JString} {a b c : JString}

/-- A name is smaller exactly if its place is. -/
theorem compare_lt : compare favourites a b < 0 ↔ place favourites a < place favourites b := by
  unfold compare place
  rw [Prod.Lex.toLex_lt_toLex]
  by_cases heq : a = b
  · subst heq
    rw [if_pos rfl]
    simp
  · rw [if_neg heq]
    cases favourites.contains a <;> cases favourites.contains b <;> simp [compareTokens_lt]

/-- Two names have one place if both are favourites or none is, and they have the same tokens. -/
theorem place_eq_iff : place favourites a = place favourites b ↔
    favourites.contains a = favourites.contains b ∧ naturalSortString a = naturalSortString b := by
  have hrank : Function.Injective NaturalSortToken.rank := by
    intro t u h
    rcases t.compareTo_cases u with ⟨hlt, -⟩ | ⟨heq, -⟩ | ⟨hgt, -⟩
    · exact absurd h hlt.ne
    · exact heq
    · exact absurd h hgt.ne'
  unfold place
  rw [toLex_inj, Prod.mk.injEq, Bool.not_inj_iff, (List.map_injective_iff.mpr hrank).eq_iff]

/-! ## The laws of an order -/

/-- What `java.util.Comparator` asks for, and that only equal names compare as equal. -/
structure Laws (favourites : List JString) (a b c : JString) : Prop where
  zero : compare favourites a b = 0 ↔ a = b
  sign : (compare favourites a b).sign = -(compare favourites b a).sign
  trans : compare favourites a b < 0 → compare favourites b c < 0 → compare favourites a c < 0

/-- The signs are opposite unless the names are different and share a place: then both are greater. -/
theorem sign_iff : (compare favourites a b).sign = -(compare favourites b a).sign ↔
    (place favourites a = place favourites b → a = b) := by
  by_cases heq : a = b
  · subst heq
    rw [compare_eq_zero.mpr rfl]
    exact iff_of_true rfl fun _ => rfl
  · have hab : compare favourites a b ≠ 0 := fun h => heq (compare_eq_zero.mp h)
    have hba : compare favourites b a ≠ 0 := fun h => heq (compare_eq_zero.mp h).symm
    rcases lt_trichotomy (place favourites a) (place favourites b) with hlt | hsame | hgt
    · have hneg := compare_lt.mpr hlt
      have hpos : 0 < compare favourites b a :=
        lt_of_le_of_ne (not_lt.mp fun h => hlt.asymm (compare_lt.mp h)) hba.symm
      rw [Int.sign_eq_neg_one_of_neg hneg, Int.sign_eq_one_of_pos hpos]
      exact iff_of_true rfl fun h => absurd h hlt.ne
    · have hpos : 0 < compare favourites a b :=
        lt_of_le_of_ne (not_lt.mp fun h => (compare_lt.mp h).ne hsame) hab.symm
      have hpos' : 0 < compare favourites b a :=
        lt_of_le_of_ne (not_lt.mp fun h => (compare_lt.mp h).ne hsame.symm) hba.symm
      rw [Int.sign_eq_one_of_pos hpos, Int.sign_eq_one_of_pos hpos']
      exact iff_of_false (by decide) fun h => heq (h hsame)
    · have hneg := compare_lt.mpr hgt
      have hpos : 0 < compare favourites a b :=
        lt_of_le_of_ne (not_lt.mp fun h => hgt.asymm (compare_lt.mp h)) hab.symm
      rw [Int.sign_eq_one_of_pos hpos, Int.sign_eq_neg_one_of_neg hneg]
      exact iff_of_true rfl fun h => absurd h hgt.ne'

/-- The laws hold unless the first two names are different, both favourites or both not, and have the
same tokens. -/
theorem laws_iff (favourites : List JString) (a b c : JString) : Laws favourites a b c ↔
    a = b ∨ favourites.contains a ≠ favourites.contains b ∨ naturalSortString a ≠ naturalSortString b := by
  have htrans : compare favourites a b < 0 → compare favourites b c < 0 → compare favourites a c < 0 := by
    simp only [compare_lt]
    exact lt_trans
  have hplace : (place favourites a = place favourites b → a = b) ↔
      a = b ∨ favourites.contains a ≠ favourites.contains b ∨ naturalSortString a ≠ naturalSortString b := by
    rw [place_eq_iff, or_comm, ← not_and_or, imp_iff_not_or]
  rw [← hplace, ← sign_iff]
  exact ⟨fun h => h.sign, fun h => ⟨compare_eq_zero, h, htrans⟩⟩

/-- The names `a` and `A` are valid and have the same tokens: each is greater than the other. -/
theorem laws_fail_on_case :
    isNameInvalid (text "a") = false ∧ isNameInvalid (text "A") = false ∧
      compare [] (text "a") (text "A") = 1 ∧ compare [] (text "A") (text "a") = 1 ∧
      ¬ Laws [] (text "a") (text "A") (text "a") := by
  have hvalues : isNameInvalid (text "a") = false ∧ isNameInvalid (text "A") = false ∧
      compare [] (text "a") (text "A") = 1 ∧ compare [] (text "A") (text "a") = 1 := by decide +kernel
  obtain ⟨ha, hA, hless, hless'⟩ := hvalues
  refine ⟨ha, hA, hless, hless', fun h => ?_⟩
  have hsign := h.sign
  rw [hless, hless'] at hsign
  exact absurd hsign (by decide)

/-! ## Names that the tokens tell apart -/

/-- The comparator with the raw names as the last resort, so that no two names share a place. -/
def refined (favourites : List JString) : Comparator JString where
  compare a b :=
    if a = b then 0
    else if favourites.contains a = favourites.contains b ∧ naturalSortString a = naturalSortString b then
      if a < b then -1 else 1
    else compare favourites a b
  compare_eq_zero := by
    intro a b
    split_ifs with heq hplace hlt
    · exact iff_of_true rfl heq
    · exact iff_of_false (by decide) heq
    · exact iff_of_false (by decide) heq
    · exact compare_eq_zero

theorem refined_isOrder (favourites : List JString) : BinarySearch.IsOrder (refined favourites).compare := by
  let full : JString → (Bool ×ₗ List Rank) ×ₗ List Nat := fun a => toLex (place favourites a, a.map UInt16.toNat)
  have hfull : Function.Injective full := fun a b h =>
    map_toNat_injective (congrArg Prod.snd (toLex_inj.mp h))
  refine BinarySearch.isOrder_of_places hfull (fun a b => (refined favourites).compare_eq_zero) fun a b => ?_
  simp only [refined, full, Prod.Lex.toLex_lt_toLex, ← place_eq_iff]
  split_ifs with heq hplace hlt
  · subst heq
    simp
  · exact iff_of_true (by decide) (.inr ⟨hplace, map_toNat_lt.mpr hlt⟩)
  · refine iff_of_false (by decide) ?_
    rw [hplace, map_toNat_lt]
    simp [hlt]
  · rw [compare_lt]
    exact ⟨.inl, fun h => h.resolve_right fun h => hplace h.1⟩

theorem refined_eq {names : Set JString} (hnames : Set.InjOn naturalSortString names) (ha : a ∈ names)
    (hb : b ∈ names) : (comparator favourites).compare a b = (refined favourites).compare a b := by
  simp only [comparator, refined]
  split_ifs with heq hplace hlt
  · exact compare_eq_zero.mpr heq
  · exact absurd (hnames ha hb hplace.2) heq
  · exact absurd (hnames ha hb hplace.2) heq
  · rfl

/-- The favourites are a set. -/
theorem comparator_congr {favourites' : List JString} (h : ∀ n, n ∈ favourites ↔ n ∈ favourites') :
    comparator favourites = comparator favourites' := by
  have hcontains : ∀ n, favourites.contains n = favourites'.contains n := fun n => by
    rw [Bool.eq_iff_iff, List.contains_iff_mem, List.contains_iff_mem, h]
  have hcompare : compare favourites = compare favourites' := by
    funext a b
    unfold compare
    rw [hcontains, hcontains]
  unfold comparator
  congr

end TunnelComparator

end WgAndroid
