import WgAndroid.Config.Network

/-!
# Numeric addresses

`WONT_TOUCH_RESOLVER`, the pattern that a text has to match before `InetAddresses.parse` passes it to
`getByName`. It is compared with the text forms of addresses, which are stated here without it.

Results:
1. `lang_octet_iff`, `lang_octet'_iff`: the numbers of the two kinds of dotted quads.
2. `lang_wontTouchResolver_iff`: the eight alternatives for IPv6, with the zone, and the one for IPv4.
3. `wontTouchResolver_exact`: the pattern matches exactly the numeric addresses, and nothing else
   reaches `getByName`.
-/

namespace WgAndroid.InetAddresses

open Regex RegexLemmas Delimited

/-! ## Text forms -/

/-- A group of an IPv6 address. -/
def IsGroup (g : JString) : Prop := (1 ≤ g.length ∧ g.length ≤ 4) ∧ ∀ c ∈ g, isHex c = true

/-- A number up to 255 without leading zeros. -/
def IsOctet (t : JString) : Prop := ∃ n ≤ 255, t = decimal n

/-- A number of one to three digits up to 255. -/
def IsPaddedOctet (t : JString) : Prop :=
  (1 ≤ t.length ∧ t.length ≤ 3) ∧ (∀ c ∈ t, isDigit c = true) ∧ ∃ n ∈ magnitude t, n ≤ 255

/-- Four numbers with dots between them. -/
def IsQuad (octet : JString → Prop) (t : JString) : Prop :=
  ∃ os : List JString, os.length = 4 ∧ (∀ o ∈ os, octet o) ∧ t = [unit '.'].intercalate os

/-- Groups with colons between them. -/
def joinGroups (gs : List JString) : JString := [unit ':'].intercalate gs

/-- So many groups, of which the last two may be written as a dotted quad. -/
def Written (n : Nat) (t : JString) : Prop :=
  ∃ gs : List JString, (∀ g ∈ gs, IsGroup g) ∧
    (gs.length = n ∧ t = joinGroups gs ∨
      ∃ q, IsQuad IsOctet q ∧ gs.length + 2 = n ∧ t = joinGroups (gs ++ [q]))

/-- Eight groups, or at most seven and a double colon for those that are missing. -/
def IsIpv6 (s : JString) : Prop :=
  Written 8 s ∨ ∃ (gs : List JString) (n : Nat) (t : JString), (∀ g ∈ gs, IsGroup g) ∧ Written n t ∧
    gs.length + n ≤ 7 ∧ s = joinGroups gs ++ (text "::" ++ t)

/-- An IPv6 address, perhaps with a zone, or an IPv4 address. -/
def IsNumeric (s : JString) : Prop :=
  IsIpv6 s ∨ (∃ t zone, IsIpv6 t ∧ zone ≠ [] ∧ s = t ++ unit '%' :: zone) ∨ IsQuad IsPaddedOctet s

/-! ## Numbers -/

def digitUnit (k : Nat) : UInt16 := UInt16.ofNat (48 + k)

theorem exists_digitUnit {lo hi : Char} {c : UInt16} {a b : Nat} (h : inRange lo hi c = true)
    (hlo : (unit lo).toNat = 48 + a) (hhi : (unit hi).toNat = 48 + b) :
    ∃ k, a ≤ k ∧ k < b + 1 ∧ c = digitUnit k := by
  rw [inRange, Bool.and_eq_true, decide_eq_true_eq, decide_eq_true_eq, UInt16.le_iff_toNat_le,
    UInt16.le_iff_toNat_le, hlo, hhi] at h
  refine ⟨c.toNat - 48, by omega, by omega, ?_⟩
  rw [digitUnit, Nat.add_sub_cancel' (by omega), UInt16.ofNat_toNat]

theorem isDigit_iff {c : UInt16} : isDigit c = true ↔ ∃ k < 10, c = digitUnit k := by
  constructor
  · intro h
    obtain ⟨k, -, hk, rfl⟩ := exists_digitUnit (a := 0) (b := 9) h rfl rfl
    exact ⟨k, hk, rfl⟩
  · rintro ⟨k, hk, rfl⟩
    have hall : ∀ k < 10, isDigit (digitUnit k) = true := by decide
    exact hall k hk

/-- The words of `octet`, by its alternatives. -/
theorem octet_words :
    (∀ c < 6, [unit '2', unit '5', digitUnit c] = decimal (250 + c)) ∧
    (∀ b < 5, ∀ c < 10, [unit '2', digitUnit b, digitUnit c] = decimal (200 + b * 10 + c)) ∧
    (∀ b < 10, ∀ c < 10, [unit '1', digitUnit b, digitUnit c] = decimal (100 + b * 10 + c)) ∧
    (∀ b < 10, 1 ≤ b → ∀ c < 10, [digitUnit b, digitUnit c] = decimal (b * 10 + c)) ∧
    (∀ c < 10, [digitUnit c] = decimal c) ∧
    ∀ n < 256, octet.accepts (decimal n) = true := by
  decide +kernel

/-- A digit of a class. -/
theorem lang_digits {lo hi : Char} {w : JString} {a b : Nat} (h : Lang (.cls (inRange lo hi)) w)
    (hlo : (unit lo).toNat = 48 + a) (hhi : (unit hi).toNat = 48 + b) :
    ∃ k, a ≤ k ∧ k < b + 1 ∧ w = [digitUnit k] := by
  obtain ⟨c, rfl, hc⟩ := lang_cls_iff.mp h
  obtain ⟨k, ha, hb, rfl⟩ := exists_digitUnit hc hlo hhi
  exact ⟨k, ha, hb, rfl⟩

theorem lang_octet_iff {t : JString} : Lang octet t ↔ IsOctet t := by
  obtain ⟨h25, h2, h1, hpair, hdigit, hall⟩ := octet_words
  constructor
  · intro h
    simp only [octet, lang_anyOf_cons, lang_anyOf_nil, or_false, lang_seq_iff, lang_opt_iff] at h
    rcases h with ⟨_, _, rfl, hx, _, _, rfl, hy, hz⟩ | ⟨_, _, rfl, hx, _, _, rfl, hy, hz⟩ |
      ⟨_, _, rfl, hx, _, _, rfl, hy, hz⟩ | ⟨_, _, rfl, hy, hz⟩
    · obtain rfl := lang_lit_iff.mp hx
      obtain rfl := lang_lit_iff.mp hy
      obtain ⟨c, -, hc, rfl⟩ := lang_digits (a := 0) (b := 5) hz rfl rfl
      exact ⟨250 + c, by omega, h25 c hc⟩
    · obtain rfl := lang_lit_iff.mp hx
      obtain ⟨b, -, hb, rfl⟩ := lang_digits (a := 0) (b := 4) hy rfl rfl
      obtain ⟨c, -, hc, rfl⟩ := lang_digits (a := 0) (b := 9) hz rfl rfl
      exact ⟨200 + b * 10 + c, by omega, h2 b hb c hc⟩
    · obtain rfl := lang_lit_iff.mp hx
      obtain ⟨b, -, hb, rfl⟩ := lang_digits (a := 0) (b := 9) hy rfl rfl
      obtain ⟨c, -, hc, rfl⟩ := lang_digits (a := 0) (b := 9) hz rfl rfl
      exact ⟨100 + b * 10 + c, by omega, h1 b hb c hc⟩
    · obtain ⟨c, -, hc, rfl⟩ := lang_digits (a := 0) (b := 9) hz rfl rfl
      rcases hy with hy | rfl
      · obtain ⟨b, hpos, hb, rfl⟩ := lang_digits (a := 1) (b := 9) hy rfl rfl
        exact ⟨b * 10 + c, by omega, hpair b hb hpos c hc⟩
      · exact ⟨c, by omega, hdigit c hc⟩
  · rintro ⟨n, hn, rfl⟩
    exact accepts_iff.mp (hall n (Nat.lt_succ_of_le hn))

instance (t : JString) : Decidable (IsPaddedOctet t) :=
  inferInstanceAs (Decidable ((1 ≤ t.length ∧ t.length ≤ 3) ∧ (∀ c ∈ t, isDigit c = true) ∧
    ∃ n ∈ magnitude t, n ≤ 255))

/-- The words of `octet'` of one, two and three digits. -/
theorem octet'_words :
    (∀ a < 10, octet'.accepts [digitUnit a] = true ↔ IsPaddedOctet [digitUnit a]) ∧
    (∀ a < 10, ∀ b < 10, octet'.accepts [digitUnit a, digitUnit b] = true ↔
      IsPaddedOctet [digitUnit a, digitUnit b]) ∧
    ∀ a < 10, ∀ b < 10, ∀ c < 10, octet'.accepts [digitUnit a, digitUnit b, digitUnit c] = true ↔
      IsPaddedOctet [digitUnit a, digitUnit b, digitUnit c] := by
  decide +kernel

/-- One, two or three digits. -/
def Digits (t : JString) : Prop :=
  (∃ a < 10, t = [digitUnit a]) ∨ (∃ a < 10, ∃ b < 10, t = [digitUnit a, digitUnit b]) ∨
    ∃ a < 10, ∃ b < 10, ∃ c < 10, t = [digitUnit a, digitUnit b, digitUnit c]

theorem digits_of_isPaddedOctet {t : JString} (h : IsPaddedOctet t) : Digits t := by
  obtain ⟨⟨hpos, hle⟩, hdigits, -⟩ := h
  rcases t with _ | ⟨x, _ | ⟨y, _ | ⟨z, _ | ⟨e, t⟩⟩⟩⟩
  · exact absurd hpos (by decide)
  · obtain ⟨a, ha, rfl⟩ := isDigit_iff.mp (hdigits x (by simp))
    exact .inl ⟨a, ha, rfl⟩
  · obtain ⟨a, ha, rfl⟩ := isDigit_iff.mp (hdigits x (by simp))
    obtain ⟨b, hb, rfl⟩ := isDigit_iff.mp (hdigits y (by simp))
    exact .inr (.inl ⟨a, ha, b, hb, rfl⟩)
  · obtain ⟨a, ha, rfl⟩ := isDigit_iff.mp (hdigits x (by simp))
    obtain ⟨b, hb, rfl⟩ := isDigit_iff.mp (hdigits y (by simp))
    obtain ⟨c, hc, rfl⟩ := isDigit_iff.mp (hdigits z (by simp))
    exact .inr (.inr ⟨a, ha, b, hb, c, hc, rfl⟩)
  · exact absurd hle (by simp)

theorem digits_of_lang {t : JString} (h : Lang octet' t) : Digits t := by
  simp only [octet', lang_anyOf_cons, lang_anyOf_nil, or_false, lang_seq_iff, lang_opt_iff] at h
  rcases h with ⟨_, _, rfl, hx, _, _, rfl, hy, hz⟩ | ⟨_, _, rfl, hx, _, _, rfl, hy, hz⟩ |
    ⟨_, _, rfl, hx, _, _, rfl, hy, hz⟩
  · obtain rfl := lang_lit_iff.mp hx
    obtain rfl := lang_lit_iff.mp hy
    obtain ⟨c, -, hc, rfl⟩ := lang_digits (a := 0) (b := 5) hz rfl rfl
    exact .inr (.inr ⟨2, by decide, 5, by decide, c, by omega, rfl⟩)
  · obtain rfl := lang_lit_iff.mp hx
    obtain ⟨b, -, hb, rfl⟩ := lang_digits (a := 0) (b := 4) hy rfl rfl
    obtain ⟨c, -, hc, rfl⟩ := lang_digits (a := 0) (b := 9) hz rfl rfl
    exact .inr (.inr ⟨2, by decide, b, by omega, c, hc, rfl⟩)
  · obtain ⟨b, -, hb, rfl⟩ := lang_digits (a := 0) (b := 9) hy rfl rfl
    rcases hx with hx | rfl <;> rcases hz with hz | rfl
    · obtain ⟨a, -, ha, rfl⟩ := lang_digits (a := 0) (b := 1) hx rfl rfl
      obtain ⟨c, -, hc, rfl⟩ := lang_digits (a := 0) (b := 9) hz rfl rfl
      exact .inr (.inr ⟨a, by omega, b, hb, c, hc, rfl⟩)
    · obtain ⟨a, -, ha, rfl⟩ := lang_digits (a := 0) (b := 1) hx rfl rfl
      exact .inr (.inl ⟨a, by omega, b, hb, rfl⟩)
    · obtain ⟨c, -, hc, rfl⟩ := lang_digits (a := 0) (b := 9) hz rfl rfl
      exact .inr (.inl ⟨b, hb, c, hc, rfl⟩)
    · exact .inl ⟨b, hb, rfl⟩

theorem lang_octet'_iff {t : JString} : Lang octet' t ↔ IsPaddedOctet t := by
  obtain ⟨hone, htwo, hthree⟩ := octet'_words
  have hdigits : Digits t → (Lang octet' t ↔ IsPaddedOctet t) := by
    rw [← accepts_iff]
    rintro (⟨a, ha, rfl⟩ | ⟨a, ha, b, hb, rfl⟩ | ⟨a, ha, b, hb, c, hc, rfl⟩)
    · exact hone a ha
    · exact htwo a ha b hb
    · exact hthree a ha b hb c hc
  exact ⟨fun h => (hdigits (digits_of_lang h)).mp h, fun h => (hdigits (digits_of_isPaddedOctet h)).mpr h⟩

/-! ## Dotted quads -/

section Quads

variable {r : Regex UInt16} {octet : JString → Prop} (hr : ∀ u, Lang r u ↔ octet u) {w : JString}
include hr

/-- A number and three more, each behind a dot. -/
theorem lang_quad_iff :
    Lang (.seq r (Regex.times (.seq (.lit (unit '.')) r) 3)) w ↔ IsQuad octet w := by
  have hdot : ∀ u, Lang (.seq (.lit (unit '.')) r) u ↔ ∃ o, octet o ∧ u = [unit '.'] ++ o := by
    intro u
    simp only [lang_seq_iff, lang_lit_iff, hr]
    constructor
    · rintro ⟨_, o, rfl, rfl, ho⟩
      exact ⟨o, ho, rfl⟩
    · rintro ⟨o, ho, rfl⟩
      exact ⟨_, o, rfl, rfl, ho⟩
  rw [lang_seq_iff]
  simp only [lang_times_iff, exists_words_iff (P := (· = 3)) hdot, hr]
  constructor
  · rintro ⟨o, _, rfl, ho, os, hlength, hos, rfl⟩
    exact ⟨o :: os, congrArg (· + 1) hlength, List.forall_mem_cons.mpr ⟨ho, hos⟩,
      intercalate_cons_eq_flatMap.symm⟩
  · rintro ⟨os, hlength, hos, rfl⟩
    obtain ⟨o, os, rfl⟩ := List.exists_cons_of_length_eq_add_one hlength
    obtain ⟨ho, hos⟩ := List.forall_mem_cons.mp hos
    exact ⟨o, _, intercalate_cons_eq_flatMap, ho, os, Nat.succ.inj hlength, hos, rfl⟩

/-- Three numbers, each before a dot, and one more. -/
theorem lang_quad'_iff :
    Lang (.seq (Regex.times (.seq r (.lit (unit '.'))) 3) r) w ↔ IsQuad octet w := by
  have hdot : ∀ u, Lang (.seq r (.lit (unit '.'))) u ↔ ∃ o, octet o ∧ u = o ++ [unit '.'] := by
    intro u
    simp only [lang_seq_iff, lang_lit_iff, hr]
    constructor
    · rintro ⟨o, _, rfl, ho, rfl⟩
      exact ⟨o, ho, rfl⟩
    · rintro ⟨o, ho, rfl⟩
      exact ⟨o, _, rfl, ho, rfl⟩
  rw [lang_seq_iff]
  simp only [lang_times_iff, exists_words_iff (P := (· = 3)) hdot, hr]
  constructor
  · rintro ⟨_, o, rfl, ⟨os, hlength, hos, rfl⟩, ho⟩
    refine ⟨os ++ [o], ?_, List.forall_mem_append.mpr ⟨hos, List.forall_mem_singleton.mpr ho⟩,
      intercalate_concat_eq_flatMap.symm⟩
    rw [List.length_append, hlength, List.length_singleton]
  · rintro ⟨os, hlength, hos, rfl⟩
    rcases List.eq_nil_or_concat' os with rfl | ⟨os, o, rfl⟩
    · cases hlength
    · rw [List.length_append, List.length_singleton] at hlength
      obtain ⟨hos, ho⟩ := List.forall_mem_append.mp hos
      exact ⟨_, o, intercalate_concat_eq_flatMap, ⟨os, Nat.succ.inj hlength, hos, rfl⟩,
        ho o (List.mem_singleton_self o)⟩

end Quads

theorem lang_dotted_iff {w : JString} : Lang dotted w ↔ IsQuad IsOctet w := lang_quad_iff fun _ => lang_octet_iff

/-! ## Groups -/

def IsGroups (gs : List JString) : Prop := ∀ g ∈ gs, IsGroup g

theorem lang_h16_iff {w : JString} : Lang h16 w ↔ IsGroup w := lang_between_cls_iff (by decide)

theorem lang_h16c_iff {w : JString} : Lang h16c w ↔ ∃ g, IsGroup g ∧ w = g ++ [unit ':'] := by
  show Lang (.seq h16 (.lit (unit ':'))) w ↔ _
  simp only [lang_seq_iff, lang_lit_iff, lang_h16_iff]
  constructor
  · rintro ⟨g, _, rfl, hg, rfl⟩
    exact ⟨g, hg, rfl⟩
  · rintro ⟨g, hg, rfl⟩
    exact ⟨g, _, rfl, hg, rfl⟩

theorem lang_ch16_iff {w : JString} : Lang ch16 w ↔ ∃ g, IsGroup g ∧ w = [unit ':'] ++ g := by
  show Lang (.seq (.lit (unit ':')) h16) w ↔ _
  simp only [lang_seq_iff, lang_lit_iff, lang_h16_iff]
  constructor
  · rintro ⟨_, g, rfl, rfl, hg⟩
    exact ⟨g, hg, rfl⟩
  · rintro ⟨g, hg, rfl⟩
    exact ⟨_, g, rfl, rfl, hg⟩

/-- Groups, each before a colon. -/
theorem lang_heads_iff {n : Nat} {w : JString} :
    Lang (h16c.times n) w ↔ ∃ gs, gs.length = n ∧ IsGroups gs ∧ w = gs.flatMap (· ++ [unit ':']) := by
  rw [lang_times_iff]
  exact exists_words_iff (P := (· = n)) fun _ => lang_h16c_iff

theorem lang_tails_iff {n : Nat} (h : 1 ≤ n) {w : JString} :
    Lang (ch16.between 1 n) w ↔
      ∃ gs, (1 ≤ gs.length ∧ gs.length ≤ n) ∧ IsGroups gs ∧ w = gs.flatMap ([unit ':'] ++ ·) := by
  rw [lang_between_iff h]
  exact exists_words_iff (P := fun k => 1 ≤ k ∧ k ≤ n) fun _ => lang_ch16_iff

/-- Groups behind a colon each, and a dotted quad. -/
def IsMiddle (n : Nat) (w : JString) : Prop :=
  ∃ gs q, gs.length ≤ n ∧ IsGroups gs ∧ IsQuad IsOctet q ∧ w = gs.flatMap ([unit ':'] ++ ·) ++ ([unit ':'] ++ q)

theorem lang_middle_iff {n : Nat} {w : JString} :
    Lang (.seq (ch16.upTo n) (.seq (.lit (unit ':')) dotted)) w ↔ IsMiddle n w := by
  rw [lang_seq_iff]
  simp only [lang_upTo_iff, exists_words_iff (P := (· ≤ n)) fun _ => lang_ch16_iff, lang_seq_iff, lang_lit_iff,
    lang_dotted_iff]
  constructor
  · rintro ⟨_, _, rfl, ⟨gs, hlength, hgs, rfl⟩, _, q, rfl, rfl, hq⟩
    exact ⟨gs, q, hlength, hgs, hq, rfl⟩
  · rintro ⟨gs, q, hlength, hgs, hq, rfl⟩
    exact ⟨_, _, rfl, ⟨gs, hlength, hgs, rfl⟩, _, q, rfl, rfl, hq⟩

/-- What may follow the first colon of a double colon. -/
def IsRight (k : Nat) (w : JString) : Prop := ∃ n t, Written n t ∧ n ≤ k ∧ w = unit ':' :: t

theorem colon_joinGroups {gs : List JString} (h : gs ≠ []) :
    unit ':' :: joinGroups gs = gs.flatMap ([unit ':'] ++ ·) := by
  obtain ⟨g, gs, rfl⟩ := List.exists_cons_of_ne_nil h
  rw [joinGroups, intercalate_cons_eq_flatMap, List.flatMap_cons, List.append_assoc, List.singleton_append]

theorem colon_joinGroups_quad {gs : List JString} {q : JString} :
    unit ':' :: joinGroups (gs ++ [q]) = gs.flatMap ([unit ':'] ++ ·) ++ ([unit ':'] ++ q) := by
  rw [colon_joinGroups (by simp), List.flatMap_append, List.flatMap_singleton]

theorem joinGroups_concat {gs : List JString} {g : JString} :
    joinGroups (gs ++ [g]) = gs.flatMap (· ++ [unit ':']) ++ g := intercalate_concat_eq_flatMap

theorem joinGroups_colon {gs : List JString} (h : gs ≠ []) :
    joinGroups gs ++ [unit ':'] = gs.flatMap (· ++ [unit ':']) := by
  rcases List.eq_nil_or_concat' gs with rfl | ⟨gs, g, rfl⟩
  · exact absurd rfl h
  · rw [joinGroups_concat, List.flatMap_append, List.flatMap_singleton, List.append_assoc]

theorem isRight_iff {k : Nat} {w : JString} :
    IsRight k w ↔
      (∃ gs, (1 ≤ gs.length ∧ gs.length ≤ k) ∧ IsGroups gs ∧ w = gs.flatMap ([unit ':'] ++ ·)) ∨
      (∃ n, n + 2 ≤ k ∧ IsMiddle n w) ∨ w = [unit ':'] := by
  constructor
  · rintro ⟨n, t, ⟨gs, hgs, ⟨rfl, rfl⟩ | ⟨q, hq, rfl, rfl⟩⟩, hn, rfl⟩
    · by_cases hnil : gs = []
      · rw [hnil]
        exact .inr (.inr rfl)
      · exact .inl ⟨gs, ⟨List.length_pos_iff.mpr hnil, hn⟩, hgs, colon_joinGroups hnil⟩
    · exact .inr (.inl ⟨gs.length, hn, gs, q, Nat.le_refl _, hgs, hq, colon_joinGroups_quad⟩)
  · rintro (⟨gs, ⟨hpos, hle⟩, hgs, rfl⟩ | ⟨n, hn, gs, q, hle, hgs, hq, rfl⟩ | rfl)
    · exact ⟨_, _, ⟨gs, hgs, .inl ⟨rfl, rfl⟩⟩, hle, (colon_joinGroups (List.length_pos_iff.mp hpos)).symm⟩
    · exact ⟨gs.length + 2, _, ⟨gs, hgs, .inr ⟨q, hq, rfl, rfl⟩⟩, Nat.le_trans (Nat.add_le_add_right hle 2) hn,
        colon_joinGroups_quad.symm⟩
    · exact ⟨0, [], ⟨[], fun _ hg => absurd hg List.not_mem_nil, .inl ⟨rfl, rfl⟩⟩, Nat.zero_le k, rfl⟩

/-! ## The alternatives of the pattern -/

theorem isMiddle_mono {m n : Nat} {w : JString} (hmn : m ≤ n) (h : IsMiddle m w) : IsMiddle n w := by
  obtain ⟨gs, q, hlength, hrest⟩ := h
  exact ⟨gs, q, Nat.le_trans hlength hmn, hrest⟩

/-- What follows the groups before the double colon, if there is room for a dotted quad. -/
theorem lang_right_iff {k : Nat} {middle : Regex UInt16} {w : JString}
    (hmiddle : ∀ u, Lang middle u ↔ IsMiddle k u) :
    Lang (.anyOf [ch16.between 1 (k + 2), middle, .lit (unit ':')]) w ↔ IsRight (k + 2) w := by
  simp only [lang_anyOf_cons, lang_anyOf_nil, or_false, lang_lit_iff, hmiddle, isRight_iff,
    lang_tails_iff (Nat.le_add_left 1 (k + 1))]
  refine or_congr_right (or_congr_left ⟨fun h => ⟨k, Nat.le_refl _, h⟩, ?_⟩)
  rintro ⟨n, hn, h⟩
  exact isMiddle_mono (Nat.le_of_add_le_add_right hn) h

/-- So many groups, a double colon and what may follow it. -/
def IsShort (n : Nat) (w : JString) : Prop :=
  ∃ gs v, gs.length = n ∧ IsGroups gs ∧ IsRight (7 - n) v ∧ w = joinGroups gs ++ unit ':' :: v

theorem lang_short_iff {n : Nat} {right : Regex UInt16} {w : JString} (hn : 0 < n)
    (hright : ∀ v, Lang right v ↔ IsRight (7 - n) v) :
    Lang (.seq (h16c.times n) right) w ↔ IsShort n w := by
  rw [lang_seq_iff]
  simp only [lang_heads_iff, hright]
  constructor
  · rintro ⟨_, v, rfl, ⟨gs, hlength, hgs, rfl⟩, hv⟩
    refine ⟨gs, v, hlength, hgs, hv, ?_⟩
    rw [← joinGroups_colon (List.length_pos_iff.mp (hlength ▸ hn)), List.append_assoc, List.singleton_append]
  · rintro ⟨gs, v, hlength, hgs, hv, rfl⟩
    refine ⟨_, v, ?_, ⟨gs, hlength, hgs, rfl⟩, hv⟩
    rw [← joinGroups_colon (List.length_pos_iff.mp (hlength ▸ hn)), List.append_assoc, List.singleton_append]

/-- Without a double colon: so many groups, and one more of some kind. -/
def IsFull (n : Nat) (last : JString → Prop) (w : JString) : Prop :=
  ∃ gs g, gs.length = n ∧ IsGroups gs ∧ last g ∧ w = joinGroups (gs ++ [g])

theorem lang_full_iff {n : Nat} {r : Regex UInt16} {last : JString → Prop} {w : JString}
    (hr : ∀ u, Lang r u ↔ last u) : Lang (.seq (h16c.times n) r) w ↔ IsFull n last w := by
  rw [lang_seq_iff]
  simp only [lang_heads_iff, hr]
  constructor
  · rintro ⟨_, g, rfl, ⟨gs, hlength, hgs, rfl⟩, hg⟩
    exact ⟨gs, g, hlength, hgs, hg, joinGroups_concat.symm⟩
  · rintro ⟨gs, g, hlength, hgs, hg, rfl⟩
    exact ⟨_, g, joinGroups_concat, ⟨gs, hlength, hgs, rfl⟩, hg⟩

theorem written_eight_iff {w : JString} : Written 8 w ↔ IsFull 7 IsGroup w ∨ IsFull 6 (IsQuad IsOctet) w := by
  constructor
  · rintro ⟨gs, hgs, ⟨hlength, rfl⟩ | ⟨q, hq, hlength, rfl⟩⟩
    · rcases List.eq_nil_or_concat' gs with rfl | ⟨gs, g, rfl⟩
      · cases hlength
      · obtain ⟨hgs, hg⟩ := List.forall_mem_append.mp hgs
        rw [List.length_append, List.length_singleton] at hlength
        exact .inl ⟨gs, g, Nat.succ.inj hlength, hgs, hg g (List.mem_singleton_self g), rfl⟩
    · exact .inr ⟨gs, q, Nat.add_right_cancel hlength, hgs, hq, rfl⟩
  · rintro (⟨gs, g, hlength, hgs, hg, rfl⟩ | ⟨gs, q, hlength, hgs, hq, rfl⟩)
    · refine ⟨gs ++ [g], List.forall_mem_append.mpr ⟨hgs, List.forall_mem_singleton.mpr hg⟩, .inl ⟨?_, rfl⟩⟩
      rw [List.length_append, hlength, List.length_singleton]
    · exact ⟨gs, hgs, .inr ⟨q, hq, congrArg (· + 2) hlength, rfl⟩⟩

theorem isIpv6_iff {w : JString} :
    IsIpv6 w ↔ (IsFull 7 IsGroup w ∨ IsFull 6 (IsQuad IsOctet) w) ∨ ∃ n ≤ 7, IsShort n w := by
  refine or_congr written_eight_iff ?_
  constructor
  · rintro ⟨gs, n, t, hgs, ht, hn, rfl⟩
    exact ⟨gs.length, Nat.le_trans (Nat.le_add_right _ _) hn, gs, _, rfl, hgs,
      ⟨n, t, ht, Nat.le_sub_of_add_le' hn, rfl⟩, rfl⟩
  · rintro ⟨_, hle, gs, _, rfl, hgs, ⟨n, t, ht, hn, rfl⟩, rfl⟩
    exact ⟨gs, n, t, hgs, ht, Nat.add_le_of_le_sub' hle hn, rfl⟩

/-- The alternative of seven groups. -/
theorem lang_seven_iff {w : JString} :
    Lang (.seq (h16c.times 7) (.alt h16 (.lit (unit ':')))) w ↔ IsFull 7 IsGroup w ∨ IsShort 7 w := by
  have hright : ∀ v, Lang (.lit (unit ':')) v ↔ IsRight (7 - 7) v := by
    intro v
    rw [lang_lit_iff, isRight_iff]
    constructor
    · exact fun h => .inr (.inr h)
    · rintro (⟨gs, ⟨hpos, hle⟩, -⟩ | ⟨n, hn, -⟩ | h)
      · exact absurd (Nat.le_trans hpos hle) (by decide)
      · exact absurd hn (Nat.not_succ_le_zero _)
      · exact h
  rw [lang_seq_alt_iff, lang_full_iff fun _ => lang_h16_iff, lang_short_iff (by decide) hright]

/-- The alternative of six groups. -/
theorem lang_six_iff {w : JString} :
    Lang (.seq (h16c.times 6) (.anyOf [ch16, dotted, .lit (unit ':')])) w ↔
      IsFull 6 (IsQuad IsOctet) w ∨ IsShort 6 w := by
  have hright : ∀ v, Lang (.anyOf [ch16, .lit (unit ':')]) v ↔ IsRight (7 - 6) v := by
    intro v
    simp only [lang_anyOf_cons, lang_anyOf_nil, or_false, lang_lit_iff, lang_ch16_iff, isRight_iff]
    constructor
    · rintro (⟨g, hg, rfl⟩ | rfl)
      · exact .inl ⟨[g], ⟨Nat.le_refl _, Nat.le_refl _⟩, List.forall_mem_singleton.mpr hg, (List.flatMap_singleton ..).symm⟩
      · exact .inr (.inr rfl)
    · rintro (⟨gs, ⟨hpos, hle⟩, hgs, rfl⟩ | ⟨n, hn, -⟩ | h)
      · obtain ⟨g, rfl⟩ := List.length_eq_one_iff.mp (Nat.le_antisymm hle hpos)
        exact .inl ⟨g, hgs g (List.mem_singleton_self g), List.flatMap_singleton ..⟩
      · exact absurd hn (by omega)
      · exact .inr h
  rw [← lang_full_iff fun _ => lang_dotted_iff, ← lang_short_iff (by decide) hright, ← lang_seq_alt_iff]
  simp only [lang_seq_iff, lang_anyOf_cons, lang_alt_iff, or_left_comm]

theorem lang_opt_middle_iff {w : JString} :
    Lang (.seq (.opt ch16) (.seq (.lit (unit ':')) dotted)) w ↔ IsMiddle 1 w := by
  rw [← lang_middle_iff, lang_seq_iff, lang_seq_iff]
  refine exists_congr fun u => exists_congr fun v => and_congr_right fun _ => and_congr_left fun _ => ?_
  show Lang (.opt ch16) u ↔ Lang (.opt (.seq ch16 .eps)) u
  rw [lang_opt_iff, lang_opt_iff, lang_seq_eps_iff]

theorem lang_dotted_middle_iff {w : JString} : Lang (.seq (.lit (unit ':')) dotted) w ↔ IsMiddle 0 w := by
  rw [← lang_middle_iff]
  exact lang_eps_seq_iff.symm

/-- The alternative that starts with the double colon. -/
theorem lang_zero_iff {right : Regex UInt16} {w : JString} (hright : ∀ v, Lang right v ↔ IsRight 7 v) :
    Lang (.seq (.lit (unit ':')) right) w ↔ IsShort 0 w := by
  rw [lang_seq_iff]
  simp only [lang_lit_iff, hright]
  constructor
  · rintro ⟨_, v, rfl, rfl, hv⟩
    exact ⟨[], v, rfl, fun _ hg => absurd hg List.not_mem_nil, hv, rfl⟩
  · rintro ⟨gs, v, hlength, -, hv, rfl⟩
    rw [List.length_eq_zero_iff.mp hlength]
    exact ⟨_, v, rfl, rfl, hv⟩

theorem exists_le_seven_iff {p : Nat → Prop} :
    (∃ n ≤ 7, p n) ↔ p 7 ∨ p 6 ∨ p 5 ∨ p 4 ∨ p 3 ∨ p 2 ∨ p 1 ∨ p 0 := by
  constructor
  · rintro ⟨n, hn, h⟩
    interval_cases n <;> simp [h]
  · rintro (h | h | h | h | h | h | h | h)
    all_goals exact ⟨_, by decide, h⟩

/-- The line terminators of `java.util.regex`. -/
def isTerminator (c : UInt16) : Bool := isBreak c || c == 0x85 || c == 0x2028 || c == 0x2029

theorem lang_zone_iff {v : JString} :
    Lang (.opt (.seq (.lit (unit '%')) dot.plus)) v ↔
      (∃ zone, zone ≠ [] ∧ (∀ c ∈ zone, isTerminator c = false) ∧ v = unit '%' :: zone) ∨ v = [] := by
  have hplus : ∀ zone, Lang dot.plus zone ↔ zone ≠ [] ∧ ∀ c ∈ zone, isTerminator c = false := by
    intro zone
    refine lang_plus_cls_iff.trans (and_congr_right fun _ => forall₂_congr fun c _ => ?_)
    show (!isTerminator c) = true ↔ _
    rw [Bool.not_eq_true']
  rw [lang_opt_iff, lang_seq_iff]
  simp only [lang_lit_iff, hplus]
  refine or_congr_left ⟨?_, ?_⟩
  · rintro ⟨_, zone, rfl, rfl, hne, hzone⟩
    exact ⟨zone, hne, hzone, rfl⟩
  · rintro ⟨zone, hne, hzone, rfl⟩
    exact ⟨_, zone, rfl, rfl, hne, hzone⟩

/-- The words of the pattern. -/
theorem lang_wontTouchResolver_iff {w : JString} :
    Lang wontTouchResolver w ↔
      (∃ u v, w = u ++ v ∧ IsIpv6 u ∧
        ((∃ zone, zone ≠ [] ∧ (∀ c ∈ zone, isTerminator c = false) ∧ v = unit '%' :: zone) ∨ v = [])) ∨
      IsQuad IsPaddedOctet w := by
  unfold wontTouchResolver
  rw [lang_alt_iff, lang_seq_iff]
  refine or_congr (exists_congr fun u => exists_congr fun v => and_congr_right fun _ => and_congr ?_ lang_zone_iff)
    (lang_quad'_iff fun _ => lang_octet'_iff)
  simp only [lang_anyOf_cons, lang_anyOf_nil, or_false]
  rw [isIpv6_iff, exists_le_seven_iff]
  refine Iff.trans (or_congr lang_seven_iff (or_congr lang_six_iff
    (or_congr (lang_short_iff (n := 5) (by decide) fun _ => lang_right_iff (k := 0) fun _ => lang_dotted_middle_iff)
    (or_congr (lang_short_iff (n := 4) (by decide) fun _ => lang_right_iff (k := 1) fun _ => lang_opt_middle_iff)
    (or_congr (lang_short_iff (n := 3) (by decide) fun _ => lang_right_iff (k := 2) fun _ => lang_middle_iff)
    (or_congr (lang_short_iff (n := 2) (by decide) fun _ => lang_right_iff (k := 3) fun _ => lang_middle_iff)
    (or_congr (lang_short_iff (n := 1) (by decide) fun _ => lang_right_iff (k := 4) fun _ => lang_middle_iff)
    (lang_zero_iff fun _ => lang_right_iff (k := 5) fun _ => lang_middle_iff)))))))) ?_
  tauto

/-! ## The guard -/

/-- Without line terminators the pattern matches exactly the numeric addresses. What `parse` makes of
another text does not depend on `getByName`: it is not asked. -/
theorem wontTouchResolver_exact (s : JString) (hs : ∀ c ∈ s, isTerminator c = false) :
    (wontTouchResolver.accepts s = true ↔ IsNumeric s) ∧
      ∀ (P : Platform) (getByName : JString → Option InetAddress),
        (IsNumeric s → getByName s = P.getByName s) → parse { P with getByName } s = parse P s := by
  have hmatch : wontTouchResolver.accepts s = true ↔ IsNumeric s := by
    rw [accepts_iff, lang_wontTouchResolver_iff, IsNumeric, ← or_assoc]
    refine or_congr_left ⟨?_, ?_⟩
    · rintro ⟨u, v, rfl, hu, ⟨zone, hne, -, rfl⟩ | rfl⟩
      · exact .inr ⟨u, zone, hu, hne, rfl⟩
      · exact .inl ((List.append_nil u).symm ▸ hu)
    · rintro (h | ⟨u, zone, hu, hne, rfl⟩)
      · exact ⟨s, [], (List.append_nil s).symm, h, .inr rfl⟩
      · exact ⟨u, _, rfl, hu, .inl ⟨zone, hne, fun c hc => hs c (by simp [hc]), rfl⟩⟩
  refine ⟨hmatch, fun P getByName hname => ?_⟩
  unfold parse
  dsimp only
  by_cases hnumeric : IsNumeric s
  · rw [hname hnumeric]
  · rw [if_neg (mt hmatch.mp hnumeric), if_neg (mt hmatch.mp hnumeric)]

/-- A link-local address with its zone is numeric. -/
theorem wontTouchResolver_link_local : IsNumeric (text "fe80::1%eth0") :=
  (wontTouchResolver_exact (text "fe80::1%eth0") (by decide)).1.mp (by decide +kernel)

end WgAndroid.InetAddresses
