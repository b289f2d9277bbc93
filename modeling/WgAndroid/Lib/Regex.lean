import Mathlib.Data.List.Basic

/-!
# Regular expressions over character classes

Expressions whose letters are classes (predicates), the language they denote and a matcher by
derivatives for a full match of the input.

Results:
1. `accepts_iff`: the matcher accepts exactly the words of the language.
2. `acceptsThen_iff`: a match at the start of a longer input.
3. `Lang.forall_mem`: every letter of a matched word is in some class of the expression.
4. `lang_times_iff`, `lang_upTo_iff`, `lang_between_iff`: the words of a counted repetition.
-/

inductive Regex (α : Type) where
  | empty
  | eps
  | cls (p : α → Bool)
  | seq (r s : Regex α)
  | alt (r s : Regex α)
  | star (r : Regex α)

namespace Regex

variable {α : Type}

/-- `Lang r w`: the word `w` is in the language of `r`. -/
inductive Lang : Regex α → List α → Prop where
  | eps : Lang .eps []
  | cls {p : α → Bool} {c : α} : p c = true → Lang (.cls p) [c]
  | seq {r s : Regex α} {u v : List α} : Lang r u → Lang s v → Lang (.seq r s) (u ++ v)
  | altL {r s : Regex α} {u : List α} : Lang r u → Lang (.alt r s) u
  | altR {r s : Regex α} {u : List α} : Lang s u → Lang (.alt r s) u
  | starNil {r : Regex α} : Lang (.star r) []
  | starCons {r : Regex α} {u v : List α} : Lang r u → Lang (.star r) v → Lang (.star r) (u ++ v)

/-! ## Derived forms -/

def opt (r : Regex α) : Regex α := .alt r .eps

def plus (r : Regex α) : Regex α := .seq r (.star r)

/-- `r{n}`. -/
def times (r : Regex α) : Nat → Regex α
  | 0 => .eps
  | n + 1 => .seq r (r.times n)

/-- `r{0,n}`. -/
def upTo (r : Regex α) : Nat → Regex α
  | 0 => .eps
  | n + 1 => opt (.seq r (r.upTo n))

/-- `r{m,n}`, with `n` counted from `m` on. -/
def between (r : Regex α) (m n : Nat) : Regex α := .seq (r.times m) (r.upTo (n - m))

def lit [BEq α] (c : α) : Regex α := .cls (· == c)

def anyOf : List (Regex α) → Regex α
  | [] => .empty
  | r :: rs => .alt r (anyOf rs)

/-! ## Matching by derivatives -/

def nullable : Regex α → Bool
  | .empty => false
  | .eps => true
  | .cls _ => false
  | .seq r s => r.nullable && s.nullable
  | .alt r s => r.nullable || s.nullable
  | .star _ => true

/-- A sequence, cut short where it denotes nothing or its head nothing but the empty word. -/
def mkSeq : Regex α → Regex α → Regex α
  | .empty, _ => .empty
  | .eps, s => s
  | r, s => .seq r s

/-- An alternative, without the branches that denote nothing. -/
def mkAlt : Regex α → Regex α → Regex α
  | .empty, s => s
  | r, .empty => r
  | r, s => .alt r s

def deriv (c : α) : Regex α → Regex α
  | .empty => .empty
  | .eps => .empty
  | .cls p => if p c then .eps else .empty
  | .seq r s =>
    if r.nullable then mkAlt (mkSeq (r.deriv c) s) (s.deriv c) else mkSeq (r.deriv c) s
  | .alt r s => mkAlt (r.deriv c) (s.deriv c)
  | .star r => mkSeq (r.deriv c) (.star r)

/-- The whole input is a word of the language. -/
def accepts (r : Regex α) : List α → Bool
  | [] => r.nullable
  | c :: w => (r.deriv c).accepts w

/-- A word of the language, and what follows it passes a test. -/
def acceptsThen (p : List α → Bool) (r : Regex α) : List α → Bool
  | [] => r.nullable && p []
  | c :: w => r.nullable && p (c :: w) || (r.deriv c).acceptsThen p w

/-! ## Inversions -/

namespace RegexLemmas

theorem not_lang_empty {w : List α} : ¬ Lang (.empty : Regex α) w := by
  intro h
  cases h

theorem lang_eps_iff {w : List α} : Lang (.eps : Regex α) w ↔ w = [] := by
  constructor
  · intro h
    cases h
    rfl
  · rintro rfl
    exact .eps

theorem lang_lit_iff [BEq α] [LawfulBEq α] {c : α} {w : List α} : Lang (.lit c) w ↔ w = [c] := by
  constructor
  · intro h
    cases h with
    | cls hc => rw [eq_of_beq hc]
  · rintro rfl
    exact .cls (beq_self_eq_true c)

theorem lang_seq_iff {r s : Regex α} {w : List α} :
    Lang (.seq r s) w ↔ ∃ u v, w = u ++ v ∧ Lang r u ∧ Lang s v := by
  constructor
  · intro h
    cases h with
    | seq hr hs => exact ⟨_, _, rfl, hr, hs⟩
  · rintro ⟨u, v, rfl, hr, hs⟩
    exact .seq hr hs

theorem lang_alt_iff {r s : Regex α} {w : List α} : Lang (.alt r s) w ↔ Lang r w ∨ Lang s w := by
  constructor
  · intro h
    cases h with
    | altL h => exact .inl h
    | altR h => exact .inr h
  · rintro (h | h)
    · exact .altL h
    · exact .altR h

theorem lang_mkSeq {r s : Regex α} {w : List α} : Lang (mkSeq r s) w ↔ Lang (.seq r s) w := by
  unfold mkSeq
  split
  · constructor
    · exact fun h => absurd h not_lang_empty
    · intro h
      obtain ⟨_, _, _, hr, _⟩ := lang_seq_iff.mp h
      exact absurd hr not_lang_empty
  · constructor
    · exact fun h => lang_seq_iff.mpr ⟨[], w, rfl, .eps, h⟩
    · intro h
      obtain ⟨u, v, rfl, hr, hs⟩ := lang_seq_iff.mp h
      cases hr
      exact hs
  · exact Iff.rfl

theorem lang_mkAlt {r s : Regex α} {w : List α} : Lang (mkAlt r s) w ↔ Lang (.alt r s) w := by
  rw [lang_alt_iff]
  unfold mkAlt
  split
  · exact ⟨.inr, fun h => h.resolve_left not_lang_empty⟩
  · exact ⟨.inl, fun h => h.resolve_right not_lang_empty⟩
  · exact lang_alt_iff

theorem nullable_iff {r : Regex α} : r.nullable = true ↔ Lang r [] := by
  induction r with
  | empty => exact ⟨fun h => Bool.noConfusion h, fun h => absurd h not_lang_empty⟩
  | eps => exact ⟨fun _ => .eps, fun _ => rfl⟩
  | cls p => exact ⟨fun h => Bool.noConfusion h, fun h => nomatch h⟩
  | seq r s ihr ihs =>
    rw [nullable, Bool.and_eq_true, ihr, ihs, lang_seq_iff]
    constructor
    · rintro ⟨hr, hs⟩
      exact ⟨[], [], rfl, hr, hs⟩
    · rintro ⟨u, v, huv, hr, hs⟩
      obtain ⟨rfl, rfl⟩ := List.append_eq_nil_iff.mp huv.symm
      exact ⟨hr, hs⟩
  | alt r s ihr ihs => rw [nullable, Bool.or_eq_true, ihr, ihs, lang_alt_iff]
  | star r _ => exact ⟨fun _ => .starNil, fun _ => rfl⟩

/-- A non-empty word of `r*` starts with a non-empty word of `r`. -/
theorem lang_star_cons {r : Regex α} {c : α} {w : List α} (h : Lang (.star r) (c :: w)) :
    ∃ u v, w = u ++ v ∧ Lang r (c :: u) ∧ Lang (.star r) v := by
  generalize hx : Regex.star r = x at h
  generalize hy : c :: w = y at h
  -- induction on the derivation: empty iterations are skipped
  induction h with
  | starNil => cases hy
  | @starCons r' u v hu hv _ ih =>
    cases hx
    cases u with
    | nil => exact ih rfl (by simpa using hy)
    | cons d u =>
      rw [List.cons_append, List.cons.injEq] at hy
      obtain ⟨rfl, rfl⟩ := hy
      exact ⟨u, v, rfl, hu, hv⟩
  | _ => cases hx

theorem deriv_iff {r : Regex α} {c : α} {w : List α} : Lang (r.deriv c) w ↔ Lang r (c :: w) := by
  induction r generalizing w with
  | empty => exact ⟨fun h => absurd h not_lang_empty, fun h => nomatch h⟩
  | eps => exact ⟨fun h => absurd h not_lang_empty, fun h => nomatch h⟩
  | cls p =>
    unfold deriv
    split
    · next hp =>
      constructor
      · intro h
        cases h
        exact .cls hp
      · intro h
        cases h
        exact .eps
    · next hp =>
      refine ⟨fun h => absurd h not_lang_empty, fun h => ?_⟩
      cases h with
      | cls h => exact absurd h hp
  | seq r s ihr ihs =>
    -- either `r` takes the first letter, or it matches the empty word and `s` does
    have hcons : Lang (.seq r s) (c :: w) ↔
        Lang (.seq (r.deriv c) s) w ∨ (Lang r [] ∧ Lang s (c :: w)) := by
      rw [lang_seq_iff, lang_seq_iff]
      constructor
      · rintro ⟨u, v, huv, hr, hs⟩
        cases u with
        | nil =>
          rw [List.nil_append] at huv
          exact .inr ⟨hr, huv ▸ hs⟩
        | cons d u =>
          rw [List.cons_append, List.cons.injEq] at huv
          obtain ⟨rfl, rfl⟩ := huv
          exact .inl ⟨u, v, rfl, ihr.mpr hr, hs⟩
      · rintro (⟨u, v, rfl, hr, hs⟩ | ⟨hr, hs⟩)
        · exact ⟨c :: u, v, rfl, ihr.mp hr, hs⟩
        · exact ⟨[], c :: w, rfl, hr, hs⟩
    rw [hcons, deriv]
    split
    · next hn => rw [lang_mkAlt, lang_alt_iff, lang_mkSeq, ihs, and_iff_right (nullable_iff.mp hn)]
    · next hn =>
      rw [lang_mkSeq]
      exact ⟨.inl, fun h => h.resolve_right fun h => hn (nullable_iff.mpr h.1)⟩
  | alt r s ihr ihs => rw [deriv, lang_mkAlt, lang_alt_iff, lang_alt_iff, ihr, ihs]
  | star r ihr =>
    rw [deriv, lang_mkSeq, lang_seq_iff]
    constructor
    · rintro ⟨u, v, rfl, hr, hs⟩
      rw [← List.cons_append]
      exact .starCons (ihr.mp hr) hs
    · intro h
      obtain ⟨u, v, rfl, hr, hs⟩ := lang_star_cons h
      exact ⟨u, v, rfl, ihr.mpr hr, hs⟩

end RegexLemmas

open RegexLemmas

theorem accepts_iff {r : Regex α} {w : List α} : r.accepts w = true ↔ Lang r w := by
  induction w generalizing r with
  | nil => exact nullable_iff
  | cons c w ih => rw [accepts, ih, deriv_iff]

instance (r : Regex α) (w : List α) : Decidable (Lang r w) :=
  decidable_of_iff (r.accepts w = true) accepts_iff

theorem acceptsThen_iff {p : List α → Bool} {r : Regex α} {w : List α} :
    r.acceptsThen p w = true ↔ ∃ u v, w = u ++ v ∧ Lang r u ∧ p v = true := by
  induction w generalizing r with
  | nil =>
    rw [acceptsThen, Bool.and_eq_true, nullable_iff]
    constructor
    · exact fun h => ⟨[], [], rfl, h⟩
    · rintro ⟨u, v, heq, h⟩
      obtain ⟨rfl, rfl⟩ := List.append_eq_nil_iff.mp heq.symm
      exact h
  | cons c w ih =>
    rw [acceptsThen, Bool.or_eq_true, Bool.and_eq_true, nullable_iff, ih]
    constructor
    · rintro (h | ⟨u, v, rfl, hu, hv⟩)
      · exact ⟨[], c :: w, rfl, h⟩
      · exact ⟨c :: u, v, rfl, deriv_iff.mp hu, hv⟩
    · rintro ⟨u, v, heq, hu, hv⟩
      cases u with
      | nil =>
        cases heq
        exact .inl ⟨hu, hv⟩
      | cons d u =>
        cases heq
        exact .inr ⟨u, v, rfl, deriv_iff.mpr hu, hv⟩

/-! ## The letters of a matched word -/

/-- Every class of the expression is contained in `p`. -/
def ClassesIn (p : α → Prop) : Regex α → Prop
  | .empty | .eps => True
  | .cls q => ∀ c, q c = true → p c
  | .seq r s | .alt r s => r.ClassesIn p ∧ s.ClassesIn p
  | .star r => r.ClassesIn p

theorem Lang.forall_mem {p : α → Prop} {r : Regex α} {w : List α} (h : Lang r w)
    (hp : r.ClassesIn p) : ∀ c ∈ w, p c := by
  induction h with
  | eps => simp
  | @cls q c hc =>
    intro d hd
    rw [List.mem_singleton] at hd
    subst hd
    exact hp d hc
  | seq _ _ ih₁ ih₂ =>
    intro c hc
    exact (List.mem_append.mp hc).elim (ih₁ hp.1 c) (ih₂ hp.2 c)
  | altL _ ih => exact ih hp.1
  | altR _ ih => exact ih hp.2
  | starNil => simp
  | starCons _ _ ih₁ ih₂ =>
    intro c hc
    exact (List.mem_append.mp hc).elim (ih₁ hp c) (ih₂ hp c)

theorem classesIn_times {p : α → Prop} {r : Regex α} (h : r.ClassesIn p) (n : Nat) :
    (r.times n).ClassesIn p := by
  induction n with
  | zero => trivial
  | succ n ih => exact ⟨h, ih⟩

theorem classesIn_upTo {p : α → Prop} {r : Regex α} (h : r.ClassesIn p) (n : Nat) :
    (r.upTo n).ClassesIn p := by
  induction n with
  | zero => trivial
  | succ n ih => exact ⟨⟨h, ih⟩, trivial⟩

/-! ## Repetitions -/

theorem lang_cls_iff {p : α → Bool} {w : List α} : Lang (.cls p) w ↔ ∃ c, w = [c] ∧ p c = true := by
  constructor
  · intro h
    cases h with
    | cls hc => exact ⟨_, rfl, hc⟩
  · rintro ⟨c, rfl, hc⟩
    exact .cls hc

theorem lang_opt_iff {r : Regex α} {w : List α} : Lang r.opt w ↔ Lang r w ∨ w = [] :=
  lang_alt_iff.trans (or_congr_right lang_eps_iff)

theorem lang_anyOf_nil {w : List α} : Lang (anyOf []) w ↔ False :=
  iff_of_false not_lang_empty id

theorem lang_anyOf_cons {r : Regex α} {rs : List (Regex α)} {w : List α} :
    Lang (anyOf (r :: rs)) w ↔ Lang r w ∨ Lang (anyOf rs) w :=
  lang_alt_iff

theorem lang_seq_alt_iff {r s t : Regex α} {w : List α} :
    Lang (.seq r (.alt s t)) w ↔ Lang (.seq r s) w ∨ Lang (.seq r t) w := by
  simp only [lang_seq_iff, lang_alt_iff, and_or_left, exists_or]

theorem lang_eps_seq_iff {r : Regex α} {w : List α} : Lang (.seq .eps r) w ↔ Lang r w := by
  simp [lang_seq_iff, lang_eps_iff]

theorem lang_seq_eps_iff {r : Regex α} {w : List α} : Lang (.seq r .eps) w ↔ Lang r w := by
  simp [lang_seq_iff, lang_eps_iff]

theorem lang_times_iff {r : Regex α} {n : Nat} {w : List α} :
    Lang (r.times n) w ↔ ∃ ws : List (List α), ws.length = n ∧ (∀ u ∈ ws, Lang r u) ∧ w = ws.flatten := by
  induction n generalizing w with
  | zero =>
    rw [times, lang_eps_iff]
    constructor
    · rintro rfl
      exact ⟨[], rfl, by simp, rfl⟩
    · rintro ⟨ws, hlength, -, rfl⟩
      rw [List.length_eq_zero_iff.mp hlength, List.flatten_nil]
  | succ n ih =>
    rw [times, lang_seq_iff]
    constructor
    · rintro ⟨u, v, rfl, hu, hv⟩
      obtain ⟨ws, rfl, hws, rfl⟩ := ih.mp hv
      exact ⟨u :: ws, rfl, List.forall_mem_cons.mpr ⟨hu, hws⟩, rfl⟩
    · rintro ⟨ws, hlength, hws, rfl⟩
      obtain ⟨u, ws, rfl⟩ := List.exists_cons_of_length_eq_add_one hlength
      obtain ⟨hu, hws⟩ := List.forall_mem_cons.mp hws
      exact ⟨u, ws.flatten, rfl, hu, ih.mpr ⟨ws, Nat.succ.inj hlength, hws, rfl⟩⟩

theorem lang_upTo_iff {r : Regex α} {n : Nat} {w : List α} :
    Lang (r.upTo n) w ↔ ∃ ws : List (List α), ws.length ≤ n ∧ (∀ u ∈ ws, Lang r u) ∧ w = ws.flatten := by
  induction n generalizing w with
  | zero =>
    rw [upTo, lang_eps_iff]
    constructor
    · rintro rfl
      exact ⟨[], Nat.le_refl 0, by simp, rfl⟩
    · rintro ⟨ws, hlength, -, rfl⟩
      rw [List.length_eq_zero_iff.mp (Nat.le_zero.mp hlength), List.flatten_nil]
  | succ n ih =>
    rw [upTo, lang_opt_iff, lang_seq_iff]
    constructor
    · rintro (⟨u, v, rfl, hu, hv⟩ | rfl)
      · obtain ⟨ws, hlength, hws, rfl⟩ := ih.mp hv
        exact ⟨u :: ws, Nat.succ_le_succ hlength, List.forall_mem_cons.mpr ⟨hu, hws⟩, rfl⟩
      · exact ⟨[], Nat.zero_le _, by simp, rfl⟩
    · rintro ⟨ws, hlength, hws, rfl⟩
      cases ws with
      | nil => exact .inr rfl
      | cons u ws =>
        obtain ⟨hu, hws⟩ := List.forall_mem_cons.mp hws
        exact .inl ⟨u, ws.flatten, rfl, hu, ih.mpr ⟨ws, Nat.le_of_succ_le_succ hlength, hws, rfl⟩⟩

theorem lang_between_iff {r : Regex α} {m n : Nat} (hmn : m ≤ n) {w : List α} :
    Lang (r.between m n) w ↔
      ∃ ws : List (List α), (m ≤ ws.length ∧ ws.length ≤ n) ∧ (∀ u ∈ ws, Lang r u) ∧ w = ws.flatten := by
  rw [between, lang_seq_iff]
  constructor
  · rintro ⟨u, v, rfl, hu, hv⟩
    obtain ⟨us, rfl, hus, rfl⟩ := lang_times_iff.mp hu
    obtain ⟨vs, hlength, hvs, rfl⟩ := lang_upTo_iff.mp hv
    refine ⟨us ++ vs, ?_, List.forall_mem_append.mpr ⟨hus, hvs⟩, List.flatten_append.symm⟩
    rw [List.length_append]
    exact ⟨Nat.le_add_right _ _, Nat.add_le_of_le_sub' hmn hlength⟩
  · rintro ⟨ws, ⟨hm, hn⟩, hws, rfl⟩
    refine ⟨(ws.take m).flatten, (ws.drop m).flatten, ?_, lang_times_iff.mpr ⟨ws.take m, ?_, ?_, rfl⟩,
      lang_upTo_iff.mpr ⟨ws.drop m, ?_, ?_, rfl⟩⟩
    · rw [← List.flatten_append, List.take_append_drop]
    · rw [List.length_take, Nat.min_eq_left hm]
    · exact fun u hu => hws u (List.mem_of_mem_take hu)
    · rw [List.length_drop]
      exact Nat.sub_le_sub_right hn m
    · exact fun u hu => hws u (List.mem_of_mem_drop hu)

/-- The words of a repetition, when those of the expression are the images of something. -/
theorem exists_words_iff {β : Type} {r : Regex α} {f : β → List α} {Q : β → Prop} {P : Nat → Prop} {w : List α}
    (hr : ∀ u, Lang r u ↔ ∃ b, Q b ∧ u = f b) :
    (∃ ws : List (List α), P ws.length ∧ (∀ u ∈ ws, Lang r u) ∧ w = ws.flatten) ↔
      ∃ bs : List β, P bs.length ∧ (∀ b ∈ bs, Q b) ∧ w = bs.flatMap f := by
  constructor
  · rintro ⟨ws, hP, hws, rfl⟩
    have himages : ∃ bs : List β, ws = bs.map f ∧ ∀ b ∈ bs, Q b := by
      clear hP
      induction ws with
      | nil => exact ⟨[], rfl, by simp⟩
      | cons u ws ih =>
        obtain ⟨hu, hrest⟩ := List.forall_mem_cons.mp hws
        obtain ⟨b, hb, rfl⟩ := (hr u).mp hu
        obtain ⟨bs, rfl, hbs⟩ := ih hrest
        exact ⟨b :: bs, rfl, List.forall_mem_cons.mpr ⟨hb, hbs⟩⟩
    obtain ⟨bs, rfl, hbs⟩ := himages
    rw [List.length_map] at hP
    exact ⟨bs, hP, hbs, List.flatMap_def.symm⟩
  · rintro ⟨bs, hP, hbs, rfl⟩
    refine ⟨bs.map f, ?_, ?_, List.flatMap_def⟩
    · rwa [List.length_map]
    · intro u hu
      obtain ⟨b, hb, rfl⟩ := List.mem_map.mp hu
      exact (hr _).mpr ⟨b, hbs b hb, rfl⟩

theorem lang_between_cls_iff {p : α → Bool} {m n : Nat} (hmn : m ≤ n) {w : List α} :
    Lang ((cls p).between m n) w ↔ (m ≤ w.length ∧ w.length ≤ n) ∧ ∀ c ∈ w, p c = true := by
  rw [lang_between_iff hmn, exists_words_iff (f := fun c => [c]) (Q := fun c => p c = true)
    (P := fun k => m ≤ k ∧ k ≤ n) fun u => lang_cls_iff.trans (exists_congr fun c => and_comm)]
  simp only [List.flatMap_singleton']
  constructor
  · rintro ⟨cs, hlength, hcs, rfl⟩
    exact ⟨hlength, hcs⟩
  · exact fun ⟨hlength, hw⟩ => ⟨w, hlength, hw, rfl⟩

theorem lang_star_cls_iff {p : α → Bool} {w : List α} :
    Lang (.star (.cls p)) w ↔ ∀ c ∈ w, p c = true := by
  constructor
  · exact fun h => h.forall_mem fun _ hc => hc
  · intro h
    induction w with
    | nil => exact .starNil
    | cons c w ih =>
      obtain ⟨hc, hw⟩ := List.forall_mem_cons.mp h
      exact .starCons (.cls hc) (ih hw)

theorem lang_plus_cls_iff {p : α → Bool} {w : List α} :
    Lang (cls p).plus w ↔ w ≠ [] ∧ ∀ c ∈ w, p c = true := by
  rw [plus, lang_seq_iff]
  constructor
  · rintro ⟨u, v, rfl, hu, hv⟩
    obtain ⟨c, rfl, hc⟩ := lang_cls_iff.mp hu
    exact ⟨by simp, List.forall_mem_cons.mpr ⟨hc, lang_star_cls_iff.mp hv⟩⟩
  · rintro ⟨hne, hw⟩
    obtain ⟨c, w, rfl⟩ := List.exists_cons_of_ne_nil hne
    obtain ⟨hc, hw⟩ := List.forall_mem_cons.mp hw
    exact ⟨[c], w, rfl, .cls hc, lang_star_cls_iff.mpr hw⟩

end Regex
