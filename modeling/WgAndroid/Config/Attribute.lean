import WgAndroid.Java.Text

/-!
# Attributes

`com.wireguard.config.Attribute`: one `KEY = VALUE` line, and values that are comma-separated lists.

Results:
1. `parse_eq_some_iff`: `parse` is a full match of `LINE_PATTERN` with its two groups.
2. `parse_line`: a printed attribute is parsed back.
3. `split_join`: the pieces of a joined list, under the condition that `split` needs.
4. `split_join_parse`: lists of plain elements survive both, alone and as the value of a line.
-/

namespace WgAndroid

open Delimited

structure Attribute where
  key : JString
  value : JString
  deriving DecidableEq

namespace Attribute

def join (values : List JString) : JString := (text ", ").intercalate values

/-- A full match of `LINE_PATTERN`, `(\w+)\s*=\s*([^\s#][^#]*)`. No part of the pattern can give
back a character to the part before it, so every repetition takes all it can. -/
def parse (line : JString) : Option Attribute :=
  let key := line.takeWhile isWord
  match (line.dropWhile isWord).dropWhile isSpace with
  | [] => none
  | c :: rest =>
    let value := rest.dropWhile isSpace
    if key.isEmpty || c != unit '=' || value.isEmpty || value.contains (unit '#') then none
    else some ⟨key, value⟩

/-- `LIST_SEPARATOR.split`, with `LIST_SEPARATOR` the pattern `\s*,\s*`. -/
def split (value : JString) : List JString := splitTrimmed isSpace (unit ',') value

/-! ## Lines -/

/-- What the second group of `LINE_PATTERN` accepts. -/
def IsValue (v : JString) : Prop :=
  v ≠ [] ∧ (∀ c ∈ v.head?, isSpace c = false) ∧ unit '#' ∉ v

/-- A value that is printed so that neither the line reader nor the cleaning of lines touches it. -/
structure CleanValue (v : JString) : Prop where
  nonempty : v ≠ []
  head : ∀ c ∈ v.head?, isSpace c = false
  last : ∀ c ∈ v.getLast?, isTrim c = false
  chars : ∀ c ∈ v, isBreak c = false ∧ c ≠ unit '#'

theorem CleanValue.isValue {v : JString} (h : CleanValue v) : IsValue v :=
  ⟨h.nonempty, h.head, fun hv => (h.chars _ hv).2 rfl⟩

theorem cleanValue_of_plain {v : JString} (h : Plain v) : CleanValue v where
  nonempty := h.1
  head c hc := isSpace_of_isTrim_false (h.2 c (List.mem_of_mem_head? hc)).1
  last c hc := (h.2 c (List.mem_of_mem_getLast? hc)).1
  chars c hc := ⟨isBreak_of_isTrim_false (h.2 c hc).1, (h.2 c hc).2.2⟩

/-- What the first group accepts. -/
def IsKey (k : JString) : Prop := k ≠ [] ∧ ∀ c ∈ k, isWord c = true

instance (k : JString) : Decidable (IsKey k) :=
  inferInstanceAs (Decidable (k ≠ [] ∧ ∀ c ∈ k, isWord c = true))

namespace AttributeLemmas

theorem takeWhile_append_stop {p : UInt16 → Bool} {u v : JString} (hu : ∀ c ∈ u, p c = true)
    (hv : ∀ c ∈ v.head?, p c = false) : (u ++ v).takeWhile p = u := by
  rw [List.takeWhile_append_of_pos hu]
  cases v with
  | nil => simp
  | cons c v => simp [hv c rfl]

theorem dropWhile_append_stop {p : UInt16 → Bool} {u v : JString} (hu : ∀ c ∈ u, p c = true)
    (hv : ∀ c ∈ v.head?, p c = false) : (u ++ v).dropWhile p = v := by
  rw [List.dropWhile_append_of_pos hu]
  exact dropWhile_of_head hv

theorem isWord_of_isSpace {c : UInt16} (h : isSpace c = true) : isWord c = false := by
  have hall : ∀ c ∈ ([32, 9, 10, 11, 12, 13] : List UInt16), isWord c = false := by decide
  exact hall c (mem_of_isSpace h)

end AttributeLemmas

open AttributeLemmas

/-- `parse` is a full match of `LINE_PATTERN` with its two groups. -/
theorem parse_eq_some_iff {line k v : JString} :
    parse line = some ⟨k, v⟩ ↔ IsKey k ∧ IsValue v ∧ ∃ ws ws' : JString,
      (∀ c ∈ ws, isSpace c = true) ∧ (∀ c ∈ ws', isSpace c = true) ∧
      line = k ++ (ws ++ unit '=' :: (ws' ++ v)) := by
  constructor
  · intro h
    unfold parse at h
    split at h
    · cases h
    · next c rest hrest =>
      dsimp only at h
      split at h
      · cases h
      · next hcond =>
        simp only [Bool.or_eq_true, not_or, List.isEmpty_iff, bne_iff_ne, ne_eq, not_not,
          List.contains_iff_mem] at hcond
        obtain ⟨⟨⟨hk, rfl⟩, hv⟩, hhash⟩ := hcond
        simp only [Option.some.injEq, Attribute.mk.injEq] at h
        obtain ⟨rfl, rfl⟩ := h
        refine ⟨⟨hk, fun c hc => List.mem_takeWhile_imp hc⟩, ⟨hv, head_dropWhile, hhash⟩,
          (line.dropWhile isWord).takeWhile isSpace, rest.takeWhile isSpace,
          fun c hc => List.mem_takeWhile_imp hc, fun c hc => List.mem_takeWhile_imp hc, ?_⟩
        rw [List.takeWhile_append_dropWhile, ← hrest, List.takeWhile_append_dropWhile,
          List.takeWhile_append_dropWhile]
  · rintro ⟨hk, hv, ws, ws', hws, hws', rfl⟩
    have hstop : ∀ c ∈ (ws ++ unit '=' :: (ws' ++ v)).head?, isWord c = false := by
      intro c hc
      cases ws with
      | nil => cases hc; decide
      | cons d ws => cases hc; exact isWord_of_isSpace (hws _ List.mem_cons_self)
    unfold parse
    rw [takeWhile_append_stop hk.2 hstop, dropWhile_append_stop hk.2 hstop,
      dropWhile_append_stop hws (by rintro c hc; cases hc; decide)]
    simp only [dropWhile_append_stop hws' hv.2.1]
    rw [if_neg]
    simp only [Bool.or_eq_true, List.isEmpty_iff, bne_iff_ne, ne_eq, not_true_eq_false, or_false,
      List.contains_iff_mem, not_or]
    exact ⟨⟨hk.1, hv.1⟩, hv.2.2⟩

/-- One `Key = Value` line as the printers write it. -/
def line (key : String) (value : JString) : JString := text key ++ (text " = " ++ value)

/-- A printed line that neither the line reader nor the cleaning of lines touches. -/
def CleanLine (l : JString) : Prop := ∃ key v, IsKey (text key) ∧ CleanValue v ∧ l = line key v

/-- The line of an attribute that may be absent. -/
def optLine (key : String) (value : Option JString) : List JString := value.toList.map (line key)

/-- The line of a list, left out when the list is empty. -/
def listLine (key : String) (values : List JString) : List JString :=
  if values.isEmpty then [] else [line key (join values)]

/-- A printed attribute is parsed back. -/
theorem parse_line {key : String} {v : JString} (hk : IsKey (text key)) (hv : IsValue v) :
    parse (line key v) = some ⟨text key, v⟩ :=
  parse_eq_some_iff.mpr ⟨hk, hv, [unit ' '], [unit ' '], by decide, by decide, rfl⟩

theorem isValue_of_parse {line : JString} {a : Attribute} (h : parse line = some a) :
    IsValue a.value ∧ ∀ c ∈ a.value, c ∈ line := by
  obtain ⟨_, hv, ws, ws', _, _, rfl⟩ := parse_eq_some_iff.mp h
  refine ⟨hv, fun c hc => ?_⟩
  simp [hc]

/-- The value ends as the line does. -/
theorem getLast_value {line : JString} {a : Attribute} (h : parse line = some a) :
    a.value.getLast? = line.getLast? := by
  obtain ⟨_, hv, ws, ws', _, _, rfl⟩ := parse_eq_some_iff.mp h
  obtain ⟨c, hc⟩ := Option.isSome_iff_exists.mp (List.getLast?_isSome.mpr hv.1)
  simp [List.getLast?_append, List.getLast?_cons, hc]

/-! ## Lists -/

/-- What a list has to look like to survive `join` and `split`. -/
structure Splittable (xs : List JString) : Prop where
  stripped : ∀ x ∈ xs, Stripped isSpace x
  comma : ∀ x ∈ xs, unit ',' ∉ x
  last : ∀ x ∈ xs.getLast?, x ≠ []

theorem split_join {xs : List JString} (h : Splittable xs) (hne : xs ≠ []) :
    split (join xs) = xs :=
  splitTrimmed_intercalate (b := unit ' ') (by decide) (by decide) hne h.stripped h.comma
    (h.last _ (List.getLast?_eq_getLast_of_ne_nil hne))

/-- An element without blanks at its ends is found again, whatever the others are. -/
theorem mem_split_join {xs : List JString} {x : JString} (h : ∀ y ∈ xs, unit ',' ∉ y) (hne : x ≠ [])
    (hstripped : Stripped isSpace x) (hx : x ∈ xs) : x ∈ split (join xs) :=
  mem_splitTrimmed_of_stripped (b := unit ' ') (by decide) (by decide) h hne hstripped hx

/-- What is found again of some elements: the blanks next to a comma are gone. -/
theorem mem_split_join_iff {x y w : JString} {xs : List JString} (h : ∀ z ∈ x :: (xs ++ [y]), unit ',' ∉ z)
    (hw : w ≠ []) :
    w ∈ split (join (x :: (xs ++ [y]))) ↔
      w = x.rdropWhile isSpace ∨ (∃ z ∈ xs, w = strip isSpace z) ∨ w = y.dropWhile isSpace :=
  mem_splitTrimmed_join (b := unit ' ') (by decide) (by decide) h hw

theorem mem_join {xs : List JString} {c : UInt16} (h : c ∈ join xs) :
    c = unit ',' ∨ c = unit ' ' ∨ ∃ x ∈ xs, c ∈ x := by
  rcases mem_intercalate h with h | h
  · have : c ∈ [unit ',', unit ' '] := h
    simp only [List.mem_cons, List.not_mem_nil, or_false] at this
    exact this.imp_right .inl
  · exact .inr (.inr h)

theorem getLast_join {xs : List JString} {y : JString} (hy : y ≠ []) (h : xs.getLast? = some y) :
    (join xs).getLast? = y.getLast? := getLast_intercalate hy h

theorem head_join {xs : List JString} (h : ∀ x ∈ xs, ∀ c ∈ x.head?, isSpace c = false) :
    ∀ c ∈ (join xs).head?, isSpace c = false := by
  intro c hc
  cases xs with
  | nil => cases hc
  | cons x xs =>
    rcases head_intercalate hc with hc | ⟨_, _, hc⟩
    · exact h x List.mem_cons_self c hc
    · have : c = unit ',' := by simpa [text] using hc.symm
      rw [this]
      decide

/-- A joined list is a clean value if its pieces have clean characters, its pieces start with no
blank and the last one ends with none. -/
theorem cleanValue_join {xs : List JString} (hne : xs ≠ [])
    (hhead : ∀ x ∈ xs, ∀ c ∈ x.head?, isSpace c = false)
    (hchars : ∀ x ∈ xs, ∀ c ∈ x, isBreak c = false ∧ c ≠ unit '#')
    (hlast : ∀ x ∈ xs.getLast?, ∃ c ∈ x.getLast?, isTrim c = false) : CleanValue (join xs) := by
  obtain ⟨y, hy⟩ := Option.isSome_iff_exists.mp (List.getLast?_isSome.mpr hne)
  obtain ⟨d, hd, htrim⟩ := hlast y hy
  have hjoin : (join xs).getLast? = some d := by
    rw [getLast_join _ hy]
    · exact hd
    · rintro rfl
      cases hd
  refine ⟨?_, head_join hhead, ?_, ?_⟩
  · intro h
    rw [h] at hjoin
    cases hjoin
  · intro c hc
    rw [hjoin] at hc
    cases hc
    exact htrim
  · intro c hc
    rcases mem_join hc with rfl | rfl | ⟨x, hx, hc⟩
    · decide
    · decide
    · exact hchars x hx c hc

theorem mem_optLine {key : String} {value : Option JString} {l : JString} :
    l ∈ optLine key value ↔ ∃ v ∈ value, l = line key v := by
  simp [optLine, eq_comm]

theorem mem_listLine {key : String} {values : List JString} {l : JString} :
    l ∈ listLine key values ↔ values ≠ [] ∧ l = line key (join values) := by
  unfold listLine
  split
  · next h => simp [List.isEmpty_iff.mp h]
  · next h => simpa using fun _ he => h (List.isEmpty_iff.mpr he)

theorem cleanLine_of_mem_optLine {key : String} {value : Option JString}
    (hkey : IsKey (text key)) (hv : ∀ v ∈ value, CleanValue v) {l : JString}
    (h : l ∈ optLine key value) : CleanLine l := by
  obtain ⟨v, hmem, rfl⟩ := mem_optLine.mp h
  exact ⟨key, v, hkey, hv v hmem, rfl⟩

theorem cleanLine_of_mem_listLine {key : String} {values : List JString}
    (hkey : IsKey (text key)) (hv : values ≠ [] → CleanValue (join values)) {l : JString}
    (h : l ∈ listLine key values) : CleanLine l := by
  obtain ⟨hne, rfl⟩ := mem_listLine.mp h
  exact ⟨key, _, hkey, hv hne, rfl⟩

theorem isTrim_of_isWord {c : UInt16} (h : isWord c = true) : isTrim c = false := by
  simp only [isWord, Bool.or_eq_true, beq_iff_eq] at h
  rcases h with h | rfl
  · exact isTrim_of_isAlnum h
  · decide

theorem ne_of_isWord {c d : UInt16} (h : isWord c = true) (hd : isWord d = false) : c ≠ d := by
  rintro rfl
  rw [h] at hd
  cases hd

/-- A clean line begins with a word character and ends as its value does. -/
theorem CleanLine.ends {l : JString} (h : CleanLine l) :
    (∃ c ∈ l.head?, isWord c = true) ∧ ∃ c ∈ l.getLast?, isTrim c = false := by
  obtain ⟨key, v, hkey, hv, rfl⟩ := h
  obtain ⟨k, ks, hk⟩ := List.exists_cons_of_ne_nil hkey.1
  obtain ⟨d, hd⟩ := Option.isSome_iff_exists.mp (List.getLast?_isSome.mpr hv.nonempty)
  refine ⟨⟨k, ?_, hkey.2 k (hk ▸ List.mem_cons_self)⟩, ⟨d, ?_, hv.last d hd⟩⟩
  · simp [line, hk]
  · simp [line, List.getLast?_append, hd]

theorem CleanLine.chars {l : JString} (h : CleanLine l) :
    ∀ c ∈ l, isBreak c = false ∧ c ≠ unit '#' := by
  obtain ⟨key, v, hkey, hv, rfl⟩ := h
  have hsep : ∀ c ∈ text " = ", isBreak c = false ∧ c ≠ unit '#' := by decide
  intro c hc
  simp only [line, List.mem_append] at hc
  rcases hc with hc | hc | hc
  · exact ⟨isBreak_of_isTrim_false (isTrim_of_isWord (hkey.2 c hc)),
      ne_of_isWord (hkey.2 c hc) (by decide)⟩
  · exact hsep c hc
  · exact hv.chars c hc

section PlainPieces

variable {xs : List JString} (h : ∀ x ∈ xs, Plain x)
include h

theorem splittable_of_plain : Splittable xs where
  stripped x hx := ⟨(cleanValue_of_plain (h x hx)).head,
    fun c hc => isSpace_of_isTrim_false ((cleanValue_of_plain (h x hx)).last c hc)⟩
  comma x hx hc := ((h x hx).2 _ hc).2.1 rfl
  last x hx := (h x (List.mem_of_mem_getLast? hx)).1

theorem cleanValue_join_of_plain (hne : xs ≠ []) : CleanValue (join xs) := by
  refine cleanValue_join hne (fun x hx => (cleanValue_of_plain (h x hx)).head)
    (fun x hx => (cleanValue_of_plain (h x hx)).chars) fun x hx => ?_
  have hx' := cleanValue_of_plain (h x (List.mem_of_mem_getLast? hx))
  obtain ⟨c, hc⟩ := Option.isSome_iff_exists.mp (List.getLast?_isSome.mpr hx'.nonempty)
  exact ⟨c, hc, hx'.last c hc⟩

end PlainPieces

section Pieces

variable {xs : List JString}
  (h : ∀ x ∈ xs, x ≠ [] ∧ unit ',' ∉ x ∧ Stripped isSpace x)
include h

theorem splittable_of_pieces : Splittable xs where
  stripped x hx := (h x hx).2.2
  comma x hx := (h x hx).2.1
  last x hx := (h x (List.mem_of_mem_getLast? hx)).1

theorem isValue_join_of_pieces (hne : xs ≠ []) (hhash : ∀ x ∈ xs, unit '#' ∉ x) : IsValue (join xs) := by
  refine ⟨?_, head_join fun x hx => (h x hx).2.2.1, fun hmem => ?_⟩
  · obtain ⟨y, hy⟩ := Option.isSome_iff_exists.mp (List.getLast?_isSome.mpr hne)
    have hy_ne : y ≠ [] := (h y (List.mem_of_mem_getLast? hy)).1
    have hlast := getLast_join hy_ne hy
    intro hnil
    rw [hnil, eq_comm, List.getLast?_nil, List.getLast?_eq_none_iff] at hlast
    exact hy_ne hlast
  · rcases mem_join hmem with hc | hc | ⟨x, hx, hc⟩
    · exact absurd hc (by decide)
    · exact absurd hc (by decide)
    · exact hhash x hx hc

end Pieces

/-- A joined list splits back into its elements, and a line that has it for its value is parsed back. The
elements are not empty, have no comma and no blank at their ends; for the line they have no `#`. -/
theorem split_join_parse (xs : List JString) (hne : xs ≠ [])
    (h : ∀ x ∈ xs, x ≠ [] ∧ unit ',' ∉ x ∧ Stripped isSpace x) :
    split (join xs) = xs ∧
      ∀ key, IsKey key → (∀ x ∈ xs, unit '#' ∉ x) →
        parse (key ++ (text " = " ++ join xs)) = some ⟨key, join xs⟩ :=
  ⟨split_join (splittable_of_pieces h) hne, fun _ hkey hhash =>
    parse_eq_some_iff.mpr ⟨hkey, isValue_join_of_pieces h hne hhash, [unit ' '], [unit ' '],
      by decide, by decide, rfl⟩⟩

theorem split_join_parse_two :
    split (join [text "a b", text "c"]) = [text "a b", text "c"] ∧
      parse (text "Key = a b, c") = some ⟨text "Key", text "a b, c"⟩ := by
  obtain ⟨hsplit, hparse⟩ := split_join_parse [text "a b", text "c"] (by decide) (by decide)
  exact ⟨hsplit, hparse (text "Key") (by decide) (by decide)⟩

end Attribute

end WgAndroid
