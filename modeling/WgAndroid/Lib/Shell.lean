import Mathlib.Data.List.Basic

/-!
# Command lines of a POSIX shell

How a shell reads a line into the words of one simple command: quoting, blanks, and the characters
that make it something else than one command with literal words. Every character of a word remembers
if it was quoted, since only characters that were not are patterns for file names.

Results:
1. `read_single`, `read_ordinary`, `read_blank`: what quoted text, ordinary text and blanks add.
2. `read_special`: a line with an operator or an expansion in it is not one command with literal words.
3. `quotes_read_lt`: a double quote that is not quoted is removed.
-/

namespace Shell

/-- The code of an ASCII character. -/
def ch (c : Char) : UInt8 := UInt8.ofNat c.toNat

/-- The characters of a word, each with a flag that says if it was quoted. -/
abbrev Word := List (UInt8 × Bool)

def Word.text (w : Word) : List UInt8 := w.map Prod.fst

def quoted (s : List UInt8) : Word := s.map (·, true)

def bare (s : List UInt8) : Word := s.map (·, false)

def isBlank (c : UInt8) : Bool := c == ch ' ' || c == ch '\t'

/-- The characters of operators; a newline ends the command as well. -/
def isOperator (c : UInt8) : Bool :=
  [ch '|', ch '&', ch ';', ch '<', ch '>', ch '(', ch ')', ch '\n'].contains c

/-- The characters that start an expansion. -/
def isExpansion (c : UInt8) : Bool := c == ch '$' || c == UInt8.ofNat 0x60

/-- A character that stands for itself inside of a word. -/
def isOrdinary (c : UInt8) : Bool :=
  !(isBlank c || isOperator c || isExpansion c || c == ch '\'' || c == ch '"' || c == ch '\\')

inductive Mode where
  | plain
  | single
  | double
  /-- After a backslash. -/
  | escape
  /-- After a backslash in double quotes. -/
  | doubleEscape

/-- Continue a word, or start one. -/
def extend (word : Option Word) (w : Word) : Option Word := some (word.getD [] ++ w)

/-- The words of a line; `none` if it is not one simple command with literal words. -/
def read (mode : Mode) (word : Option Word) : List UInt8 → Option (List Word)
  | [] =>
    match mode with
    | .plain => some word.toList
    | _ => none
  | c :: line =>
    match mode with
    | .single =>
      if c = ch '\'' then read .plain word line else read .single (extend word [(c, true)]) line
    | .double =>
      if c = ch '"' then read .plain word line
      else if isExpansion c then none
      else if c = ch '\\' then read .doubleEscape word line
      else read .double (extend word [(c, true)]) line
    | .escape =>
      if c = ch '\n' then read .plain word line else read .plain (extend word [(c, true)]) line
    | .doubleEscape =>
      if c = ch '\n' then read .double word line
      else if isExpansion c || c == ch '"' || c == ch '\\' then
        read .double (extend word [(c, true)]) line
      else read .double (extend word [(ch '\\', true), (c, true)]) line
    | .plain =>
      if isBlank c then (read .plain none line).map (word.toList ++ ·)
      else if isOperator c then none
      else if isExpansion c then none
      else if c = ch '\'' then read .single (extend word []) line
      else if c = ch '"' then read .double (extend word []) line
      else if c = ch '\\' then read .escape (extend word []) line
      -- a comment, and the directory of a user
      else if word.isNone && c == ch '#' then if line.contains (ch '\n') then none else some []
      else if word.isNone && c == ch '~' then none
      else read .plain (extend word [(c, false)]) line

/-! ## Patterns for file names -/

/-- An end of a bracket expression. -/
def closes : Word → Bool
  | [] => false
  | (c, q) :: w => if c == ch ']' && !q then true else if c == ch '/' then false else closes w

/-- What follows makes an open bracket a bracket expression: it has at least one character in it. -/
def isBracket (w : Word) : Bool :=
  match if w.head? = some (ch '!', false) then w.tail else w with
  | [] => false
  | (c, _) :: w => c != ch '/' && closes w

/-- The word is a pattern for file names. -/
def isPattern : Word → Bool
  | [] => false
  | (c, q) :: w =>
    (!q && (c == ch '*' || c == ch '?' || (c == ch '[' && isBracket w))) || isPattern w

/-- Pathname expansion: a word that is no pattern is itself. What becomes of a pattern depends on the
files. -/
structure Expansion where
  expand : Word → List (List UInt8)
  literal : ∀ w, isPattern w = false → expand w = [w.text]

/-- The arguments of the command, its name first. -/
def arguments (E : Expansion) (line : List UInt8) : Option (List (List UInt8)) :=
  (read .plain none line).map (·.flatMap E.expand)

@[simp] theorem text_quoted (s : List UInt8) : (quoted s).text = s := by
  rw [Word.text, quoted, List.map_map]
  exact List.map_id s

@[simp] theorem text_bare (s : List UInt8) : (bare s).text = s := by
  rw [Word.text, bare, List.map_map]
  exact List.map_id s

@[simp] theorem isPattern_quoted (s : List UInt8) : isPattern (quoted s) = false := by
  induction s with
  | nil => rfl
  | cons c s ih => simpa [quoted, isPattern] using ih

/-- The characters that patterns are made of. -/
def isWild (c : UInt8) : Bool := c == ch '*' || c == ch '?' || c == ch '['

theorem isPattern_bare {s : List UInt8} (h : ∀ c ∈ s, isWild c = false) :
    isPattern (bare s) = false := by
  induction s with
  | nil => rfl
  | cons c s ih =>
    have hc := h c List.mem_cons_self
    simp only [isWild, Bool.or_eq_false_iff] at hc
    have hrest := ih fun d hd => h d (List.mem_cons_of_mem _ hd)
    simp only [bare, List.map_cons, isPattern] at hrest ⊢
    simp [hc.1.1, hc.1.2, hc.2, hrest]

theorem literal_text (w : Word) (_ : isPattern w = false) : [w.text] = [w.text] := rfl

/-- Without a matching file a pattern is itself, too. -/
def Expansion.noFiles : Expansion := ⟨fun w => [w.text], literal_text⟩

theorem literal_ite (names : List (List UInt8)) (w : Word) (h : isPattern w = false) :
    (if isPattern w then names else [w.text]) = [w.text] := by
  rw [h, if_neg Bool.false_ne_true]

/-- Every pattern has these matches. -/
def Expansion.matching (names : List (List UInt8)) : Expansion :=
  ⟨fun w => if isPattern w then names else [w.text], literal_ite names⟩

theorem Expansion.flatMap_literal (E : Expansion) {words : List Word}
    (h : ∀ w ∈ words, isPattern w = false) : words.flatMap E.expand = words.map Word.text := by
  rw [List.flatMap_congr fun w hw => E.literal w (h w hw), ← List.map_eq_flatMap]

/-! ## Reading -/

variable {word : Option Word} {w : Word} {line s : List UInt8}

/-- Text in single quotes is added as it is. -/
theorem read_single (h : ch '\'' ∉ s) :
    read .single (some w) (s ++ ch '\'' :: line) = read .plain (some (w ++ quoted s)) line := by
  induction s generalizing w with
  | nil => simp [read, quoted]
  | cons c s ih =>
    rw [List.mem_cons, not_or] at h
    rw [List.cons_append, read, if_neg (Ne.symm h.1)]
    simpa [extend, quoted] using ih (w := w ++ [(c, true)]) h.2

theorem read_quote : read .plain word (ch '\'' :: line) = read .single (some (word.getD [])) line := by
  simp [read, extend, show isBlank (ch '\'') = false by decide,
    show isOperator (ch '\'') = false by decide, show isExpansion (ch '\'') = false by decide]

/-- A text in single quotes. -/
theorem read_quoted (h : ch '\'' ∉ s) :
    read .plain word (ch '\'' :: (s ++ ch '\'' :: line)) =
      read .plain (some (word.getD [] ++ quoted s)) line := by
  rw [read_quote, read_single h]

theorem read_blank {c : UInt8} (hc : isBlank c = true) :
    read .plain word (c :: line) = (read .plain none line).map (word.toList ++ ·) := by
  rw [read, if_pos hc]

/-- Ordinary text in a word that was started is added as it is. -/
theorem read_ordinary (h : ∀ c ∈ s, isOrdinary c = true) :
    read .plain (some w) (s ++ line) = read .plain (some (w ++ bare s)) line := by
  induction s generalizing w with
  | nil => simp [bare]
  | cons c s ih =>
    have hc := h c List.mem_cons_self
    simp only [isOrdinary, Bool.not_eq_true', Bool.or_eq_false_iff, beq_eq_false_iff_ne] at hc
    obtain ⟨⟨⟨⟨⟨hblank, hoperator⟩, hexpansion⟩, hsingle⟩, hdouble⟩, hescape⟩ := hc
    rw [List.cons_append, read]
    simp only [hblank, hoperator, hexpansion, hsingle, hdouble, hescape, Option.isNone_some,
      Bool.false_and, Bool.false_eq_true, if_false]
    have hrest := ih (w := w ++ [(c, false)]) fun d hd => h d (List.mem_cons_of_mem _ hd)
    simpa [extend, bare] using hrest

/-- Ordinary text starts a word, unless it starts a comment or names a directory. -/
theorem read_word (h : ∀ c ∈ s, isOrdinary c = true) (hne : s ≠ [])
    (hhead : ∀ c ∈ s.head?, c ≠ ch '#' ∧ c ≠ ch '~') :
    read .plain none (s ++ line) = read .plain (some (bare s)) line := by
  cases s with
  | nil => exact absurd rfl hne
  | cons c s =>
    have hc := h c List.mem_cons_self
    obtain ⟨hhash, htilde⟩ := hhead c rfl
    simp only [isOrdinary, Bool.not_eq_true', Bool.or_eq_false_iff, beq_eq_false_iff_ne] at hc
    obtain ⟨⟨⟨⟨⟨hblank, hoperator⟩, hexpansion⟩, hsingle⟩, hdouble⟩, hescape⟩ := hc
    rw [List.cons_append, read]
    simp only [hblank, hoperator, hexpansion, hsingle, hdouble, hescape,
      beq_eq_false_iff_ne.mpr hhash, beq_eq_false_iff_ne.mpr htilde, Bool.and_false,
      Bool.false_eq_true, if_false]
    exact read_ordinary fun d hd => h d (List.mem_cons_of_mem _ hd)

theorem isBlank_of_special {c : UInt8} (hc : (isOperator c || isExpansion c) = true) :
    isBlank c = false := by
  cases hblank : isBlank c with
  | false => rfl
  | true =>
    rcases Bool.or_eq_true_iff.mp hblank with h | h
    · rw [eq_of_beq h] at hc
      exact absurd hc (by decide)
    · rw [eq_of_beq h] at hc
      exact absurd hc (by decide)

/-- An operator or an expansion makes the line something else than one command. -/
theorem read_special {c : UInt8} (hc : (isOperator c || isExpansion c) = true) :
    read .plain word (c :: line) = none := by
  rw [read, if_neg (by simp [isBlank_of_special hc])]
  rcases Bool.or_eq_true_iff.mp hc with h | h
  · rw [if_pos h]
  · rw [if_pos h, ite_self]

/-- The double quotes in a list of words. -/
def quotes (words : List Word) : Nat := (words.flatMap Word.text).count (ch '"')

theorem quotes_extend (word : Option Word) (w : Word) :
    quotes (extend word w).toList = quotes word.toList + w.text.count (ch '"') := by
  cases word with
  | none => simp [extend, quotes, Word.text]
  | some v => simp [extend, quotes, Word.text, List.count_append]

theorem quotes_append (ws vs : List Word) : quotes (ws ++ vs) = quotes ws + quotes vs := by
  simp [quotes, List.count_append]

theorem quotes_extend_char (word : Option Word) (c : UInt8) (q : Bool) (line : List UInt8) :
    quotes (extend word [(c, q)]).toList + line.count (ch '"') =
      quotes word.toList + (c :: line).count (ch '"') := by
  rw [quotes_extend, List.count_cons, Nat.add_right_comm, Nat.add_assoc]
  simp [Word.text, List.count_singleton]

theorem quotes_extend_nil (word : Option Word) : quotes (extend word []).toList = quotes word.toList := by
  rw [quotes_extend]
  rfl

/-- Reading makes no double quotes. -/
theorem quotes_read_le {mode : Mode} {words : List Word} (h : read mode word line = some words) :
    quotes words ≤ quotes word.toList + line.count (ch '"') := by
  induction line generalizing mode word words with
  | nil =>
    cases mode with
    | plain => exact Nat.le_of_eq (congrArg quotes (Option.some.inj h).symm)
    | _ => cases h
  | cons c line ih =>
    -- the character is either dropped, or added to the word
    have hdrop {mode : Mode} {words : List Word} (h : read mode word line = some words) :
        quotes words ≤ quotes word.toList + (c :: line).count (ch '"') :=
      Nat.le_trans (ih h) (Nat.add_le_add_left (List.count_le_count_cons ..) _)
    have hquote {mode : Mode} {words : List Word} (h : read mode (extend word []) line = some words) :
        quotes words ≤ quotes word.toList + (c :: line).count (ch '"') := by
      have hle := ih h
      rw [quotes_extend_nil] at hle
      exact Nat.le_trans hle (Nat.add_le_add_left (List.count_le_count_cons ..) _)
    have hadd {mode : Mode} {words : List Word} {q : Bool}
        (h : read mode (extend word [(c, q)]) line = some words) :
        quotes words ≤ quotes word.toList + (c :: line).count (ch '"') :=
      Nat.le_trans (ih h) (Nat.le_of_eq (quotes_extend_char ..))
    cases mode with
    | single =>
      rw [read] at h
      split at h
      · exact hdrop h
      · exact hadd h
    | double =>
      rw [read] at h
      split at h
      · exact hdrop h
      split at h
      · cases h
      split at h
      · exact hdrop h
      · exact hadd h
    | escape =>
      rw [read] at h
      split at h
      · exact hdrop h
      · exact hadd h
    | doubleEscape =>
      rw [read] at h
      split at h
      · exact hdrop h
      split at h
      · exact hadd h
      · have hle := ih h
        rw [quotes_extend] at hle
        refine Nat.le_trans hle (Nat.le_of_eq ?_)
        rw [List.count_cons, Nat.add_right_comm, Nat.add_assoc]
        simp [Word.text, List.count_cons, show ch '\\' ≠ ch '"' by decide]
    | plain =>
      rw [read] at h
      split at h
      · obtain ⟨rest, hrest, rfl⟩ := Option.map_eq_some_iff.mp h
        have hle := ih hrest
        rw [quotes_append]
        refine Nat.add_le_add_left (Nat.le_trans hle ?_) _
        rw [Option.toList_none, show quotes [] = 0 from rfl, Nat.zero_add]
        exact List.count_le_count_cons ..
      iterate 2
        split at h
        · cases h
      iterate 3
        split at h
        · exact hquote h
      split at h
      · split at h
        · cases h
        · cases h
          exact Nat.zero_le _
      split at h
      · cases h
      · exact hadd h

/-- A double quote that is not quoted is removed. -/
theorem quotes_read_lt {words : List Word} (h : read .plain word (ch '"' :: line) = some words) :
    quotes words < quotes word.toList + (ch '"' :: line).count (ch '"') := by
  have hdouble : read .plain word (ch '"' :: line) = read .double (extend word []) line := rfl
  have hle := quotes_read_le (hdouble ▸ h)
  rw [quotes_extend_nil] at hle
  rw [List.count_cons_self]
  exact Nat.lt_succ_of_le hle

end Shell
