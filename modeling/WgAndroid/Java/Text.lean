import Mathlib
import WgAndroid.Lib.Delimited

/-!
# Java text

Java strings as sequences of UTF-16 code units, with the library functions that the configuration
code calls on them: `trim`, `equalsIgnoreCase`, `Integer.parseInt`, `String.valueOf` and
`BufferedReader.readLine`.

Results:
1. `parseInt_decimal`: parsing a printed number gives the number back.
2. `readLines_unlines`: reading lines that were written with a newline after each gives them back.
3. `readLines_no_break`: no line that was read holds a line terminator.
-/

namespace WgAndroid

open Delimited

/-- A Java string: its UTF-16 code units. -/
abbrev JString := List UInt16

def unit (c : Char) : UInt16 := UInt16.ofNat c.toNat

/-- A string constant of the source. -/
def text (s : String) : JString := s.toList.map unit

/-- A statement about the characters of a text is checked on the text, not on all code units. -/
instance (priority := high) decidableForallMem {p : UInt16 → Prop} [DecidablePred p] (s : JString) :
    Decidable (∀ c ∈ s, p c) := List.decidableBAll p s

/-! ## Character classes -/

def inRange (lo hi : Char) (c : UInt16) : Bool := decide (unit lo ≤ c) && decide (c ≤ unit hi)

/-- `[0-9A-Za-z]` -/
def isAlnum (c : UInt16) : Bool := inRange '0' '9' c || inRange 'A' 'Z' c || inRange 'a' 'z' c

/-- `\w` -/
def isWord (c : UInt16) : Bool := isAlnum c || c == unit '_'

/-- `\s`: space, `\t`, `\n`, `\x0B`, `\f`, `\r`. -/
def isSpace (c : UInt16) : Bool := c == unit ' ' || (decide (0x09 ≤ c) && decide (c ≤ 0x0D))

/-- What `String.trim` removes at the ends: every code unit up to the space. -/
def isTrim (c : UInt16) : Bool := decide (c ≤ unit ' ')

def trim (s : JString) : JString := strip isTrim s

/-! ## Case -/

/-- `Character.toUpperCase`, as far as its values are ASCII letters. Comparisons here have an ASCII
constant on one side, which sees no other mapping. -/
def toUpper (c : UInt16) : UInt16 :=
  if inRange 'a' 'z' c then c - 32
  else if c = 0x0131 then unit 'I'
  else if c = 0x017F then unit 'S'
  else c

/-- `Character.toLowerCase`, as far as its values are ASCII letters. -/
def toLower (c : UInt16) : UInt16 :=
  if inRange 'A' 'Z' c then c + 32
  else if c = 0x0130 then unit 'i'
  else if c = 0x212A then unit 'k'
  else c

def toLowerCase (s : JString) : JString := s.map toLower

/-- `String.equalsIgnoreCase`: upper case first, then lower case of the upper case. -/
def equalsIgnoreCase (s t : JString) : Bool :=
  s.length == t.length && (s.zip t).all fun (c, d) =>
    c == d || toUpper c == toUpper d || toLower (toUpper c) == toLower (toUpper d)

/-! ## Numbers -/

/-- The digit zero of every decimal digit block of the basic multilingual plane. -/
def digitZeros : List UInt16 :=
  [0x0030, 0x0660, 0x06F0, 0x07C0, 0x0966, 0x09E6, 0x0A66, 0x0AE6, 0x0B66, 0x0BE6, 0x0C66, 0x0CE6,
   0x0D66, 0x0DE6, 0x0E50, 0x0ED0, 0x0F20, 0x1040, 0x1090, 0x17E0, 0x1810, 0x1946, 0x19D0, 0x1A80,
   0x1A90, 0x1B50, 0x1BB0, 0x1C40, 0x1C50, 0xA620, 0xA8D0, 0xA900, 0xA9D0, 0xA9F0, 0xAA50, 0xABF0,
   0xFF10]

/-- `Character.digit(c, 10)`. -/
def digit (c : UInt16) : Option Nat :=
  (digitZeros.find? fun z => decide (z ≤ c) && decide (c < z + 10)).map fun z => (c - z).toNat

/-- The digits of a number, at least one. -/
def magnitude : JString → Option Nat
  | [] => none
  | s => s.foldlM (fun n c => (digit c).map fun d => n * 10 + d) 0

/-- `Integer.parseInt(s, 10)`; `none` is its `NumberFormatException`. The running overflow test of
the library rejects exactly the values outside of 32 bits. -/
def parseInt (s : JString) : Option Int :=
  match s with
  | [] => none
  | c :: rest =>
    if c = unit '-' then
      (magnitude rest).bind fun n => if n ≤ 2 ^ 31 then some (-(n : Int)) else none
    else
      (magnitude (if c = unit '+' then rest else s)).bind fun n =>
        if n < 2 ^ 31 then some (n : Int) else none

/-- `Long.parseLong(s)`. -/
def parseLong (s : JString) : Option Int :=
  match s with
  | [] => none
  | c :: rest =>
    if c = unit '-' then
      (magnitude rest).bind fun n => if n ≤ 2 ^ 63 then some (-(n : Int)) else none
    else
      (magnitude (if c = unit '+' then rest else s)).bind fun n =>
        if n < 2 ^ 63 then some (n : Int) else none

/-- A natural number as `Integer.toString` prints it. -/
def decimal (n : Nat) : JString := (Nat.toDigits 10 n).map unit

/-- `String.valueOf(int)`. -/
def valueOf (i : Int) : JString :=
  if i < 0 then unit '-' :: decimal i.natAbs else decimal i.toNat

/-- A number that counts as not set when it is zero. -/
def positive (i : Int) : Option Nat := if i = 0 then none else some i.toNat

theorem positive_bounds {i : Int} {n : Nat} (h : ¬i < 0) (hn : n ∈ positive i) :
    0 < n ∧ (n : Int) = i := by
  unfold positive at hn
  split at hn
  · cases hn
  · cases hn
    omega

theorem port_range {i : Int} (h : ¬(i < 0 ∨ i > 65535)) : ∀ n ∈ positive i, 0 < n ∧ n ≤ 65535 := by
  intro n hn
  obtain ⟨hpos, rfl⟩ := positive_bounds (fun hi => h (.inl hi)) hn
  omega

theorem int_range {i : Int} (h : ¬i < 0) (hi : i ≤ 2147483647) :
    ∀ n ∈ positive i, 0 < n ∧ n ≤ 2147483647 := by
  intro n hn
  obtain ⟨hpos, rfl⟩ := positive_bounds h hn
  omega

theorem port_range_none : ∀ n ∈ (none : Option Nat), 0 < n ∧ n ≤ 65535 := by
  simp

theorem int_range_none : ∀ n ∈ (none : Option Nat), 0 < n ∧ n ≤ 2147483647 := by
  simp

theorem positive_natCast {n : Nat} (h : 0 < n) : positive n = some n := by
  simp [positive, Nat.pos_iff_ne_zero.mp h]

/-! ## Lines -/

def LF : UInt16 := 0x0A
def CR : UInt16 := 0x0D

def isBreak (c : UInt16) : Bool := c == LF || c == CR

/-- `BufferedReader.readLine` until it returns `null`: `line` is the line read so far, `skipLF`
says that the last terminator was a carriage return. -/
def readLinesFrom (line : JString) (skipLF : Bool) : JString → List JString
  | [] => if line.isEmpty then [] else [line]
  | c :: rest =>
    if c = LF then
      if skipLF then readLinesFrom line false rest else line :: readLinesFrom [] false rest
    else if c = CR then line :: readLinesFrom [] true rest
    else readLinesFrom (line ++ [c]) false rest

def readLines (s : JString) : List JString := readLinesFrom [] false s

/-- Lines written out, a newline after each. -/
def unlines (ls : List JString) : JString := ls.flatMap fun l => l ++ [LF]

/-! ## Facts about constants and classes -/

theorem mem_of_isSpace {c : UInt16} (h : isSpace c = true) : c ∈ ([32, 9, 10, 11, 12, 13] : List UInt16) := by
  simp only [isSpace, Bool.or_eq_true, beq_iff_eq, Bool.and_eq_true, decide_eq_true_eq] at h
  rcases h with rfl | ⟨hfirst, hlast⟩
  · exact List.mem_cons_self
  · have hfirst : 9 ≤ c.toNat := UInt16.le_iff_toNat_le.mp hfirst
    have hlast : c.toNat ≤ 13 := UInt16.le_iff_toNat_le.mp hlast
    rw [← UInt16.ofNat_toNat (x := c)]
    interval_cases c.toNat <;> decide

theorem digit_of_isSpace {c : UInt16} (h : isSpace c = true) :
    digit c = none ∧ c ≠ unit '-' ∧ c ≠ unit '+' := by
  have hall : ∀ c ∈ ([32, 9, 10, 11, 12, 13] : List UInt16), digit c = none ∧ c ≠ unit '-' ∧ c ≠ unit '+' := by
    decide
  exact hall c (mem_of_isSpace h)

theorem isTrim_of_isSpace {c : UInt16} (h : isSpace c = true) : isTrim c = true := by
  simp only [isSpace, isTrim, Bool.or_eq_true, beq_iff_eq, Bool.and_eq_true,
    decide_eq_true_eq] at h ⊢
  rcases h with rfl | ⟨_, h⟩
  · decide
  · exact UInt16.le_trans h (by decide)

theorem isSpace_of_isTrim_false {c : UInt16} (h : isTrim c = false) : isSpace c = false := by
  cases hs : isSpace c with
  | false => rfl
  | true => rw [isTrim_of_isSpace hs] at h; exact h

theorem isTrim_of_isBreak {c : UInt16} (h : isBreak c = true) : isTrim c = true := by
  simp only [isBreak, Bool.or_eq_true, beq_iff_eq] at h
  rcases h with rfl | rfl <;> decide

theorem isBreak_of_isTrim_false {c : UInt16} (h : isTrim c = false) : isBreak c = false := by
  cases hb : isBreak c with
  | false => rfl
  | true => rw [isTrim_of_isBreak hb] at h; exact h

/-- The ten decimal digits. -/
def isDigit (c : UInt16) : Bool := inRange '0' '9' c

theorem exists_lt_ten {c : Char} (h : c.isDigit = true) : ∃ d, d < 10 ∧ c = Char.ofNat (48 + d) := by
  simp only [Char.isDigit, Bool.and_eq_true, decide_eq_true_eq] at h
  have h₁ : 48 ≤ c.toNat := UInt32.le_iff_toNat_le.mp h.1
  have h₂ : c.toNat ≤ 57 := UInt32.le_iff_toNat_le.mp h.2
  refine ⟨c.toNat - 48, by omega, ?_⟩
  rw [Nat.add_sub_cancel' h₁, Char.ofNat_toNat]

theorem digit_unit {c : Char} (h : c.isDigit = true) : digit (unit c) = some (c.toNat - 48) := by
  obtain ⟨d, hd, rfl⟩ := exists_lt_ten h
  have : ∀ d : Fin 10, digit (unit (Char.ofNat (48 + d))) = some ((Char.ofNat (48 + d)).toNat - 48) := by
    decide
  exact this ⟨d, hd⟩

theorem isDigit_unit {c : Char} (h : c.isDigit = true) : isDigit (unit c) = true := by
  obtain ⟨d, hd, rfl⟩ := exists_lt_ten h
  have : ∀ d : Fin 10, isDigit (unit (Char.ofNat (48 + d))) = true := by decide
  exact this ⟨d, hd⟩

theorem decimal_ne_nil (n : Nat) : decimal n ≠ [] := by
  simp [decimal]

theorem isDigit_of_mem_decimal {n : Nat} {c : UInt16} (h : c ∈ decimal n) : isDigit c = true := by
  obtain ⟨d, hd, rfl⟩ := List.mem_map.mp h
  exact isDigit_unit (Nat.isDigit_of_mem_toDigits (by decide) (by decide) hd)

theorem isTrim_of_isAlnum {c : UInt16} (h : isAlnum c = true) : isTrim c = false := by
  simp only [isAlnum, inRange, Bool.or_eq_true, Bool.and_eq_true, decide_eq_true_eq,
    UInt16.le_iff_toNat_le] at h
  simp only [isTrim, decide_eq_false_iff_not, UInt16.le_iff_toNat_le]
  have h₀ : (unit '0').toNat = 48 := by decide
  have h₁ : (unit 'A').toNat = 65 := by decide
  have h₂ : (unit 'a').toNat = 97 := by decide
  have h₃ : (unit ' ').toNat = 32 := by decide
  omega

/-- A letter or digit differs from every character that is none. -/
theorem ne_of_isAlnum {c d : UInt16} (h : isAlnum c = true) (hd : isAlnum d = false) : c ≠ d := by
  rintro rfl
  rw [h] at hd
  cases hd

theorem isAlnum_of_isDigit {c : UInt16} (h : isDigit c = true) : isAlnum c = true := by
  rw [isDigit] at h
  rw [isAlnum, h]
  rfl

theorem isAlnum_of_mem_decimal {n : Nat} {c : UInt16} (h : c ∈ decimal n) : isAlnum c = true :=
  isAlnum_of_isDigit (isDigit_of_mem_decimal h)

theorem foldlM_digits {cs : List Char} (h : ∀ c ∈ cs, c.isDigit = true) (n : Nat) :
    (cs.map unit).foldlM (fun n c => (digit c).map fun d => n * 10 + d) n =
      some (Nat.ofDigitChars 10 cs n) := by
  induction cs generalizing n with
  | nil => rfl
  | cons c cs ih =>
    rw [List.map_cons, List.foldlM_cons, digit_unit (h c List.mem_cons_self), Nat.ofDigitChars_cons]
    simp only [Option.map_some, Option.bind_eq_bind, Option.bind_some]
    rw [ih fun d hd => h d (List.mem_cons_of_mem _ hd), Nat.mul_comm]
    rfl

theorem magnitude_decimal (n : Nat) : magnitude (decimal n) = some n := by
  have hd : ∀ c ∈ Nat.toDigits 10 n, c.isDigit = true := fun c hc =>
    Nat.isDigit_of_mem_toDigits (by decide) (by decide) hc
  unfold magnitude
  split
  · next h => exact absurd h (decimal_ne_nil n)
  · rw [decimal, foldlM_digits hd, Nat.ofDigitChars_ten_toDigits]

/-- Parsing a printed number gives the number back. -/
theorem parseInt_decimal {n : Nat} (h : n < 2 ^ 31) : parseInt (decimal n) = some (n : Int) := by
  cases hs : decimal n with
  | nil => exact absurd hs (decimal_ne_nil n)
  | cons c rest =>
    have hc : isAlnum c = true :=
      isAlnum_of_mem_decimal (n := n) (by rw [hs]; exact List.mem_cons_self)
    rw [parseInt, if_neg (ne_of_isAlnum hc (by decide)), if_neg (ne_of_isAlnum hc (by decide)),
      ← hs, magnitude_decimal, Option.bind_some, if_pos h]

theorem parseLong_decimal {n : Nat} (h : n < 2 ^ 63) : parseLong (decimal n) = some (n : Int) := by
  cases hs : decimal n with
  | nil => exact absurd hs (decimal_ne_nil n)
  | cons c rest =>
    have hc : isAlnum c = true :=
      isAlnum_of_mem_decimal (n := n) (by rw [hs]; exact List.mem_cons_self)
    rw [parseLong, if_neg (ne_of_isAlnum hc (by decide)), if_neg (ne_of_isAlnum hc (by decide)),
      ← hs, magnitude_decimal, Option.bind_some, if_pos h]

theorem decimal_injective : Function.Injective decimal := by
  intro m n h
  have hm := magnitude_decimal m
  rw [h, magnitude_decimal] at hm
  exact (Option.some.inj hm).symm

theorem minus_cons_ne_decimal (s : JString) (n : Nat) : unit '-' :: s ≠ decimal n := by
  intro h
  have hminus : isAlnum (unit '-') = true :=
    isAlnum_of_mem_decimal (n := n) (by rw [← h]; exact List.mem_cons_self)
  exact absurd hminus (by decide)

theorem valueOf_injective : Function.Injective valueOf := by
  intro i j h
  unfold valueOf at h
  split at h <;> split at h
  · have := decimal_injective (List.cons.inj h).2
    omega
  · exact absurd h (minus_cons_ne_decimal _ _)
  · exact absurd h.symm (minus_cons_ne_decimal _ _)
  · have := decimal_injective h
    omega

theorem parseInt_le {s : JString} {i : Int} (h : parseInt s = some i) : i ≤ 2147483647 := by
  unfold parseInt at h
  split at h
  · cases h
  · split at h
    · obtain ⟨n, _, h⟩ := Option.bind_eq_some_iff.mp h
      split at h
      · cases h; omega
      · cases h
    · obtain ⟨n, _, h⟩ := Option.bind_eq_some_iff.mp h
      split at h
      · cases h; omega
      · cases h

/-! ## Plain texts -/

/-- A text that no cutting or trimming of the configuration syntax touches: it is not empty and has
no blank, no comma and no `#`. -/
def Plain (s : JString) : Prop :=
  s ≠ [] ∧ ∀ c ∈ s, isTrim c = false ∧ c ≠ unit ',' ∧ c ≠ unit '#'

theorem plain_char_of_isAlnum {c : UInt16} (h : isAlnum c = true) :
    isTrim c = false ∧ c ≠ unit ',' ∧ c ≠ unit '#' :=
  ⟨isTrim_of_isAlnum h, ne_of_isAlnum h (by decide), ne_of_isAlnum h (by decide)⟩

theorem plain_decimal (n : Nat) : Plain (decimal n) :=
  ⟨decimal_ne_nil n, fun _ hc => plain_char_of_isAlnum (isAlnum_of_mem_decimal hc)⟩

/-! ## Reading lines -/

theorem readLinesFrom_append {l : JString} (h : ∀ c ∈ l, isBreak c = false) (line rest : JString) :
    readLinesFrom line false (l ++ rest) = readLinesFrom (line ++ l) false rest := by
  induction l generalizing line with
  | nil => simp
  | cons c l ih =>
    have hc := h c List.mem_cons_self
    simp only [isBreak, Bool.or_eq_false_iff, beq_eq_false_iff_ne] at hc
    rw [List.cons_append, readLinesFrom, if_neg hc.1, if_neg hc.2,
      ih fun d hd => h d (List.mem_cons_of_mem _ hd), List.append_assoc, List.singleton_append]

/-- Reading lines that were written with a newline after each gives them back. -/
theorem readLines_unlines {ls : List JString} (h : ∀ l ∈ ls, ∀ c ∈ l, isBreak c = false) :
    readLines (unlines ls) = ls := by
  induction ls with
  | nil => rfl
  | cons l ls ih =>
    have hl : readLines (unlines (l :: ls)) = l :: readLines (unlines ls) := by
      unfold readLines unlines
      rw [List.flatMap_cons, List.append_assoc, readLinesFrom_append (h l List.mem_cons_self)]
      simp [readLinesFrom]
    rw [hl, ih fun m hm => h m (List.mem_cons_of_mem _ hm)]

theorem readLinesFrom_no_break {s line l : JString} {skip : Bool}
    (hline : ∀ c ∈ line, isBreak c = false) (h : l ∈ readLinesFrom line skip s) :
    ∀ c ∈ l, isBreak c = false := by
  induction s generalizing line skip with
  | nil =>
    unfold readLinesFrom at h
    split at h
    · exact absurd h List.not_mem_nil
    · rw [List.mem_singleton] at h
      exact h ▸ hline
  | cons c s ih =>
    unfold readLinesFrom at h
    split at h
    · split at h
      · exact ih hline h
      · rcases List.mem_cons.mp h with rfl | h
        · exact hline
        · exact ih (by simp) h
    · next hLF =>
      split at h
      · rcases List.mem_cons.mp h with rfl | h
        · exact hline
        · exact ih (by simp) h
      · next hCR =>
        refine ih (fun d hd => ?_) h
        rcases List.mem_append.mp hd with hd | hd
        · exact hline d hd
        · rw [List.mem_singleton] at hd
          subst hd
          simp [isBreak, hLF, hCR]

theorem readLines_no_break {s l : JString} (h : l ∈ readLines s) : ∀ c ∈ l, isBreak c = false :=
  readLinesFrom_no_break (by simp) h

end WgAndroid
