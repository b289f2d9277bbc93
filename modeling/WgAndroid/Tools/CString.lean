import WgAndroid.Java.Utf8

/-!
# C strings

The functions of the C library and of `ctype.h` that the two native parsers call, on strings of
bytes without the final NUL.

Results:
1. `charIsSpace_eq`, `charIsDigit_eq`: the branch-free classes of `ctype.h` are the usual ones.
2. `getlines_lines`: reading what was written line by line.
3. `strtoul_decimal`, `atoi_decimal`: a printed number is read back.
-/

namespace WgAndroid

def byte (c : Char) : UInt8 := UInt8.ofNat c.toNat

/-- A string constant of the C sources. -/
def cstring (s : String) : Bytes := s.toList.map byte

/-- A key of a config line, up to its value. -/
theorem cstring_key (name : String) (v : Bytes) :
    cstring name ++ (cstring "=" ++ v) = cstring (name ++ "=") ++ v := by
  unfold cstring
  rw [String.toList_append, List.map_append, List.append_assoc]

def newline : UInt8 := 0x0A

/-- What the string functions see of a buffer: the bytes before the first NUL. -/
def cstr (s : Bytes) : Bytes := s.takeWhile (· != 0)

/-- `getline` until the end of the file; every line keeps its newline. -/
def getlines : Bytes → List Bytes
  | [] => []
  | b :: rest =>
    if b = newline then [b] :: getlines rest
    else match getlines rest with
      | [] => [[b]]
      | l :: ls => (b :: l) :: ls

/-- `isspace` in the C locale. -/
def isspace (c : UInt8) : Bool := c == 0x20 || (decide (0x09 ≤ c) && decide (c ≤ 0x0D))

/-- `char_is_space` of `ctype.h`. -/
def charIsSpace (c : UInt8) : Bool :=
  let d := c - 9
  ((0x80001F : UInt32) >>> (d &&& 31).toUInt32) &&& ((1 : UInt32) >>> (d >>> 5).toUInt32) != 0

/-- `char_is_digit` of `ctype.h`. -/
def charIsDigit (c : UInt8) : Bool :=
  let c : BitVec 32 := c.toBitVec.setWidth 32
  (((0x2F - c) &&& (c - 0x3A)) >>> 31) != 0

def tolower (c : UInt8) : UInt8 := if decide (0x41 ≤ c) && decide (c ≤ 0x5A) then c + 32 else c

/-- `!strcasecmp(s, t)` -/
def strcaseeq (s t : Bytes) : Bool := s.map tolower == t.map tolower

/-- `!strncasecmp(s, t, n)` -/
def strncaseeq (s t : Bytes) (n : Nat) : Bool := (s.take n).map tolower == (t.take n).map tolower

/-- The value of a run of decimal digits. -/
def digitsValue (s : Bytes) : Nat := s.foldl (fun n b => n * 10 + (b.toNat - 0x30)) 0

/-- `strtoul(s, &end, 10)` on a text that starts with a digit, as all its callers check: the value
and what `end` points to. -/
def strtoul (s : Bytes) : Nat × Bytes :=
  (min (digitsValue (s.takeWhile charIsDigit)) (2 ^ 64 - 1), s.dropWhile charIsDigit)

/-- `atoi`; it is undefined for values that are no `int`. -/
def atoi (s : Bytes) : Int :=
  match s.dropWhile isspace with
  | [] => 0
  | c :: rest =>
    if c = byte '-' then -(digitsValue (rest.takeWhile charIsDigit) : Int)
    else digitsValue ((if c = byte '+' then rest else c :: rest).takeWhile charIsDigit)

/-- The tokens that repeated calls of `strtok` return. -/
def strtok (delim : UInt8 → Bool) (s : Bytes) : List Bytes :=
  (s.splitOnP delim).filter fun t => !t.isEmpty

/-! ## Classes -/

section Tables

set_option maxRecDepth 4000

theorem charIsSpace_eq (c : UInt8) : charIsSpace c = isspace c :=
  forall_byte (p := fun c => charIsSpace c = isspace c) (by decide) c

theorem charIsDigit_eq (c : UInt8) : charIsDigit c = (decide (0x30 ≤ c) && decide (c ≤ 0x39)) :=
  forall_byte (p := fun c => charIsDigit c = (decide (0x30 ≤ c) && decide (c ≤ 0x39))) (by decide) c

theorem eq_of_tolower_bracket (c : UInt8) : tolower c = byte '[' → c = byte '[' :=
  forall_byte (p := fun c => tolower c = byte '[' → c = byte '[') (by decide) c

/-- A digit is neither a space nor a sign. -/
theorem class_of_charIsDigit (c : UInt8) :
    charIsDigit c = true → isspace c = false ∧ c ≠ byte '-' ∧ c ≠ byte '+' :=
  forall_byte (p := fun c => charIsDigit c = true → isspace c = false ∧ c ≠ byte '-' ∧ c ≠ byte '+')
    (by decide) c

end Tables

/-- Case does not matter for a bracket, so a text that starts otherwise is not equal to a header. -/
theorem strcaseeq_bracket {s t : Bytes} (h : s.head? ≠ some (byte '[')) :
    strcaseeq s (byte '[' :: t) = false := by
  rw [strcaseeq, beq_eq_false_iff_ne]
  intro heq
  cases s with
  | nil => cases heq
  | cons c s =>
    have hc : tolower c = byte '[' := (List.cons.inj heq).1
    have hinj := eq_of_tolower_bracket c hc
    exact h (congrArg some hinj)

/-- Cutting a text at the first occurrence of a character. -/
theorem cut_append {c : UInt8} {s : Bytes} (h : c ∉ s) (t : Bytes) :
    (s ++ c :: t).takeWhile (· != c) = s ∧ (s ++ c :: t).dropWhile (· != c) = c :: t := by
  have hs : ∀ b ∈ s, (b != c) = true := fun b hb => bne_iff_ne.mpr fun hbc => h (hbc ▸ hb)
  constructor
  · rw [List.takeWhile_append_of_pos hs, List.takeWhile_cons_of_neg (by simp), List.append_nil]
  · rw [List.dropWhile_append_of_pos hs, List.dropWhile_cons_of_neg (by simp)]

/-! ## Lines -/

theorem getlines_line {l : Bytes} (h : newline ∉ l) (rest : Bytes) :
    getlines (l ++ newline :: rest) = (l ++ [newline]) :: getlines rest := by
  induction l with
  | nil => simp [getlines]
  | cons b l ih =>
    have hb : b ≠ newline := fun hb => h (hb ▸ List.mem_cons_self)
    rw [List.cons_append, getlines, if_neg hb, ih fun hl => h (List.mem_cons_of_mem _ hl)]
    rfl

/-- Reading what was written line by line. -/
theorem getlines_lines {ls : List Bytes} (h : ∀ l ∈ ls, newline ∉ l) :
    getlines (ls.flatMap fun l => l ++ [newline]) = ls.map (· ++ [newline]) := by
  induction ls with
  | nil => rfl
  | cons l ls ih =>
    rw [List.flatMap_cons, List.append_assoc, List.singleton_append,
      getlines_line (h l List.mem_cons_self), ih fun m hm => h m (List.mem_cons_of_mem _ hm),
      List.map_cons]

/-! ## Numbers -/

theorem digit_ascii {c : Char} (h : c.isDigit = true) :
    charIsDigit (unit c).toUInt8 = true ∧ (unit c).toUInt8.toNat - 0x30 = c.toNat - 48 := by
  obtain ⟨d, hd, rfl⟩ := exists_lt_ten h
  have : ∀ d : Fin 10, charIsDigit (unit (Char.ofNat (48 + d))).toUInt8 = true ∧
      (unit (Char.ofNat (48 + d))).toUInt8.toNat - 0x30 = (Char.ofNat (48 + d)).toNat - 48 := by
    decide
  exact this ⟨d, hd⟩

theorem charIsDigit_of_mem_decimal {n : Nat} {b : UInt8} (h : b ∈ ascii (decimal n)) :
    charIsDigit b = true := by
  rw [ascii, decimal, List.map_map] at h
  obtain ⟨c, hc, rfl⟩ := List.mem_map.mp h
  exact (digit_ascii (Nat.isDigit_of_mem_toDigits (by decide) (by decide) hc)).1

theorem digitsValue_decimal (n : Nat) : digitsValue (ascii (decimal n)) = n := by
  have hfold : ∀ (cs : List Char) (m : Nat), (∀ c ∈ cs, c.isDigit = true) →
      (cs.map (UInt16.toUInt8 ∘ unit)).foldl (fun n b => n * 10 + (b.toNat - 0x30)) m =
        Nat.ofDigitChars 10 cs m := by
    intro cs
    induction cs with
    | nil => exact fun _ _ => rfl
    | cons c cs ih =>
      intro m h
      rw [List.map_cons, List.foldl_cons, ih _ fun d hd => h d (List.mem_cons_of_mem _ hd),
        Nat.ofDigitChars_cons, Function.comp_apply, (digit_ascii (h c List.mem_cons_self)).2,
        Nat.mul_comm]
      rfl
  rw [digitsValue, ascii, decimal, List.map_map,
    hfold _ _ fun c hc => Nat.isDigit_of_mem_toDigits (by decide) (by decide) hc,
    Nat.ofDigitChars_ten_toDigits]

theorem takeWhile_decimal (n : Nat) :
    (ascii (decimal n)).takeWhile charIsDigit = ascii (decimal n) :=
  List.takeWhile_eq_self_iff.mpr fun _ hb => charIsDigit_of_mem_decimal hb

/-- A printed number is read back, and nothing is left. -/
theorem strtoul_decimal {n : Nat} (h : n < 2 ^ 64) : strtoul (ascii (decimal n)) = (n, []) := by
  have hdrop : (ascii (decimal n)).dropWhile charIsDigit = [] :=
    List.dropWhile_eq_nil_iff.mpr fun _ hb => charIsDigit_of_mem_decimal hb
  rw [strtoul, takeWhile_decimal, digitsValue_decimal, hdrop, Nat.min_eq_left (by omega)]

theorem exists_digit_cons (n : Nat) :
    ∃ c rest, ascii (decimal n) = c :: rest ∧ charIsDigit c = true := by
  obtain ⟨c, rest, hc⟩ := List.exists_cons_of_ne_nil
    (fun h => decimal_ne_nil n (List.map_eq_nil_iff.mp h) : ascii (decimal n) ≠ [])
  exact ⟨c, rest, hc, charIsDigit_of_mem_decimal (n := n) (hc ▸ List.mem_cons_self)⟩

theorem atoi_decimal (n : Nat) : atoi (ascii (decimal n)) = n := by
  obtain ⟨c, rest, hc, hdigit⟩ := exists_digit_cons n
  obtain ⟨hspace, hminus, hplus⟩ := class_of_charIsDigit c hdigit
  have hskip : (ascii (decimal n)).dropWhile isspace = c :: rest := by
    rw [hc, List.dropWhile_cons_of_neg (by simp [hspace])]
  rw [atoi, hskip]
  simp only [if_neg hminus, if_neg hplus]
  rw [← hc, takeWhile_decimal, digitsValue_decimal]

end WgAndroid
