import Mathlib.Data.UInt
import WgAndroid.Lib.Chunked

/-!
# Base 64 and base 16

The encodings of RFC 4648, section 4 with padding and section 8, in the RFC's own terms: 24 input bits
as four groups of six, and eight input bits as two groups of four. Hexadecimal digits are read in
either case, by their character codes.

Results:
1. `decode16_encode16`: the text of some bytes denotes them.
2. `exists_decode16`: which texts denote bytes.
3. `encode16_decode16`: the bytes that a text denotes are written as that text in lower case.
-/

namespace Rfc4648

/-! ## Base 64 -/

def alphabet64 : List Char := "ABCDEFGHIJKLMNOPQRSTUVWXYZabcdefghijklmnopqrstuvwxyz0123456789+/".toList

theorem alphabet64_length : alphabet64.length = 64 := by decide

/-- The character of a group of six bits. -/
def letter (s : BitVec 6) : Char := alphabet64.get ⟨s.toNat, alphabet64_length ▸ s.isLt⟩

/-- The four groups of six bits of three bytes. -/
def sextets (x y z : UInt8) : List (BitVec 6) :=
  let group : BitVec (8 + 8 + 8) := x.toBitVec ++ y.toBitVec ++ z.toBitVec
  [group.extractLsb' 18 6, group.extractLsb' 12 6, group.extractLsb' 6 6, group.extractLsb' 0 6]

/-- The base 64 text of the bytes. A final group of fewer than 24 bits is filled up with zeros, and
the characters that come from the filling only are written as `=`. -/
def encode64 : List UInt8 → List Char
  | [] => []
  | [x] => ((sextets x 0 0).map letter).take 2 ++ ['=', '=']
  | [x, y] => ((sextets x y 0).map letter).take 3 ++ ['=']
  | x :: y :: z :: rest => (sextets x y z).map letter ++ encode64 rest

/-- The text is made of letters of the alphabet and the padding. -/
theorem mem_encode64 {bytes : List UInt8} {c : Char} (h : c ∈ encode64 bytes) : c = '=' ∨ ∃ s, c = letter s := by
  have hletter {x y z : UInt8} (hc : c ∈ (sextets x y z).map letter) : ∃ s, c = letter s := by
    obtain ⟨s, -, rfl⟩ := List.mem_map.mp hc
    exact ⟨s, rfl⟩
  fun_induction encode64 bytes with
  | case1 => cases h
  | case2 x =>
    rcases List.mem_append.mp h with h | h
    · exact .inr (hletter (List.mem_of_mem_take h))
    · simp only [List.mem_cons, List.not_mem_nil, or_false, or_self] at h
      exact .inl h
  | case3 x y =>
    rcases List.mem_append.mp h with h | h
    · exact .inr (hletter (List.mem_of_mem_take h))
    · exact .inl (List.mem_singleton.mp h)
  | case4 x y z rest ih =>
    rcases List.mem_append.mp h with h | h
    · exact .inr (hletter h)
    · exact ih h

/-! ## Base 16 -/

def alphabet16 : List Char := "0123456789abcdef".toList

theorem alphabet16_length : alphabet16.length = 16 := by decide

def digit16 (n : BitVec 4) : Char := alphabet16.get ⟨n.toNat, alphabet16_length ▸ n.isLt⟩

/-- The base 16 text of the bytes, in lower case. -/
def encode16 (bytes : List UInt8) : List Char :=
  bytes.flatMap fun b => [digit16 (b.toBitVec.extractLsb' 4 4), digit16 (b.toBitVec.extractLsb' 0 4)]

theorem mem_encode16 {bytes : List UInt8} {c : Char} (h : c ∈ encode16 bytes) : ∃ n, c = digit16 n := by
  obtain ⟨b, -, hc⟩ := List.mem_flatMap.mp h
  simp only [List.mem_cons, List.not_mem_nil, or_false] at hc
  rcases hc with rfl | rfl
  · exact ⟨_, rfl⟩
  · exact ⟨_, rfl⟩

/-- The value of a digit of either case. -/
def value16 (code : Nat) : Option (BitVec 4) :=
  if '0'.toNat ≤ code ∧ code ≤ '9'.toNat then some (BitVec.ofNat 4 (code - '0'.toNat))
  else if 'a'.toNat ≤ code ∧ code ≤ 'f'.toNat then some (BitVec.ofNat 4 (code - 'a'.toNat + 10))
  else if 'A'.toNat ≤ code ∧ code ≤ 'F'.toNat then some (BitVec.ofNat 4 (code - 'A'.toNat + 10))
  else none

/-- The bytes that a text of base 16 denotes. -/
def decode16 : List Nat → Option (List UInt8)
  | [] => some []
  | [_] => none
  | c :: d :: rest => do
    let high ← value16 c
    let low ← value16 d
    let bytes ← decode16 rest
    return UInt8.ofBitVec (high ++ low) :: bytes

/-- The code of a digit in lower case. -/
def lower (code : Nat) : Nat := if 'A'.toNat ≤ code ∧ code ≤ 'F'.toNat then code + 32 else code

theorem value16_digit16 (n : BitVec 4) : value16 (digit16 n).toNat = some n := by
  have hall : ∀ i : Fin 16, value16 (digit16 (BitVec.ofFin i)).toNat = some (BitVec.ofFin i) := by decide
  exact hall n.toFin

theorem value16_bound {code : Nat} {n : BitVec 4} (h : value16 code = some n) : code < 128 := by
  unfold value16 at h
  split_ifs at h with h₁ h₂ h₃
  · exact h₁.2.trans_lt (by decide)
  · exact h₂.2.trans_lt (by decide)
  · exact h₃.2.trans_lt (by decide)

theorem digit16_value16 {code : Nat} {n : BitVec 4} (h : value16 code = some n) :
    (digit16 n).toNat = lower code := by
  have hdigits : ∀ i : Fin 10, (digit16 (BitVec.ofNat 4 i)).toNat = lower (48 + i) := by decide
  have hsmall : ∀ i : Fin 6, (digit16 (BitVec.ofNat 4 (i + 10))).toNat = lower (97 + i) := by decide
  have hlarge : ∀ i : Fin 6, (digit16 (BitVec.ofNat 4 (i + 10))).toNat = lower (65 + i) := by decide
  unfold value16 at h
  split_ifs at h with h₁ h₂ h₃
  · obtain ⟨i, rfl⟩ := Nat.exists_eq_add_of_le h₁.1
    have hi : i < 10 := Nat.lt_of_add_lt_add_left (Nat.lt_succ_of_le h₁.2)
    rw [← Option.some.inj h, Nat.add_sub_cancel_left]
    exact hdigits ⟨i, hi⟩
  · obtain ⟨i, rfl⟩ := Nat.exists_eq_add_of_le h₂.1
    have hi : i < 6 := Nat.lt_of_add_lt_add_left (Nat.lt_succ_of_le h₂.2)
    rw [← Option.some.inj h, Nat.add_sub_cancel_left]
    exact hsmall ⟨i, hi⟩
  · obtain ⟨i, rfl⟩ := Nat.exists_eq_add_of_le h₃.1
    have hi : i < 6 := Nat.lt_of_add_lt_add_left (Nat.lt_succ_of_le h₃.2)
    rw [← Option.some.inj h, Nat.add_sub_cancel_left]
    exact hlarge ⟨i, hi⟩

/-- A byte is its two groups of four bits. -/
theorem append_extract (b : UInt8) :
    UInt8.ofBitVec (b.toBitVec.extractLsb' 4 4 ++ b.toBitVec.extractLsb' 0 4) = b := by
  exact UInt8.eq_of_toBitVec_eq (@BitVec.extractLsb'_append_extractLsb' 4 4 b.toBitVec)

theorem decode16_encode16 (bytes : List UInt8) :
    decode16 ((encode16 bytes).map Char.toNat) = some bytes := by
  induction bytes with
  | nil => rfl
  | cons b bytes ih =>
    show decode16 ((digit16 _).toNat :: (digit16 _).toNat :: (encode16 bytes).map Char.toNat) = _
    unfold decode16
    rw [value16_digit16, value16_digit16, ih]
    exact congrArg (fun b => some (b :: bytes)) (append_extract b)

/-- What a text denotes, two characters at a time. -/
theorem decode16_cons_cons {c d : Nat} {rest : List Nat} {bytes : List UInt8} :
    decode16 (c :: d :: rest) = some bytes ↔ ∃ high low bytes', value16 c = some high ∧ value16 d = some low ∧
      decode16 rest = some bytes' ∧ bytes = UInt8.ofBitVec (high ++ low) :: bytes' := by
  constructor
  · intro h
    obtain ⟨high, hhigh, h⟩ := Option.bind_eq_some_iff.mp h
    obtain ⟨low, hlow, h⟩ := Option.bind_eq_some_iff.mp h
    obtain ⟨bytes', hrest, h⟩ := Option.bind_eq_some_iff.mp h
    exact ⟨high, low, bytes', hhigh, hlow, hrest, (Option.some.inj h).symm⟩
  · rintro ⟨high, low, bytes', hhigh, hlow, hrest, rfl⟩
    unfold decode16
    rw [hhigh, hlow, hrest]
    rfl

theorem length_decode16 {codes : List Nat} {bytes : List UInt8} (h : decode16 codes = some bytes) :
    codes.length = 2 * bytes.length := by
  fun_induction decode16 codes generalizing bytes with
  | case1 =>
    cases h
    rfl
  | case2 => cases h
  | case3 c d rest ih =>
    obtain ⟨high, low, bytes', -, -, hrest, rfl⟩ := decode16_cons_cons.mp h
    simp only [List.length_cons, ih hrest]
    omega

/-- Digits in pairs denote bytes. -/
theorem exists_decode16 {codes : List Nat} (h : Chunked.Pairs codes) :
    (∃ bytes, decode16 codes = some bytes) ↔ ∀ c ∈ codes, (value16 c).isSome := by
  induction h with
  | nil => exact iff_of_true ⟨[], rfl⟩ (List.forall_mem_nil _)
  | step c d rest _ ih =>
    simp only [decode16_cons_cons, List.forall_mem_cons, ← ih]
    simp only [Option.isSome_iff_exists]
    constructor
    · rintro ⟨_, high, low, bytes, hhigh, hlow, hrest, -⟩
      exact ⟨⟨high, hhigh⟩, ⟨low, hlow⟩, ⟨bytes, hrest⟩⟩
    · rintro ⟨⟨high, hhigh⟩, ⟨low, hlow⟩, ⟨bytes, hrest⟩⟩
      exact ⟨_, high, low, bytes, hhigh, hlow, hrest, rfl⟩

/-- The two groups of four bits of a byte that was put together from them. -/
theorem extract_append (high low : BitVec 4) :
    (UInt8.ofBitVec (high ++ low)).toBitVec.extractLsb' 4 4 = high ∧
      (UInt8.ofBitVec (high ++ low)).toBitVec.extractLsb' 0 4 = low := by
  exact ⟨BitVec.extractLsb'_append_eq_left, BitVec.extractLsb'_append_eq_right⟩

theorem encode16_decode16 {codes : List Nat} {bytes : List UInt8} (h : decode16 codes = some bytes) :
    (encode16 bytes).map Char.toNat = codes.map lower := by
  fun_induction decode16 codes generalizing bytes with
  | case1 =>
    cases h
    rfl
  | case2 => cases h
  | case3 c d rest ih =>
    obtain ⟨high, low, bytes', hhigh, hlow, hrest, rfl⟩ := decode16_cons_cons.mp h
    obtain ⟨hextract, hextract'⟩ := extract_append high low
    show (digit16 _).toNat :: (digit16 _).toNat :: (encode16 bytes').map Char.toNat = _
    rw [hextract, hextract', digit16_value16 hhigh, digit16_value16 hlow, ih hrest]
    rfl

end Rfc4648
