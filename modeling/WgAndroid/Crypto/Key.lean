import WgAndroid.Java.Text
import WgAndroid.Lib.Chunked

/-!
# WireGuard keys

`com.wireguard.crypto.Key`: 32 bytes and their constant-time base64 and hexadecimal codecs. The
arithmetic is that of the source, on 32-bit integers with signed bytes.

Results:
1. `fromBase64_toBase64`: decoding an encoded key gives the key back.
2. `isBase64_of_mem_toBase64`: an encoded key is made of base64 letters only.
-/

namespace WgAndroid

/-- `Key.Format`. -/
inductive KeyFormat where
  | base64
  | binary
  | hex
  deriving DecidableEq

/-- `KeyFormatException.Type`. -/
inductive KeyFormatType where
  | contents
  | length
  deriving DecidableEq

structure KeyFormatException where
  format : KeyFormat
  type : KeyFormatType
  deriving DecidableEq

structure Key where
  bytes : List UInt8
  length_eq : bytes.length = 32
  deriving DecidableEq

namespace Key

/-! ## Base64 -/

/-- A Java byte as an `int`: sign extended. -/
def int (b : UInt8) : BitVec 32 := b.toBitVec.signExtend 32

/-- What one character adds to `val` in `decodeBase64`, before the shift: its six bits, or all ones
for a character that is no base64 letter. -/
def sextet (c : UInt16) : BitVec 32 :=
  let c : BitVec 32 := c.toBitVec.setWidth 32
  (-1 : BitVec 32)
    + ((((0x40 - c) &&& (c - 0x5B)) >>> 8) &&& (c - 64))
    + ((((0x60 - c) &&& (c - 0x7B)) >>> 8) &&& (c - 70))
    + ((((0x2F - c) &&& (c - 0x3A)) >>> 8) &&& (c + 5))
    + ((((0x2A - c) &&& (c - 0x2C)) >>> 8) &&& 63)
    + ((((0x2E - c) &&& (c - 0x30)) >>> 8) &&& 64)

def decodeBase64 (a b c d : UInt16) : BitVec 32 :=
  sextet a <<< 18 ||| sextet b <<< 12 ||| sextet c <<< 6 ||| sextet d

def encodeChar (v : BitVec 32) : UInt16 :=
  UInt16.ofBitVec
    ((v + 0x41 + (((25 - v) >>> 8) &&& 6) - (((51 - v) >>> 8) &&& 75)
      - (((61 - v) >>> 8) &&& 15) + (((62 - v) >>> 8) &&& 3)).setWidth 16)

/-- The array `input` of `encodeBase64`: the four sextets of three bytes. -/
def input0 (x : UInt8) : BitVec 32 := (int x >>> 2) &&& 63
def input1 (x y : UInt8) : BitVec 32 := (int x <<< 4 ||| ((int y &&& 0xff) >>> 4)) &&& 63
def input2 (y z : UInt8) : BitVec 32 := (int y <<< 2 ||| ((int z &&& 0xff) >>> 6)) &&& 63
def input3 (z : UInt8) : BitVec 32 := int z &&& 63

def encodeBase64 (x y z : UInt8) : JString :=
  [encodeChar (input0 x), encodeChar (input1 x y), encodeChar (input2 y z), encodeChar (input3 z)]

/-- `(byte) (i & 0xff)` -/
def lowByte (i : BitVec 32) : UInt8 := UInt8.ofBitVec ((i &&& 0xff).setWidth 8)

/-- The loop of `toBase64`. The end segment has two bytes; the fourth character it encodes to is
overwritten with the padding. -/
def encodeChunks : List UInt8 → JString
  | [x, y] => (encodeBase64 x y 0).dropLast ++ [unit '=']
  | x :: y :: z :: rest => encodeBase64 x y z ++ encodeChunks rest
  | _ => []

def toBase64 (k : Key) : JString := encodeChunks k.bytes

/-- The loop of `fromBase64`: `ret` and the bytes decoded. In the end segment an `A` stands for the
padding, and the byte it decodes to has to be zero. -/
def decodeChunks : JString → BitVec 32 × List UInt8
  | [a, b, c, _] =>
    let val := decodeBase64 a b c (unit 'A')
    ((val >>> 31) ||| (val &&& 0xff), [lowByte (val >>> 16), lowByte (val >>> 8)])
  | a :: b :: c :: d :: rest =>
    let val := decodeBase64 a b c d
    let (ret, key) := decodeChunks rest
    ((val >>> 31) ||| ret, lowByte (val >>> 16) :: lowByte (val >>> 8) :: lowByte val :: key)
  | _ => (0, [])

theorem length_decodeChunks {n : Nat} {s : JString} (h : s.length = 4 * n + 4) :
    (decodeChunks s).2.length = 3 * n + 2 := by
  induction n generalizing s with
  | zero =>
    match s, h with
    | [a, b, c, d], _ => rfl
  | succ n ih =>
    match s, h with
    | a :: b :: c :: d :: e :: rest, h =>
      have := ih (s := e :: rest) (by simp only [List.length_cons] at h ⊢; omega)
      simp only [decodeChunks, List.length_cons, this]
      omega

def fromBase64 (s : JString) : Except KeyFormatException Key :=
  if h : s.length = 44 ∧ s.getLast? = some (unit '=') then
    if (decodeChunks s).1 ≠ 0 then .error ⟨.base64, .contents⟩
    else .ok ⟨(decodeChunks s).2, length_decodeChunks (n := 10) h.1⟩
  else .error ⟨.base64, .length⟩

/-! ## Hexadecimal -/

/-- A character of `toHex`, for four bits. -/
def hexChar (v : BitVec 32) : UInt16 :=
  UInt16.ofBitVec ((87 + v + (((v - 10).sshiftRight 8) &&& ~~~38)).setWidth 16)

/-- The two characters of a byte. -/
def encodeHex (b : UInt8) : JString :=
  [hexChar ((int b).sshiftRight 4 &&& 0xf), hexChar (int b &&& 0xf)]

def toHex (k : Key) : JString := k.bytes.flatMap encodeHex

/-- The four variables that `fromHex` computes from a character. -/
def cNum (c : UInt16) : BitVec 32 := c.toBitVec.setWidth 32 ^^^ 48
def cNum0 (c : UInt16) : BitVec 32 := ((cNum c - 10) >>> 8) &&& 0xff
def cAlpha (c : UInt16) : BitVec 32 := (c.toBitVec.setWidth 32 &&& ~~~32) - 55
def cAlpha0 (c : UInt16) : BitVec 32 := (((cAlpha c - 10) ^^^ (cAlpha c - 16)) >>> 8) &&& 0xff

/-- What a character adds to `ret` in `fromHex`. -/
def hexRet (c : UInt16) : BitVec 32 := ((cNum0 c ||| cAlpha0 c) - 1) >>> 8

def cVal (c : UInt16) : BitVec 32 := (cNum0 c &&& cNum c) ||| (cAlpha0 c &&& cAlpha c)

/-- The loop of `fromHex`: `ret` and the bytes. -/
def decodeHex : JString → BitVec 32 × List UInt8
  | c :: d :: rest =>
    let (ret, key) := decodeHex rest
    (hexRet c ||| hexRet d ||| ret, UInt8.ofBitVec ((cVal c * 16 ||| cVal d).setWidth 8) :: key)
  | _ => (0, [])

theorem length_decodeHex {n : Nat} {s : JString} (h : s.length = 2 * n) : (decodeHex s).2.length = n := by
  induction n generalizing s with
  | zero =>
    rw [List.eq_nil_of_length_eq_zero h]
    rfl
  | succ n ih =>
    match s, h with
    | c :: d :: rest, h =>
      have := ih (s := rest) (by simp only [List.length_cons] at h; omega)
      simp only [decodeHex, List.length_cons, this]

def fromHex (s : JString) : Except KeyFormatException Key :=
  if h : s.length = 64 then
    if (decodeHex s).1 ≠ 0 then .error ⟨.hex, .contents⟩
    else .ok ⟨(decodeHex s).2, length_decodeHex (n := 32) h⟩
  else .error ⟨.hex, .length⟩

/-! ## The codec is invertible -/

namespace KeyLemmas

/-- Three bytes as one integer. -/
def triple (x y z : UInt8) : BitVec 32 :=
  x.toBitVec.setWidth 32 <<< 16 ||| y.toBitVec.setWidth 32 <<< 8 ||| z.toBitVec.setWidth 32

/-- The bits of a mask of `k` ones. -/
theorem getLsbD_ones {k : Nat} (hk : k ≤ 32) (i : Nat) :
    (BitVec.ofNat 32 (2 ^ k - 1)).getLsbD i = decide (i < k) := by
  rw [BitVec.getLsbD_ofNat, Nat.testBit_two_pow_sub_one, ← Bool.decide_and]
  exact decide_eq_decide.mpr ⟨And.right, fun h => ⟨h.trans_le hk, h⟩⟩

theorem getLsbD_63 (i : Nat) : (63 : BitVec 32).getLsbD i = decide (i < 6) :=
  getLsbD_ones (k := 6) (by decide) i

theorem getLsbD_0xff (i : Nat) : (0xff : BitVec 32).getLsbD i = decide (i < 8) :=
  getLsbD_ones (k := 8) (by decide) i

/-- The four sextets of three bytes, put together again, are the three bytes. -/
theorem input_join (x y z : UInt8) :
    input0 x <<< 18 ||| input1 x y <<< 12 ||| input2 y z <<< 6 ||| input3 z = triple x y z := by
  apply BitVec.eq_of_getLsbD_eq
  intro i hi
  simp only [input0, input1, input2, input3, triple, int, BitVec.getLsbD_or, BitVec.getLsbD_shiftLeft,
    BitVec.getLsbD_and, BitVec.getLsbD_ushiftRight, BitVec.getLsbD_signExtend, BitVec.getLsbD_setWidth,
    getLsbD_63, getLsbD_0xff]
  grind

/-- The top bit of three bytes is clear, and each byte can be read off again. -/
theorem triple_parts (x y z : UInt8) :
    triple x y z >>> 31 = 0 ∧ lowByte (triple x y z >>> 16) = x ∧
      lowByte (triple x y z >>> 8) = y ∧ lowByte (triple x y z) = z := by
  refine ⟨?_, UInt8.eq_of_toBitVec_eq ?_, UInt8.eq_of_toBitVec_eq ?_, UInt8.eq_of_toBitVec_eq ?_⟩ <;>
  · apply BitVec.eq_of_getLsbD_eq
    intro i hi
    simp only [lowByte, triple, UInt8.toBitVec_ofBitVec, BitVec.getLsbD_or, BitVec.getLsbD_shiftLeft,
      BitVec.getLsbD_and, BitVec.getLsbD_ushiftRight, BitVec.getLsbD_setWidth, getLsbD_0xff]
    grind

theorem triple_and (x y : UInt8) : triple x y 0 &&& 0xff = 0 := by
  apply BitVec.eq_of_getLsbD_eq
  intro i hi
  simp only [triple, BitVec.getLsbD_or, BitVec.getLsbD_shiftLeft, BitVec.getLsbD_and, BitVec.getLsbD_setWidth,
    UInt8.toBitVec_zero, BitVec.getLsbD_zero, getLsbD_0xff]
  grind

/-- A sextet is below 64, so what holds of the 64 of them holds of it. -/
theorem forall_sextet {P : BitVec 32 → Prop} (h : ∀ n : Fin 64, P (BitVec.ofNat 32 n))
    (w : BitVec 32) : P (w &&& 63) := by
  have hlt : (w &&& 63).toNat < 64 := by
    rw [BitVec.toNat_and]
    exact Nat.lt_succ_of_le Nat.and_le_right
  simpa using h ⟨_, hlt⟩

/-- The characters of an encoded key: letters, digits, `+`, `/` and the padding. -/
def isBase64 (c : UInt16) : Bool := isAlnum c || c == unit '+' || c == unit '/' || c == unit '='

theorem encodeChar_sextet (w : BitVec 32) :
    sextet (encodeChar (w &&& 63)) = w &&& 63 ∧ isBase64 (encodeChar (w &&& 63)) = true :=
  forall_sextet (P := fun v => sextet (encodeChar v) = v ∧ isBase64 (encodeChar v) = true)
    (by decide) w

theorem decodeBase64_encode (x y z : UInt8) :
    decodeBase64 (encodeChar (input0 x)) (encodeChar (input1 x y)) (encodeChar (input2 y z))
      (encodeChar (input3 z)) = triple x y z := by
  rw [← input_join]
  unfold decodeBase64 input0 input1 input2 input3
  simp only [(encodeChar_sextet _).1]

theorem encodeChar_zero : encodeChar (input3 0) = unit 'A' := by decide

theorem decodeChunks_encodeChunks {bs : List UInt8} (h : Chunked.Triples bs) :
    decodeChunks (encodeChunks bs) = (0, bs) := by
  induction h with
  | last x y =>
    have hp := triple_parts x y 0
    have hd := decodeBase64_encode x y 0
    rw [encodeChar_zero] at hd
    simpa [encodeChunks, encodeBase64, decodeChunks, hd, hp] using triple_and x y
  | step x y z w rest _ ih =>
    have hp := triple_parts x y z
    obtain ⟨e, es, he⟩ : ∃ e es, encodeChunks (w :: rest) = e :: es := by
      cases hes : encodeChunks (w :: rest) with
      | nil => rw [hes] at ih; simp [decodeChunks] at ih
      | cons e es => exact ⟨e, es, rfl⟩
    have hd := decodeBase64_encode x y z
    simp only [encodeChunks, encodeBase64, List.cons_append, List.nil_append, he]
    rw [he] at ih
    simp [decodeChunks, hd, hp, ih]

theorem length_encodeChunks {n : Nat} {bs : List UInt8} (h : bs.length = 3 * n + 2) :
    (encodeChunks bs).length = 4 * n + 4 ∧ (encodeChunks bs).getLast? = some (unit '=') := by
  induction n generalizing bs with
  | zero =>
    match bs, h with
    | [x, y], _ => exact ⟨rfl, rfl⟩
  | succ n ih =>
    match bs, h with
    | x :: y :: z :: w :: rest, h =>
      obtain ⟨hlen, hlast⟩ := @ih (w :: rest) (by simp only [List.length_cons] at h ⊢; omega)
      refine ⟨?_, ?_⟩
      · simp only [encodeChunks, encodeBase64, List.length_append, hlen, List.length_cons,
          List.length_nil]
        omega
      · simp only [encodeChunks]
        rw [List.getLast?_append, hlast]
        rfl

end KeyLemmas

open KeyLemmas

/-- Decoding an encoded key gives the key back. -/
theorem fromBase64_toBase64 (k : Key) : fromBase64 k.toBase64 = .ok k := by
  have hdec := decodeChunks_encodeChunks (Chunked.triples_of_length (n := 10) k.length_eq)
  have hlen := length_encodeChunks (n := 10) k.length_eq
  unfold fromBase64 toBase64
  rw [dif_pos hlen]
  simp [hdec]

theorem isBase64_of_mem_encodeBase64 {x y z : UInt8} {c : UInt16} (h : c ∈ encodeBase64 x y z) :
    isBase64 c = true := by
  simp only [encodeBase64, List.mem_cons, List.not_mem_nil, or_false] at h
  rcases h with rfl | rfl | rfl | rfl <;> exact (encodeChar_sextet _).2

theorem isBase64_of_mem_encodeChunks {bs : List UInt8} {c : UInt16} (h : c ∈ encodeChunks bs) :
    isBase64 c = true := by
  fun_induction encodeChunks bs with
  | case1 x y =>
    rcases List.mem_append.mp h with h | h
    · exact isBase64_of_mem_encodeBase64 (List.dropLast_subset _ h)
    · rw [List.mem_singleton] at h
      subst h
      decide
  | case2 x y z rest ih =>
    rcases List.mem_append.mp h with h | h
    · exact isBase64_of_mem_encodeBase64 h
    · exact ih h
  | case3 => exact absurd h List.not_mem_nil

/-- Every character of an encoded key is a base64 letter or the padding. -/
theorem isBase64_of_mem_toBase64 {k : Key} {c : UInt16} (h : c ∈ k.toBase64) : isBase64 c = true :=
  isBase64_of_mem_encodeChunks h

theorem plain_toBase64 (k : Key) : Plain k.toBase64 := by
  refine ⟨fun h => ?_, fun c hc => ?_⟩
  · have := (length_encodeChunks (n := 10) k.length_eq).1
    rw [← toBase64, h] at this
    cases this
  · have hb := isBase64_of_mem_toBase64 hc
    simp only [isBase64, Bool.or_eq_true, beq_iff_eq] at hb
    rcases hb with ((h | rfl) | rfl) | rfl
    · exact plain_char_of_isAlnum h
    all_goals decide

theorem toBase64_length (k : Key) : k.toBase64.length = 44 :=
  (length_encodeChunks (n := 10) k.length_eq).1

end Key

end WgAndroid
