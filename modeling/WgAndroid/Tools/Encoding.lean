import WgAndroid.Crypto.KeyCodec
import WgAndroid.Lib.Checked
import WgAndroid.Tools.CString

/-!
# Keys in the native tools

`encoding.c`: the codecs of `Key` in C, where a `char` has eight bits and may be signed or not.

Results:
1. `keyFromBase64As_eq`: the two base64 readers accept the same texts and give the same keys.
2. `native_codec_exact`: the native readers accept exactly the encodings of keys, and the printers
   write such.
-/

namespace WgAndroid

open Key

/-- A `char` as an `int`: it is sign extended where `char` is signed. -/
def charInt (signed : Bool) (c : UInt8) : BitVec 32 :=
  if signed then c.toBitVec.signExtend 32 else c.toBitVec.setWidth 32

/-- What one character adds to `val` in `decode_base64`. -/
def charSextet (signed : Bool) (c : UInt8) : BitVec 32 :=
  let c : BitVec 32 := charInt signed c
  (-1 : BitVec 32)
    + ((((0x40 - c) &&& (c - 0x5B)).sshiftRight 8) &&& (c - 64))
    + ((((0x60 - c) &&& (c - 0x7B)).sshiftRight 8) &&& (c - 70))
    + ((((0x2F - c) &&& (c - 0x3A)).sshiftRight 8) &&& (c + 5))
    + ((((0x2A - c) &&& (c - 0x2C)).sshiftRight 8) &&& 63)
    + ((((0x2E - c) &&& (c - 0x30)).sshiftRight 8) &&& 64)

def charsDecode (signed : Bool) (a b c d : UInt8) : BitVec 32 :=
  charSextet signed a <<< 18 ||| charSextet signed b <<< 12 ||| charSextet signed c <<< 6 |||
    charSextet signed d

/-- The loop of `key_from_base64`: `ret` and the key. -/
def keyChunks (signed : Bool) : Bytes → UInt8 × Bytes
  | [a, b, c, _] =>
    let val := charsDecode signed a b c (byte 'A')
    (UInt8.ofBitVec (((val >>> 31) ||| (val &&& 0xff)).setWidth 8),
      [lowByte (val.sshiftRight 16), lowByte (val.sshiftRight 8)])
  | a :: b :: c :: d :: rest =>
    let val := charsDecode signed a b c d
    let (ret, key) := keyChunks signed rest
    (UInt8.ofBitVec ((val >>> 31).setWidth 8) ||| ret,
      lowByte (val.sshiftRight 16) :: lowByte (val.sshiftRight 8) :: lowByte val :: key)
  | _ => (0, [])

/-- `1 & ((ret - 1) >> 8)` -/
def retOk (ret : UInt8) : Bool :=
  ((ret.toBitVec.setWidth 32 - 1 : BitVec 32).sshiftRight 8) &&& 1 != 0

def keyFromBase64As (signed : Bool) (base64 : Bytes) : Option Bytes :=
  if base64.length ≠ 44 ∨ base64[43]? ≠ some (byte '=') then none
  else if retOk (keyChunks signed base64).1 then some (keyChunks signed base64).2
  else none

/-- `key_from_base64` where `char` is unsigned. -/
def keyFromBase64 (base64 : Bytes) : Option Bytes := keyFromBase64As false base64

/-- The text as Java sees it. -/
def widen (s : Bytes) : JString := s.map UInt8.toUInt16

/-- The sign of `char` does not matter. -/
theorem charSextet_eq (signed : Bool) (c : UInt8) : charSextet signed c = sextet c.toUInt16 := by
  have hboth : ∀ signed, charSextet signed c = sextet c.toUInt16 :=
    forall_byte (p := fun c => ∀ signed, charSextet signed c = sextet c.toUInt16) (by decide +kernel) c
  exact hboth signed

theorem toInt_eq_zero {c : UInt8} : (c.toBitVec.setWidth 32 : BitVec 32) = 0 ↔ c = 0 := by
  rw [← UInt8.toBitVec_inj, ← BitVec.toNat_inj, ← BitVec.toNat_inj, BitVec.toNat_setWidth,
    Nat.mod_eq_of_lt (c.toBitVec.isLt.trans (by decide))]
  rfl

set_option maxRecDepth 4000 in
theorem retOk_eq (ret : UInt8) : retOk ret = (ret == 0) :=
  forall_byte (p := fun ret => retOk ret = (ret == 0)) (by decide) ret

theorem charsDecode_eq (signed : Bool) (a b c d : UInt8) :
    charsDecode signed a b c d = decodeBase64 a.toUInt16 b.toUInt16 c.toUInt16 d.toUInt16 := by
  simp only [charsDecode, decodeBase64, charSextet_eq]

/-- The low byte of a shifted `int` does not depend on how the sign is treated. -/
theorem lowByte_sshiftRight {n : Nat} (hn : n ≤ 24) (v : BitVec 32) :
    lowByte (v.sshiftRight n) = lowByte (v >>> n) := by
  refine UInt8.eq_of_toBitVec_eq (BitVec.eq_of_getLsbD_eq fun i hi => ?_)
  have hlt : n + i < 32 := by omega
  have hlt' : i < 32 := by omega
  simp [lowByte, BitVec.getElem_sshiftRight, hlt, hlt']

/-- `ret` fits in a byte. -/
theorem ret_eq (val : BitVec 32) :
    (UInt8.ofBitVec ((val >>> 31).setWidth 8)).toBitVec.setWidth 32 = val >>> 31 ∧
    (UInt8.ofBitVec ((val >>> 31 ||| val &&& (0xff : BitVec 32)).setWidth 8)).toBitVec.setWidth 32 =
      val >>> 31 ||| val &&& (0xff : BitVec 32) := by
  constructor <;>
  · apply BitVec.eq_of_getLsbD_eq
    intro i hi
    simp only [BitVec.getLsbD_setWidth, BitVec.getLsbD_or, BitVec.getLsbD_and, BitVec.getLsbD_ushiftRight,
      KeyLemmas.getLsbD_0xff]
    grind

/-- Chunk by chunk, the two decoders compute the same. -/
theorem decodeChunks_widen (signed : Bool) (s : Bytes) :
    decodeChunks (widen s) = ((keyChunks signed s).1.toBitVec.setWidth 32, (keyChunks signed s).2) := by
  fun_induction keyChunks signed s with
  | case1 a b c d val =>
    have hA : unit 'A' = (byte 'A').toUInt16 := by decide
    have hval : decodeBase64 a.toUInt16 b.toUInt16 c.toUInt16 (unit 'A') = val := by
      rw [hA, ← charsDecode_eq signed]
    simp only [widen, List.map_cons, List.map_nil, decodeChunks, hval]
    rw [lowByte_sshiftRight (by decide), lowByte_sshiftRight (by decide), (ret_eq val).2]
  | case2 a b c d rest hrest val ret key heq ih =>
    have hval : decodeBase64 a.toUInt16 b.toUInt16 c.toUInt16 d.toUInt16 = val :=
      (charsDecode_eq signed a b c d).symm
    cases rest with
    | nil => exact (hrest rfl).elim
    | cons e rest =>
      rw [heq] at ih
      have ih' : decodeChunks (e.toUInt16 :: rest.map UInt8.toUInt16) =
          (ret.toBitVec.setWidth 32, key) := ih
      simp only [widen, List.map_cons, decodeChunks, hval, ih']
      rw [lowByte_sshiftRight (by decide), lowByte_sshiftRight (by decide), UInt8.toBitVec_or,
        BitVec.setWidth_or, (ret_eq val).1]
  | case3 s h₁ h₂ =>
    rcases s with _ | ⟨a, _ | ⟨b, _ | ⟨c, _ | ⟨d, _ | ⟨e, rest⟩⟩⟩⟩⟩
    · rfl
    · rfl
    · rfl
    · rfl
    · exact (h₁ a b c d rfl).elim
    · exact (h₂ a b c d (e :: rest) rfl).elim

/-- The two decoders accept the same texts and give the same keys. -/
theorem keyFromBase64As_eq (signed : Bool) (s : Bytes) :
    keyFromBase64As signed s = (fromBase64 (widen s)).toOption.map Key.bytes := by
  have hchunks := decodeChunks_widen signed s
  have hlength : (widen s).length = s.length := List.length_map _
  by_cases hlen : s.length = 44
  · have hlast : (widen s).getLast? = some (unit '=') ↔ s[43]? = some (byte '=') := by
      have hinj : ∀ c : UInt8, c.toUInt16 = unit '=' ↔ c = byte '=' := fun c =>
        UInt8.toUInt16_inj (b := byte '=')
      rw [List.getLast?_eq_getElem?, hlength, hlen, widen, List.getElem?_map,
        Option.map_eq_some_iff]
      simp [hinj]
    by_cases hl : s[43]? = some (byte '=')
    · have hbits : ((keyChunks signed s).1.toBitVec.setWidth 32 : BitVec 32) = 0 ↔ (keyChunks signed s).1 = 0 :=
        toInt_eq_zero
      rw [keyFromBase64As, fromBase64, if_neg (not_or.mpr ⟨not_not_intro hlen, not_not_intro hl⟩),
        dif_pos ⟨hlength.trans hlen, hlast.mpr hl⟩, retOk_eq]
      by_cases hret : (keyChunks signed s).1 = 0
      · simp [hchunks, hret, Except.toOption]
      · have hne : (decodeChunks (widen s)).1 ≠ 0 := by
          rw [hchunks]
          exact fun h => hret (hbits.mp h)
        rw [if_neg (by simp [hret]), if_pos hne]
        rfl
    · rw [keyFromBase64As, fromBase64, if_pos (.inr hl), dif_neg fun h => hl (hlast.mp h.2)]
      rfl
  · rw [keyFromBase64As, fromBase64, if_pos (.inl hlen), dif_neg fun h => hlen (hlength ▸ h.1)]
    rfl

theorem widen_ascii {s : JString} (h : IsAscii s) : widen (ascii s) = s := by
  rw [widen, ascii, List.map_map]
  refine (List.map_congr_left fun c hc => ?_).trans (List.map_id s)
  exact toUInt16_toUInt8 (h c hc)

/-- The native tools read a key that the app printed. -/
theorem keyFromBase64_toBase64 (k : Key) : keyFromBase64 (ascii k.toBase64) = some k.bytes := by
  rw [keyFromBase64, keyFromBase64As_eq, widen_ascii k.isAscii_toBase64, fromBase64_toBase64]
  rfl

/-! ## The other functions of `encoding.c` -/

/-- A byte as an `int` or an `unsigned int`. -/
def uint (b : UInt8) : BitVec 32 := b.toBitVec.setWidth 32

/-- Assignment to a `uint8_t` or a `char`. -/
def trunc (v : BitVec 32) : UInt8 := UInt8.ofBitVec (v.setWidth 8)

/-- A character of `encode_base64`. -/
def charEncode (v : BitVec 32) : UInt8 :=
  trunc (v + 0x41 + ((25 - v).sshiftRight 8 &&& 6) - ((51 - v).sshiftRight 8 &&& 75)
    - ((61 - v).sshiftRight 8 &&& 15) + ((62 - v).sshiftRight 8 &&& 3))

def charsInput (x y z : UInt8) : List (BitVec 32) :=
  [(uint x >>> 2) &&& 63, (uint x <<< 4 ||| uint y >>> 4) &&& 63, (uint y <<< 2 ||| uint z >>> 6) &&& 63,
    uint z &&& 63]

def charsEncode (x y z : UInt8) : Bytes := (charsInput x y z).map charEncode

/-- The loop of `key_to_base64`, without the final NUL. -/
def keyToBase64 : Bytes → Bytes
  | [x, y] => (charsEncode x y 0).dropLast ++ [byte '=']
  | x :: y :: z :: rest => charsEncode x y z ++ keyToBase64 rest
  | _ => []

/-- A character of `key_to_hex`. -/
def charHex (v : BitVec 32) : UInt8 := trunc (87 + v + (((v - 10) >>> 8) &&& ~~~38))

def keyToHex (key : Bytes) : Bytes := key.flatMap fun b => [charHex (uint b >>> 4), charHex (uint b &&& 0xf)]

/-- The variables of `key_from_hex`, all of them bytes. -/
def charNum (c : UInt8) : UInt8 := trunc (uint c ^^^ 48)
def charNum0 (c : UInt8) : UInt8 := trunc ((uint (charNum c) - 10) >>> 8)
def charAlpha (c : UInt8) : UInt8 := trunc ((uint c &&& ~~~32) - 55)
def charAlpha0 (c : UInt8) : UInt8 := trunc (((uint (charAlpha c) - 10) ^^^ (uint (charAlpha c) - 16)) >>> 8)

/-- What a character adds to `ret`. -/
def charRet (c : UInt8) : UInt8 := trunc ((uint (charNum0 c ||| charAlpha0 c) - 1).sshiftRight 8)

def charVal (c : UInt8) : UInt8 := (charNum0 c &&& charNum c) ||| (charAlpha0 c &&& charAlpha c)

/-- The loop of `key_from_hex`: `ret` and the key. -/
def keyHexChunks : Bytes → UInt8 × Bytes
  | c :: d :: rest =>
    let (ret, key) := keyHexChunks rest
    (charRet c ||| charRet d ||| ret, (trunc (uint (charVal c) * 16) ||| charVal d) :: key)
  | _ => (0, [])

def keyFromHex (hex : Bytes) : Option Bytes :=
  if hex.length ≠ 64 then none
  else if retOk (keyHexChunks hex).1 then some (keyHexChunks hex).2
  else none

/-! ## The native codec is exact -/

open Rfc4648

set_option maxRecDepth 4000 in
theorem charEncode_wide (s : BitVec 6) : charEncode (wide s) = byte (letter s) :=
  forall_six (p := fun s => charEncode (wide s) = byte (letter s)) (by decide) s

set_option maxRecDepth 4000 in
theorem toUInt16_letter (s : BitVec 6) : (byte (letter s)).toUInt16 = unit (letter s) :=
  forall_six (p := fun s => (byte (letter s)).toUInt16 = unit (letter s)) (by decide) s

theorem charsInput_eq (x y z : UInt8) : charsInput x y z = (sextets x y z).map wide := by
  simp only [charsInput, sextets, List.map_cons, List.map_nil, List.cons.injEq, and_true]
  refine ⟨?_, ?_, ?_, ?_⟩ <;>
  · apply BitVec.eq_of_getLsbD_eq
    intro i hi
    simp only [uint, wide, BitVec.getLsbD_setWidth, BitVec.getLsbD_extractLsb', BitVec.getLsbD_append,
      BitVec.getLsbD_or, BitVec.getLsbD_shiftLeft, BitVec.getLsbD_and, BitVec.getLsbD_ushiftRight,
      KeyLemmas.getLsbD_63]
    grind

theorem charsEncode_eq (x y z : UInt8) : charsEncode x y z = ((sextets x y z).map letter).map byte := by
  unfold charsEncode
  rw [charsInput_eq, List.map_map, List.map_map]
  exact List.map_congr_left fun s _ => charEncode_wide s

theorem keyToBase64_eq {bs : Bytes} (h : Chunked.Triples bs) :
    keyToBase64 bs = (encode64 bs).map byte := by
  induction h with
  | last x y =>
    unfold keyToBase64 encode64
    rw [charsEncode_eq, List.map_append]
    rfl
  | step x y z w rest _ ih =>
    unfold keyToBase64 encode64
    rw [charsEncode_eq, ih, List.map_append]

/-- A base 64 text is the same in bytes and in Java characters. -/
theorem widen_encode64 (bs : Bytes) : widen ((encode64 bs).map byte) = (encode64 bs).map unit := by
  unfold widen
  rw [List.map_map]
  refine List.map_congr_left fun c hc => ?_
  rcases mem_encode64 hc with rfl | ⟨s, rfl⟩
  · decide
  · exact toUInt16_letter s

theorem widen_injective : Function.Injective widen :=
  List.map_injective_iff.mpr fun _ _ h => UInt8.toUInt16_inj.mp h

/-- `key_from_base64` accepts the base 64 texts of keys and nothing else. -/
theorem keyFromBase64As_iff (signed : Bool) (s key : Bytes) :
    keyFromBase64As signed s = some key ↔ key.length = 32 ∧ s = (encode64 key).map byte := by
  have hnarrow : ∀ c ∈ widen s, c < 256 := by
    intro c hc
    obtain ⟨b, -, rfl⟩ := List.mem_map.mp hc
    rw [UInt16.lt_iff_toNat_lt, UInt8.toNat_toUInt16]
    exact b.toNat_lt
  rw [keyFromBase64As_eq, Option.map_eq_some_iff]
  constructor
  · rintro ⟨k, hok, rfl⟩
    have htext := eq_encode64_of_fromBase64 (Checked.toOption_eq_some.mp hok) hnarrow
    rw [← widen_encode64] at htext
    exact ⟨k.length_eq, widen_injective htext⟩
  · rintro ⟨hlength, rfl⟩
    refine ⟨⟨key, hlength⟩, Checked.toOption_eq_some.mpr ?_, rfl⟩
    rw [widen_encode64]
    exact fromBase64_encode64 ⟨key, hlength⟩

/-- `[0-9a-fA-F]` in bytes. -/
def isHexChar (c : UInt8) : Bool :=
  (byte '0' ≤ c && c ≤ byte '9') || (byte 'a' ≤ c && c ≤ byte 'f') || (byte 'A' ≤ c && c ≤ byte 'F')

theorem charRet_eq (c : UInt8) :
    (charRet c = 0 ↔ isHexChar c = true) ∧ (isHexChar c = true ↔ (value16 c.toNat).isSome) ∧
      ∀ v ∈ value16 c.toNat, charVal c = UInt8.ofBitVec (v.setWidth 8) :=
  forall_byte (p := fun c => (charRet c = 0 ↔ isHexChar c = true) ∧
    (isHexChar c = true ↔ (value16 c.toNat).isSome) ∧
    ∀ v ∈ value16 c.toNat, charVal c = UInt8.ofBitVec (v.setWidth 8)) (by decide +kernel) c

theorem keyHexChunks_ret {s : Bytes} (h : Chunked.Pairs s) :
    (keyHexChunks s).1 = 0 ↔ ∀ c ∈ s, isHexChar c = true := by
  induction h with
  | nil => exact iff_of_true rfl (List.forall_mem_nil _)
  | step c d rest _ ih =>
    have hret : (keyHexChunks (c :: d :: rest)).1 = charRet c ||| charRet d ||| (keyHexChunks rest).1 := rfl
    rw [hret, UInt8.or_eq_zero_iff, UInt8.or_eq_zero_iff, ih, and_assoc, (charRet_eq c).1, (charRet_eq d).1]
    simp only [List.forall_mem_cons]

theorem join_chars (v w : BitVec 4) :
    trunc (uint (UInt8.ofBitVec (v.setWidth 8)) * 16) ||| UInt8.ofBitVec (w.setWidth 8) =
      UInt8.ofBitVec (v ++ w) := by
  have hall : ∀ v w : Fin 16, trunc (uint (UInt8.ofBitVec ((BitVec.ofFin v : BitVec 4).setWidth 8)) * 16) |||
      UInt8.ofBitVec ((BitVec.ofFin w : BitVec 4).setWidth 8) =
      UInt8.ofBitVec ((BitVec.ofFin v : BitVec 4) ++ (BitVec.ofFin w : BitVec 4)) := by decide
  exact hall v.toFin w.toFin

theorem decode16_keyHexChunks {s : Bytes} (h : Chunked.Pairs s)
    (hdigits : ∀ c ∈ s, isHexChar c = true) :
    decode16 (s.map UInt8.toNat) = some (keyHexChunks s).2 := by
  induction h with
  | nil => rfl
  | step c d rest _ ih =>
    simp only [List.forall_mem_cons] at hdigits
    obtain ⟨hc, hd, hrest⟩ := hdigits
    obtain ⟨-, hciff, hcval⟩ := charRet_eq c
    obtain ⟨-, hdiff, hdval⟩ := charRet_eq d
    obtain ⟨high, hhigh⟩ := Option.isSome_iff_exists.mp (hciff.mp hc)
    obtain ⟨low, hlow⟩ := Option.isSome_iff_exists.mp (hdiff.mp hd)
    refine decode16_cons_cons.mpr ⟨high, low, _, hhigh, hlow, ih hrest, ?_⟩
    rw [← join_chars, ← hcval high hhigh, ← hdval low hlow]
    rfl

/-- `key_from_hex` accepts texts of 64 digits and nothing else, and stores what they denote. -/
theorem keyFromHex_iff (s key : Bytes) :
    keyFromHex s = some key ↔
      (s.length = 64 ∧ ∀ c ∈ s, isHexChar c = true) ∧ decode16 (s.map UInt8.toNat) = some key := by
  unfold keyFromHex
  by_cases hlength : s.length = 64
  · rw [if_neg (not_not_intro hlength), retOk_eq]
    have hpairs := Chunked.pairs_of_length (n := 32) hlength
    have hret := keyHexChunks_ret hpairs
    by_cases hzero : (keyHexChunks s).1 = 0
    · have hdigits := hret.mp hzero
      rw [if_pos (beq_iff_eq.mpr hzero), decode16_keyHexChunks hpairs hdigits]
      exact ⟨fun h => ⟨⟨hlength, hdigits⟩, h⟩, fun h => h.2⟩
    · rw [if_neg fun h => hzero (beq_iff_eq.mp h)]
      exact iff_of_false (fun h => by cases h) fun h => hzero (hret.mpr h.1.2)
  · rw [if_pos hlength]
    exact iff_of_false (fun h => by cases h) fun h => hlength h.1.1

theorem charHex_setWidth (v : BitVec 4) : charHex (v.setWidth 32) = byte (digit16 v) := by
  have hall : ∀ n : Fin 16, charHex ((BitVec.ofFin n : BitVec 4).setWidth 32) = byte (digit16 (BitVec.ofFin n)) := by
    decide
  exact hall v.toFin

theorem keyToHex_eq (bs : Bytes) : keyToHex bs = (encode16 bs).map byte := by
  have hhigh (b : UInt8) : uint b >>> 4 = (b.toBitVec.extractLsb' 4 4).setWidth 32 := by
    apply BitVec.eq_of_getLsbD_eq
    intro i hi
    simp only [uint, BitVec.getLsbD_ushiftRight, BitVec.getLsbD_setWidth, BitVec.getLsbD_extractLsb']
    grind
  have hlow (b : UInt8) : uint b &&& 0xf = (b.toBitVec.extractLsb' 0 4).setWidth 32 := by
    apply BitVec.eq_of_getLsbD_eq
    intro i hi
    simp only [uint, BitVec.getLsbD_and, BitVec.getLsbD_setWidth, BitVec.getLsbD_extractLsb', getLsbD_0xf]
    grind
  unfold keyToHex encode16
  rw [List.map_flatMap]
  refine List.flatMap_congr fun b _ => ?_
  rw [hhigh, hlow, charHex_setWidth, charHex_setWidth]
  rfl

theorem decode16_keyToHex (bs : Bytes) : decode16 ((keyToHex bs).map UInt8.toNat) = some bs := by
  have hdigit : ∀ i : Fin 16, (byte (digit16 (BitVec.ofFin i))).toNat = (digit16 (BitVec.ofFin i)).toNat := by
    decide
  rw [keyToHex_eq, List.map_map, ← decode16_encode16 bs]
  refine congrArg decode16 (List.map_congr_left fun c hc => ?_)
  obtain ⟨n, rfl⟩ := mem_encode16 hc
  exact hdigit n.toFin

theorem keyFromHex_keyToHex (k : Key) : keyFromHex (keyToHex k.bytes) = some k.bytes := by
  have hdecode := decode16_keyToHex k.bytes
  have hlength : (keyToHex k.bytes).length = 64 := by
    have := length_decode16 hdecode
    rwa [List.length_map, k.length_eq] at this
  have hdigits := (exists_decode16 (Chunked.pairs_of_length (n := 32) (by rw [List.length_map, hlength]))).mp ⟨_, hdecode⟩
  refine (keyFromHex_iff _ _).mpr ⟨⟨hlength, fun c hc => ?_⟩, hdecode⟩
  exact (charRet_eq c).2.1.mpr (hdigits c.toNat (List.mem_map_of_mem hc))

/-- Whether `char` is signed or not: the native readers accept exactly the encodings of keys and store
the key, and read back what the printers wrote. -/
theorem native_codec_exact (signed : Bool) :
    (∀ s key, keyFromBase64As signed s = some key ↔ key.length = 32 ∧ s = (encode64 key).map byte) ∧
      (∀ s key, keyFromHex s = some key ↔
        (s.length = 64 ∧ ∀ c ∈ s, isHexChar c = true) ∧ decode16 (s.map UInt8.toNat) = some key) ∧
      ∀ k : Key, keyFromBase64As signed (keyToBase64 k.bytes) = some k.bytes ∧
        keyFromHex (keyToHex k.bytes) = some k.bytes := by
  refine ⟨keyFromBase64As_iff signed, keyFromHex_iff, fun k => ⟨?_, keyFromHex_keyToHex k⟩⟩
  rw [keyToBase64_eq (Chunked.triples_of_length (n := 10) k.length_eq)]
  exact (keyFromBase64As_iff signed _ _).mpr ⟨k.length_eq, rfl⟩

end WgAndroid
