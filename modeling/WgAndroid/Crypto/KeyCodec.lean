import WgAndroid.Crypto.Key
import WgAndroid.Java.Utf8
import WgAndroid.Lib.Rfc4648

/-!
# What the key codecs accept

The printers of `Key` write the encodings of RFC 4648. Its readers are mask arithmetic that was written
for characters of eight bits, and Java's have sixteen.

Results:
1. `toBase64_eq`, `toHex_eq`: the printers write base 64 and lower case base 16.
2. `sextet_cases`: whatever the character, the base64 mask arithmetic gives six bits or all ones.
3. `fromBase64_exact`, `fromHex_exact`: for which texts the readers accept exactly the encodings.
-/

namespace WgAndroid.Key

open KeyLemmas Rfc4648

theorem eq_of_bytes {k k' : Key} (h : k.bytes = k'.bytes) : k = k' := by
  cases k
  cases k'
  cases h
  rfl

/-! ## The base64 printer -/

/-- Six bits as an `int`. -/
abbrev wide (s : BitVec 6) : BitVec 32 := s.setWidth 32

theorem forall_six {p : BitVec 6 → Prop} (h : ∀ n : Fin 64, p (BitVec.ofFin n)) (s : BitVec 6) : p s := h s.toFin

/-- The mask arithmetic of the printer and of the reader, on the 64 letters. -/
theorem sextet_table (s : BitVec 6) :
    encodeChar (wide s) = unit (letter s) ∧ sextet (unit (letter s)) = wide s :=
  forall_six (p := fun s => encodeChar (wide s) = unit (letter s) ∧ sextet (unit (letter s)) = wide s)
    (by decide +kernel) s

/-- The array `input` holds the groups of six bits. -/
theorem input_eq (x y z : UInt8) :
    [input0 x, input1 x y, input2 y z, input3 z] = (sextets x y z).map wide := by
  simp only [sextets, List.map_cons, List.map_nil, List.cons.injEq, and_true]
  refine ⟨?_, ?_, ?_, ?_⟩ <;>
  · apply BitVec.eq_of_getLsbD_eq
    intro i hi
    simp only [input0, input1, input2, input3, int, wide, BitVec.getLsbD_setWidth, BitVec.getLsbD_or,
      BitVec.getLsbD_shiftLeft, BitVec.getLsbD_and, BitVec.getLsbD_ushiftRight, BitVec.getLsbD_signExtend,
      BitVec.getLsbD_extractLsb', BitVec.getLsbD_append, getLsbD_63, getLsbD_0xff]
    grind

theorem encodeBase64_eq (x y z : UInt8) :
    encodeBase64 x y z = ((sextets x y z).map letter).map unit := by
  have hencode : encodeBase64 x y z = [input0 x, input1 x y, input2 y z, input3 z].map encodeChar := rfl
  rw [hencode, input_eq, List.map_map, List.map_map]
  exact List.map_congr_left fun s _ => (sextet_table s).1

theorem encodeChunks_eq {bs : List UInt8} (h : Chunked.Triples bs) :
    encodeChunks bs = (encode64 bs).map unit := by
  induction h with
  | last x y =>
    unfold encodeChunks encode64
    rw [encodeBase64_eq, List.map_append]
    rfl
  | step x y z w rest _ ih =>
    unfold encodeChunks encode64
    rw [encodeBase64_eq, ih, List.map_append]

/-- `toBase64` writes the base 64 text of the key. -/
theorem toBase64_eq (k : Key) : k.toBase64 = (encode64 k.bytes).map unit :=
  encodeChunks_eq (Chunked.triples_of_length (n := 10) k.length_eq)

/-! ## The masks of the base64 reader -/

/-- The mask of a range of characters, given by the characters before and after it. -/
def mask (lo hi : Nat) (c : BitVec 32) : BitVec 32 :=
  ((BitVec.ofNat 32 lo - c) &&& (c - BitVec.ofNat 32 hi)) >>> 8

theorem toNat_mask {lo hi n : Nat} (hlo : lo < 256) (hhi : hi ≤ 256) (hn : n < 65536) :
    (mask lo hi (BitVec.ofNat 32 n)).toNat =
      ((2 ^ 32 - n + lo) % 2 ^ 32 / 256) &&& ((2 ^ 32 - hi + n) % 2 ^ 32 / 256) := by
  unfold mask
  rw [BitVec.ushiftRight_and_distrib, BitVec.toNat_and, BitVec.toNat_ushiftRight, BitVec.toNat_ushiftRight,
    BitVec.toNat_sub, BitVec.toNat_sub, BitVec.toNat_ofNat, BitVec.toNat_ofNat, BitVec.toNat_ofNat,
    Nat.shiftRight_eq_div_pow, Nat.shiftRight_eq_div_pow, Nat.mod_eq_of_lt (by omega : n < 2 ^ 32),
    Nat.mod_eq_of_lt (by omega : lo < 2 ^ 32), Nat.mod_eq_of_lt (by omega : hi < 2 ^ 32)]

theorem sub_succ_and {n h : Nat} (hlt : h < 2 ^ n) : (2 ^ n - (h + 1)) &&& h = 0 := by
  refine Nat.eq_of_testBit_eq fun i => ?_
  rw [Nat.testBit_and, Nat.testBit_two_pow_sub_succ hlt, Nat.zero_testBit, Bool.and_assoc, Bool.not_and_self,
    Bool.and_false]

/-- A character whose low byte is outside of the range has no mask: the high bytes of the two
differences have no bit in common. -/
theorem mask_outside {lo hi n : Nat} (hlo : lo < hi) (hhi : hi ≤ 256) (hn : n < 65536)
    (hout : n % 256 ≤ lo ∨ hi ≤ n % 256) : mask lo hi (BitVec.ofNat 32 n) = 0 := by
  refine BitVec.eq_of_toNat_eq ?_
  rw [toNat_mask (by omega) hhi hn]
  by_cases hsmall : n ≤ lo
  · rw [show (2 ^ 32 - n + lo) % 2 ^ 32 / 256 = 0 by omega, Nat.zero_and]
    rfl
  · rcases hout with hle | hge
    · have hfirst : (2 ^ 32 - n + lo) % 2 ^ 32 / 256 = 2 ^ 24 - (n / 256 - 1 + 1) := by omega
      have hsecond : (2 ^ 32 - hi + n) % 2 ^ 32 / 256 = n / 256 - 1 := by omega
      rw [hfirst, hsecond]
      exact sub_succ_and (by omega)
    · have hfirst : (2 ^ 32 - n + lo) % 2 ^ 32 / 256 = 2 ^ 24 - (n / 256 + 1) := by omega
      have hsecond : (2 ^ 32 - hi + n) % 2 ^ 32 / 256 = n / 256 := by omega
      rw [hfirst, hsecond]
      exact sub_succ_and (by omega)

set_option maxRecDepth 2000 in
/-- A wide character whose low byte is in the range has a mask of at most seven bits. It need not be
zero: this is where the arithmetic goes wrong. -/
theorem mask_inside {lo hi n : Nat} (hhi : hi ≤ 256) (hn : n < 65536) (hwide : 256 ≤ n)
    (hlo : lo < n % 256) (hup : n % 256 < hi) : (mask lo hi (BitVec.ofNat 32 n)).toNat < 128 := by
  have hbits : ∀ h : Fin 255, (2 ^ 24 - (h.val + 2)) &&& h.val < 128 := by decide
  rw [toNat_mask (by omega) hhi hn]
  have hfirst : (2 ^ 32 - n + lo) % 2 ^ 32 / 256 = 2 ^ 24 - (n / 256 - 1 + 2) := by omega
  have hsecond : (2 ^ 32 - hi + n) % 2 ^ 32 / 256 = n / 256 - 1 := by omega
  rw [hfirst, hsecond]
  exact hbits ⟨n / 256 - 1, by omega⟩

/-- What a range adds for a wide character: nothing, or at most 64 if the low byte is in the range. -/
theorem term_cases (lo hi : Nat) (v : BitVec 32) {n : Nat} (hlo : lo < hi) (hhi : hi ≤ 256)
    (hn : n < 65536) (hwide : 256 ≤ n) (hv : lo < n % 256 → n % 256 < hi → v.toNat % 128 ≤ 64) :
    (mask lo hi (BitVec.ofNat 32 n) &&& v).toNat = 0 ∨
      (lo < n % 256 ∧ n % 256 < hi) ∧ (mask lo hi (BitVec.ofNat 32 n) &&& v).toNat ≤ 64 := by
  by_cases hin : lo < n % 256 ∧ n % 256 < hi
  · refine .inr ⟨hin, ?_⟩
    have hmask := mask_inside hhi hn hwide hin.1 hin.2
    have hlt : (mask lo hi (BitVec.ofNat 32 n)).toNat &&& v.toNat < 2 ^ 7 :=
      Nat.lt_of_le_of_lt Nat.and_le_left hmask
    rw [BitVec.toNat_and, ← Nat.mod_eq_of_lt hlt, Nat.and_mod_two_pow]
    exact Nat.and_le_right.trans (hv hin.1 hin.2)
  · refine .inl ?_
    rw [mask_outside hlo hhi hn (by omega)]
    exact congrArg BitVec.toNat BitVec.zero_and

/-- All ones, or six bits. -/
def Decoded (v : BitVec 32) : Prop := v = -1 ∨ ∃ s : BitVec 6, v = wide s

theorem decoded_of_toNat {v : BitVec 32} (h : v.toNat < 64) : Decoded v := by
  refine .inr ⟨BitVec.ofNat 6 v.toNat, BitVec.eq_of_toNat_eq ?_⟩
  rw [BitVec.toNat_setWidth, BitVec.toNat_ofNat]
  omega

theorem decoded_add {t : BitVec 32} (ht : t.toNat ≤ 64) : Decoded (-1 + t) := by
  by_cases hzero : t = 0
  · rw [hzero]
    exact .inl rfl
  · refine decoded_of_toNat ?_
    have hpos : t.toNat ≠ 0 := fun h => hzero (BitVec.eq_of_toNat_eq h)
    have hone : (-1 : BitVec 32).toNat = 2 ^ 32 - 1 := rfl
    rw [BitVec.toNat_add, hone]
    omega

theorem sextet_mask {n : Nat} (hn : n < 65536) :
    sextet (UInt16.ofNat n) = (-1 : BitVec 32)
      + (mask 0x40 0x5B (BitVec.ofNat 32 n) &&& (BitVec.ofNat 32 n - 64))
      + (mask 0x60 0x7B (BitVec.ofNat 32 n) &&& (BitVec.ofNat 32 n - 70))
      + (mask 0x2F 0x3A (BitVec.ofNat 32 n) &&& (BitVec.ofNat 32 n + 5))
      + (mask 0x2A 0x2C (BitVec.ofNat 32 n) &&& 63)
      + (mask 0x2E 0x30 (BitVec.ofNat 32 n) &&& 64) := by
  have hc : (UInt16.ofNat n).toBitVec.setWidth 32 = BitVec.ofNat 32 n := by
    refine BitVec.eq_of_toNat_eq ?_
    simp
    omega
  unfold sextet
  rw [hc]
  rfl

/-- The low byte is in at most one of the five ranges. -/
theorem sextet_wide {n : Nat} (hn : n < 65536) (hwide : 256 ≤ n) : Decoded (sextet (UInt16.ofNat n)) := by
  have hupper := term_cases 0x40 0x5B (BitVec.ofNat 32 n - 64) (by decide) (by decide) hn hwide
    fun _ _ => by rw [BitVec.toNat_sub, BitVec.toNat_ofNat]; simp; omega
  have hlower := term_cases 0x60 0x7B (BitVec.ofNat 32 n - 70) (by decide) (by decide) hn hwide
    fun _ _ => by rw [BitVec.toNat_sub, BitVec.toNat_ofNat]; simp; omega
  have hdigit := term_cases 0x2F 0x3A (BitVec.ofNat 32 n + 5) (by decide) (by decide) hn hwide
    fun _ _ => by rw [BitVec.toNat_add, BitVec.toNat_ofNat]; simp; omega
  have hplus := term_cases 0x2A 0x2C 63 (by decide) (by decide) hn hwide fun _ _ => by decide
  have hslash := term_cases 0x2E 0x30 64 (by decide) (by decide) hn hwide fun _ _ => by decide
  rw [sextet_mask hn]
  simp only [BitVec.add_assoc]
  refine decoded_add ?_
  simp only [BitVec.toNat_add]
  omega

theorem forall_narrow {p : UInt16 → Prop} (h : ∀ n : Fin 256, p (UInt16.ofNat n.val)) {c : UInt16}
    (hc : c < 256) : p c := by
  have := h ⟨c.toNat, hc⟩
  rwa [UInt16.ofNat_toNat] at this

/-- Six bits for a base64 letter, and all ones for any other character of eight bits. -/
theorem sextet_narrow {c : UInt16} (h : c < 256) :
    sextet c = -1 ∨ ∃ s, c = unit (letter s) ∧ sextet c = wide s := by
  have hcase : sextet c = -1 ∨ c = unit (letter ((sextet c).setWidth 6)) :=
    forall_narrow (p := fun c => sextet c = -1 ∨ c = unit (letter ((sextet c).setWidth 6))) (by decide +kernel) h
  refine hcase.imp_right fun hc => ⟨_, hc, ?_⟩
  rw [← (sextet_table _).2, ← hc]

/-- Whatever the character, the mask arithmetic gives six bits or all ones. -/
theorem sextet_cases (c : UInt16) : Decoded (sextet c) := by
  by_cases h : c < 256
  · rcases sextet_narrow h with hone | ⟨s, -, hs⟩
    · exact .inl hone
    · exact .inr ⟨s, hs⟩
  · have hwide : 256 ≤ c.toNat := by
      rw [UInt16.lt_iff_toNat_lt] at h
      exact not_lt.mp h
    rw [(UInt16.ofNat_toNat (x := c)).symm]
    exact sextet_wide c.toNat_lt hwide

/-! ## What the base64 reader accepts -/

theorem wide_ne (s : BitVec 6) : wide s ≠ -1 :=
  forall_six (p := fun s => wide s ≠ -1) (by decide) s

/-- Above the six bits there are only ones or only zeros. -/
theorem sextet_getLsbD (c : UInt16) {i : Nat} (hi : 6 ≤ i) (hi' : i < 32) :
    (sextet c).getLsbD i = decide (sextet c = -1) := by
  rcases sextet_cases c with h | ⟨s, h⟩
  · rw [h, decide_eq_true rfl]
    exact BitVec.getLsbD_allOnes.trans (decide_eq_true hi')
  · rw [h, decide_eq_false (wide_ne s), BitVec.getLsbD_setWidth, BitVec.getLsbD_of_ge s i hi, Bool.and_false]

theorem ushiftRight_31 (v : BitVec 32) : v >>> 31 = 0 ↔ v.getLsbD 31 = false := by
  constructor
  · intro h
    have hbit := congrArg (BitVec.getLsbD · 0) h
    rwa [BitVec.getLsbD_ushiftRight] at hbit
  · intro h
    refine BitVec.eq_of_getLsbD_eq fun i hi => ?_
    rw [BitVec.getLsbD_ushiftRight]
    cases i with
    | zero => exact h
    | succ i => exact (BitVec.getLsbD_of_ge v _ (by omega)).trans BitVec.getLsbD_zero.symm

/-- The top bit of a chunk is clear exactly if all of its characters give six bits. -/
theorem decodeBase64_top (a b c d : UInt16) :
    decodeBase64 a b c d >>> 31 = 0 ↔ sextet a ≠ -1 ∧ sextet b ≠ -1 ∧ sextet c ≠ -1 ∧ sextet d ≠ -1 := by
  have hbit : (decodeBase64 a b c d).getLsbD 31 = ((sextet a).getLsbD 13 || (sextet b).getLsbD 19 ||
      (sextet c).getLsbD 25 || (sextet d).getLsbD 31) := by
    simp only [decodeBase64, BitVec.getLsbD_or, BitVec.getLsbD_shiftLeft]
    simp
  rw [ushiftRight_31, hbit, sextet_getLsbD a (by decide) (by decide), sextet_getLsbD b (by decide) (by decide),
    sextet_getLsbD c (by decide) (by decide), sextet_getLsbD d (by decide) (by decide)]
  simp only [Bool.or_eq_false_iff, decide_eq_false_iff_not, and_assoc, ne_eq]

/-- The low byte of the end segment is what the third character has beyond the second byte. -/
theorem decodeBase64_low (a b c : UInt16) :
    decodeBase64 a b c (unit 'A') &&& (0xff : BitVec 32) = (sextet c &&& (3 : BitVec 32)) <<< 6 := by
  have hA : sextet (unit 'A') = 0 := by decide
  have hthree (i : Nat) : (3 : BitVec 32).getLsbD i = decide (i < 2) := getLsbD_ones (k := 2) (by decide) i
  unfold decodeBase64
  rw [hA]
  apply BitVec.eq_of_getLsbD_eq
  intro i hi
  simp only [BitVec.getLsbD_or, BitVec.getLsbD_shiftLeft, BitVec.getLsbD_and, getLsbD_0xff, hthree]
  grind

theorem shiftLeft_low (v : BitVec 32) :
    (v &&& (3 : BitVec 32)) <<< 6 = 0 ↔ v &&& (3 : BitVec 32) = 0 := by
  have hlt : (v &&& (3 : BitVec 32)).toNat ≤ 3 := by
    rw [BitVec.toNat_and]
    exact Nat.and_le_right
  have hzero : (0 : BitVec 32).toNat = 0 := rfl
  rw [← BitVec.toNat_inj, ← BitVec.toNat_inj, BitVec.toNat_shiftLeft, Nat.shiftLeft_eq, hzero]
  omega

theorem or_eq_zero {v w : BitVec 32} : v ||| w = 0 ↔ v = 0 ∧ w = 0 := BitVec.or_eq_zero_iff

/-- The check of the reader: every character gives six bits, and the last one only such as fit into
the two bytes. -/
theorem decodeChunks_ret {s : JString} (h : Chunked.Quads s) :
    (decodeChunks s).1 = 0 ↔ (∀ c ∈ s.dropLast, sextet c ≠ -1) ∧
      ∀ c ∈ s.dropLast.getLast?, sextet c &&& (3 : BitVec 32) = 0 := by
  induction h with
  | last a b c d =>
    have hA : sextet (unit 'A') ≠ -1 := by decide
    have hret : (decodeChunks [a, b, c, d]).1 = (decodeBase64 a b c (unit 'A') >>> 31) |||
        (decodeBase64 a b c (unit 'A') &&& (0xff : BitVec 32)) := rfl
    rw [hret, or_eq_zero, decodeBase64_low, shiftLeft_low, decodeBase64_top]
    simp only [List.dropLast_cons_cons, List.dropLast_singleton, List.forall_mem_cons, List.not_mem_nil,
      List.getLast?_cons_cons, List.getLast?_singleton, Option.mem_some_iff, forall_eq', hA, ne_eq,
      not_false_eq_true, and_true, false_imp_iff, implies_true]
  | step a b c d e f rest _ ih =>
    have hret : (decodeChunks (a :: b :: c :: d :: e :: f :: rest)).1 =
        (decodeBase64 a b c d >>> 31) ||| (decodeChunks (e :: f :: rest)).1 := rfl
    rw [hret, or_eq_zero, decodeBase64_top, ih]
    simp only [List.dropLast_cons_cons, List.forall_mem_cons, List.getLast?_cons_cons, and_assoc]

/-! ## Which texts it reads right -/

/-- Four groups of six bits as three bytes. -/
theorem sextets_lowByte (p q r t : BitVec 6) :
    let val := wide p <<< 18 ||| wide q <<< 12 ||| wide r <<< 6 ||| wide t
    sextets (lowByte (val >>> 16)) (lowByte (val >>> 8)) (lowByte val) = [p, q, r, t] := by
  intro val
  simp only [sextets, List.cons.injEq, and_true]
  refine ⟨?_, ?_, ?_, ?_⟩ <;>
  · apply BitVec.eq_of_getLsbD_eq
    intro i hi
    simp only [val, lowByte, wide, UInt8.toBitVec_ofBitVec, BitVec.getLsbD_extractLsb', BitVec.getLsbD_append,
      BitVec.getLsbD_or, BitVec.getLsbD_shiftLeft, BitVec.getLsbD_and, BitVec.getLsbD_ushiftRight,
      BitVec.getLsbD_setWidth, getLsbD_0xff]
    grind

/-- A chunk of base64 letters is what its three bytes are written as. -/
theorem encodeBase64_decodeBase64 {a b c d : UInt16} (ha : a < 256) (hb : b < 256) (hc : c < 256) (hd : d < 256)
    (h : decodeBase64 a b c d >>> 31 = 0) :
    encodeBase64 (lowByte (decodeBase64 a b c d >>> 16)) (lowByte (decodeBase64 a b c d >>> 8))
      (lowByte (decodeBase64 a b c d)) = [a, b, c, d] := by
  obtain ⟨ha', hb', hc', hd'⟩ := (decodeBase64_top a b c d).mp h
  obtain ⟨p, hap, hp⟩ := (sextet_narrow ha).resolve_left ha'
  obtain ⟨q, hbq, hq⟩ := (sextet_narrow hb).resolve_left hb'
  obtain ⟨r, hcr, hr⟩ := (sextet_narrow hc).resolve_left hc'
  obtain ⟨t, hdt, ht⟩ := (sextet_narrow hd).resolve_left hd'
  have hval : decodeBase64 a b c d = wide p <<< 18 ||| wide q <<< 12 ||| wide r <<< 6 ||| wide t := by
    rw [← hp, ← hq, ← hr, ← ht]
    rfl
  rw [encodeBase64_eq, hval, sextets_lowByte p q r t, hap, hbq, hcr, hdt]
  rfl

theorem lowByte_eq_zero {v : BitVec 32} (h : v &&& (0xff : BitVec 32) = 0) : lowByte v = 0 := by
  unfold lowByte
  rw [h]
  rfl

/-- A text of narrow characters that passes the check is what its key is written as. -/
theorem encodeChunks_decodeChunks {s : JString} (h : Chunked.Quads s)
    (hlast : s.getLast? = some (unit '=')) (hnarrow : ∀ c ∈ s, c < 256) (hret : (decodeChunks s).1 = 0) :
    encodeChunks (decodeChunks s).2 = s := by
  induction h with
  | last a b c d =>
    have hd : d = unit '=' := Option.some.inj hlast
    have hret' : (decodeBase64 a b c (unit 'A') >>> 31) |||
        (decodeBase64 a b c (unit 'A') &&& (0xff : BitVec 32)) = 0 := hret
    obtain ⟨htop, hlow⟩ := or_eq_zero.mp hret'
    simp only [List.forall_mem_cons] at hnarrow
    have hchunk := encodeBase64_decodeBase64 hnarrow.1 hnarrow.2.1 hnarrow.2.2.1 (by decide) htop
    rw [lowByte_eq_zero hlow] at hchunk
    show (encodeBase64 _ _ 0).dropLast ++ [unit '='] = _
    rw [hchunk, hd]
    rfl
  | step a b c d e f rest _ ih =>
    have hret' : (decodeBase64 a b c d >>> 31) ||| (decodeChunks (e :: f :: rest)).1 = 0 := hret
    obtain ⟨htop, hrest⟩ := or_eq_zero.mp hret'
    simp only [List.forall_mem_cons] at hnarrow
    obtain ⟨ha, hb, hc, hd, he, hf, hnarrow⟩ := hnarrow
    have hchunk := encodeBase64_decodeBase64 ha hb hc hd htop
    have ih' := ih hlast (by simp only [List.forall_mem_cons]; exact ⟨he, hf, hnarrow⟩) hrest
    show encodeBase64 _ _ _ ++ encodeChunks (decodeChunks (e :: f :: rest)).2 = _
    rw [hchunk, ih']
    rfl

/-- The form of the texts that the reader accepts. -/
def Shaped (s : JString) : Prop :=
  (s.length = 44 ∧ s.getLast? = some (unit '=')) ∧ (∀ c ∈ s.dropLast, sextet c ≠ -1) ∧
    ∀ c ∈ s.dropLast.getLast?, sextet c &&& (3 : BitVec 32) = 0

theorem fromBase64_ok_iff (s : JString) (k : Key) :
    fromBase64 s = .ok k ↔ Shaped s ∧ (decodeChunks s).2 = k.bytes := by
  unfold fromBase64 Shaped
  by_cases hform : s.length = 44 ∧ s.getLast? = some (unit '=')
  · rw [dif_pos hform, ← decodeChunks_ret (Chunked.quads_of_length (n := 10) hform.1)]
    by_cases hret : (decodeChunks s).1 = 0
    · rw [if_neg (not_not_intro hret)]
      obtain ⟨bytes, hlength⟩ := k
      simp [hform, hret]
    · rw [if_pos hret]
      exact iff_of_false (fun h => by cases h) fun h => hret h.1.2
  · rw [dif_neg hform]
    simp [hform]

theorem isAscii_toBase64 (k : Key) : IsAscii k.toBase64 := by
  intro c hc
  have hb := isBase64_of_mem_toBase64 hc
  simp only [KeyLemmas.isBase64, Bool.or_eq_true, beq_iff_eq] at hb
  rcases hb with ((h | rfl) | rfl) | rfl
  · exact ascii_of_isAlnum h
  all_goals decide

theorem encode64_narrow (k : Key) : ∀ c ∈ (encode64 k.bytes).map unit, c < 256 := by
  intro c hc
  rw [← toBase64_eq] at hc
  exact UInt16.lt_trans (k.isAscii_toBase64 c hc) (by decide)

theorem fromBase64_encode64 (k : Key) : fromBase64 ((encode64 k.bytes).map unit) = .ok k := by
  rw [← toBase64_eq]
  exact fromBase64_toBase64 k

/-- A text of narrow characters that is accepted is the base 64 text of the key. -/
theorem eq_encode64_of_fromBase64 {s : JString} {k : Key} (hok : fromBase64 s = .ok k)
    (hnarrow : ∀ c ∈ s, c < 256) : s = (encode64 k.bytes).map unit := by
  obtain ⟨hshaped, hbytes⟩ := (fromBase64_ok_iff s k).mp hok
  have hgroups := Chunked.quads_of_length (n := 10) hshaped.1.1
  have htext := encodeChunks_decodeChunks hgroups hshaped.1.2 hnarrow ((decodeChunks_ret hgroups).mpr hshaped.2)
  rw [← htext, hbytes]
  exact encodeChunks_eq (Chunked.triples_of_length (n := 10) k.length_eq)

theorem hexChar_setWidth (v : BitVec 4) : hexChar (v.setWidth 32) = unit (digit16 v) := by
  have hall : ∀ n : Fin 16, hexChar ((BitVec.ofFin n : BitVec 4).setWidth 32) = unit (digit16 (BitVec.ofFin n)) := by
    decide
  exact hall v.toFin

theorem getLsbD_0xf (i : Nat) : (0xf : BitVec 32).getLsbD i = decide (i < 4) := getLsbD_ones (k := 4) (by decide) i

theorem encodeHex_eq (b : UInt8) :
    encodeHex b = [digit16 (b.toBitVec.extractLsb' 4 4), digit16 (b.toBitVec.extractLsb' 0 4)].map unit := by
  have hhigh : (int b).sshiftRight 4 &&& 0xf = (b.toBitVec.extractLsb' 4 4).setWidth 32 := by
    apply BitVec.eq_of_getLsbD_eq
    intro i hi
    simp only [int, BitVec.getLsbD_and, BitVec.getLsbD_sshiftRight, BitVec.getLsbD_signExtend,
      BitVec.getLsbD_setWidth, BitVec.getLsbD_extractLsb', getLsbD_0xf]
    grind
  have hlow : int b &&& 0xf = (b.toBitVec.extractLsb' 0 4).setWidth 32 := by
    apply BitVec.eq_of_getLsbD_eq
    intro i hi
    simp only [int, BitVec.getLsbD_and, BitVec.getLsbD_signExtend, BitVec.getLsbD_setWidth,
      BitVec.getLsbD_extractLsb', getLsbD_0xf]
    grind
  unfold encodeHex
  rw [hhigh, hlow, hexChar_setWidth, hexChar_setWidth]
  rfl

/-- `toHex` writes the base 16 text of the key, in lower case. -/
theorem toHex_eq (k : Key) : k.toHex = (encode16 k.bytes).map unit := by
  unfold toHex encode16
  rw [List.map_flatMap]
  exact List.flatMap_congr fun b _ => encodeHex_eq b

/-- `[0-9a-fA-F]` -/
def isHexDigit (c : UInt16) : Bool := inRange '0' '9' c || inRange 'a' 'f' c || inRange 'A' 'F' c

/-- A narrow character passes the check exactly if it is a digit, and then `cVal` is its value. -/
theorem hexRet_narrow {c : UInt16} (h : c < 256) :
    (hexRet c = 0 ↔ isHexDigit c = true) ∧ (isHexDigit c = true ↔ (value16 c.toNat).isSome) ∧
      ∀ v ∈ value16 c.toNat, cVal c = v.setWidth 32 ∧ UInt16.ofNat (lower c.toNat) = toLower c :=
  forall_narrow (p := fun c => (hexRet c = 0 ↔ isHexDigit c = true) ∧
    (isHexDigit c = true ↔ (value16 c.toNat).isSome) ∧
    ∀ v ∈ value16 c.toNat, cVal c = v.setWidth 32 ∧ UInt16.ofNat (lower c.toNat) = toLower c)
    (by decide +kernel) h

theorem ret_eq_zero {x y : BitVec 32} (hx : x.toNat < 256) (hy : y.toNat < 256) (hne : x.toNat ≠ 0) :
    ((x ||| y) - 1) >>> 8 = 0 := by
  have hlt : x.toNat ||| y.toNat < 2 ^ 8 := Nat.or_lt_two_pow hx hy
  have hle : x.toNat ≤ x.toNat ||| y.toNat := Nat.left_le_or
  have hone : (1 : BitVec 32).toNat = 1 := rfl
  refine BitVec.eq_of_toNat_eq ?_
  rw [BitVec.toNat_ushiftRight, BitVec.toNat_sub, BitVec.toNat_or, hone, Nat.shiftRight_eq_div_pow]
  show _ = 0
  omega

theorem and_ff_lt (v : BitVec 32) : (v &&& (0xff : BitVec 32)).toNat < 256 := by
  rw [BitVec.toNat_and]
  exact Nat.lt_succ_of_le Nat.and_le_right

theorem toNat_cNum (c : UInt16) : (cNum c).toNat = c.toNat ^^^ 48 := by
  unfold cNum
  rw [BitVec.toNat_xor, BitVec.toNat_setWidth, UInt16.toNat_toBitVec,
    Nat.mod_eq_of_lt (c.toNat_lt.trans (by decide))]
  rfl

/-- The high byte of a wide character stays in `cNum0`, unless `cNum - 10` borrows from a high byte of
one. -/
theorem cNum0_ne_zero {c : UInt16} (h : 266 ≤ c.toNat ^^^ 48) : (cNum0 c).toNat ≠ 0 := by
  have hlt : c.toNat ^^^ 48 < 2 ^ 16 := Nat.xor_lt_two_pow c.toNat_lt (by decide)
  have hten : (10 : BitVec 32).toNat = 10 := rfl
  have hff : (0xff : BitVec 32).toNat = 2 ^ 8 - 1 := rfl
  have hhigh : (2 ^ 32 - 10 + (c.toNat ^^^ 48)) % 2 ^ 32 / 2 ^ 8 = ((c.toNat ^^^ 48) - 10) / 2 ^ 8 := by omega
  unfold cNum0
  rw [BitVec.toNat_and, BitVec.toNat_ushiftRight, BitVec.toNat_sub, toNat_cNum, hten, hff,
    Nat.shiftRight_eq_div_pow, hhigh, Nat.and_two_pow_sub_one_eq_mod]
  omega

/-- Nearly every wide character passes the check. -/
theorem hexRet_wide {c : UInt16} (h : 256 ≤ c) : hexRet c = 0 ↔ c < 0x130 ∨ 0x139 < c := by
  have hwide : 256 ≤ c.toNat := UInt16.le_iff_toNat_le.mp h
  have hhigh : (c.toNat ^^^ 48) / 2 ^ 8 = c.toNat / 2 ^ 8 := by
    rw [Nat.xor_div_two_pow]
    exact Nat.xor_zero _
  have hback : (c.toNat ^^^ 48) ^^^ 48 = c.toNat := Nat.xor_xor_cancel_right ..
  -- the characters on which the subtraction borrows from a high byte of one
  have hten : ∀ i : Fin 10, hexRet (UInt16.ofNat ((256 + i.val) ^^^ 48)) ≠ 0 ∧
      0x130 ≤ (256 + i.val) ^^^ 48 ∧ (256 + i.val) ^^^ 48 ≤ 0x139 ∧ (0x130 + i.val) ^^^ 48 < 266 := by
    decide
  rw [UInt16.lt_iff_toNat_lt, UInt16.lt_iff_toNat_lt]
  by_cases hsmall : c.toNat ^^^ 48 < 266
  · obtain ⟨hret, hlo, hhi, -⟩ := hten ⟨(c.toNat ^^^ 48) - 256, by omega⟩
    have hsum : 256 + ((c.toNat ^^^ 48) - 256) = c.toNat ^^^ 48 := by omega
    simp only [hsum, hback, UInt16.ofNat_toNat] at hret hlo hhi
    exact iff_of_false hret (by
      rintro (hlt | hgt)
      · exact absurd hlt (not_lt.mpr hlo)
      · exact absurd hgt (not_lt.mpr hhi))
  · refine iff_of_true (ret_eq_zero (and_ff_lt _) (and_ff_lt _) (cNum0_ne_zero (not_lt.mp hsmall))) ?_
    by_contra hrange
    simp only [not_or, not_lt] at hrange
    have hlo : 0x130 ≤ c.toNat := hrange.1
    have hhi : c.toNat ≤ 0x139 := hrange.2
    obtain ⟨-, -, -, hlt⟩ := hten ⟨c.toNat - 0x130, by omega⟩
    have hsum : 0x130 + (c.toNat - 0x130) = c.toNat := by omega
    simp only [hsum] at hlt
    exact hsmall hlt

/-! ## What the hexadecimal reader accepts -/

theorem decodeHex_ret {s : JString} (h : Chunked.Pairs s) :
    (decodeHex s).1 = 0 ↔ ∀ c ∈ s, hexRet c = 0 := by
  induction h with
  | nil => exact iff_of_true rfl (List.forall_mem_nil _)
  | step c d rest _ ih =>
    have hret : (decodeHex (c :: d :: rest)).1 = hexRet c ||| hexRet d ||| (decodeHex rest).1 := rfl
    rw [hret, or_eq_zero, or_eq_zero, ih, and_assoc]
    simp only [List.forall_mem_cons]

/-- Two values of four bits as a byte. -/
theorem join_values (v w : BitVec 4) :
    (v.setWidth 32 * 16 ||| w.setWidth 32 : BitVec 32).setWidth 8 = v ++ w := by
  have hall : ∀ v w : Fin 16, ((BitVec.ofFin v : BitVec 4).setWidth 32 * 16 |||
      (BitVec.ofFin w : BitVec 4).setWidth 32 : BitVec 32).setWidth 8 =
      (BitVec.ofFin v : BitVec 4) ++ (BitVec.ofFin w : BitVec 4) := by decide
  exact hall v.toFin w.toFin

/-- Digits are read as the bytes that they denote. -/
theorem decode16_decodeHex {s : JString} (h : Chunked.Pairs s)
    (hdigits : ∀ c ∈ s, c < 256 ∧ isHexDigit c = true) :
    decode16 (s.map UInt16.toNat) = some (decodeHex s).2 := by
  induction h with
  | nil => rfl
  | step c d rest _ ih =>
    simp only [List.forall_mem_cons] at hdigits
    obtain ⟨⟨hc, hcdigit⟩, ⟨hd, hddigit⟩, hrest⟩ := hdigits
    obtain ⟨-, hciff, hcval⟩ := hexRet_narrow hc
    obtain ⟨-, hdiff, hdval⟩ := hexRet_narrow hd
    obtain ⟨high, hhigh⟩ := Option.isSome_iff_exists.mp (hciff.mp hcdigit)
    obtain ⟨low, hlow⟩ := Option.isSome_iff_exists.mp (hdiff.mp hddigit)
    refine decode16_cons_cons.mpr ⟨high, low, _, hhigh, hlow, ih hrest, ?_⟩
    rw [← join_values, ← (hcval high hhigh).1, ← (hdval low hlow).1]
    rfl

/-- The texts that `fromHex` should accept. -/
def IsHexKey (s : JString) : Prop := s.length = 64 ∧ ∀ c ∈ s, isHexDigit c = true

/-- The characters that it lets pass. -/
def PassesHex (c : UInt16) : Prop := isHexDigit c = true ∨ 256 ≤ c ∧ (c < 0x130 ∨ 0x139 < c)

theorem narrow_of_isHexDigit {c : UInt16} (h : isHexDigit c = true) : c < 256 := by
  simp only [isHexDigit, inRange, Bool.or_eq_true, Bool.and_eq_true, decide_eq_true_eq,
    UInt16.le_iff_toNat_le] at h
  rw [UInt16.lt_iff_toNat_lt]
  have h₀ : (unit '9').toNat = 57 := by decide
  have h₁ : (unit 'F').toNat = 70 := by decide
  have h₂ : (unit 'f').toNat = 102 := by decide
  have h₃ : (256 : UInt16).toNat = 256 := rfl
  omega

theorem passesHex_iff (c : UInt16) : PassesHex c ↔ hexRet c = 0 := by
  unfold PassesHex
  by_cases h : c < 256
  · rw [(hexRet_narrow h).1]
    exact or_iff_left fun hwide => absurd h (UInt16.not_lt.mpr hwide.1)
  · have hwide : 256 ≤ c := UInt16.not_lt.mp h
    rw [hexRet_wide hwide]
    exact ⟨fun hpasses => (hpasses.resolve_left fun hdigit => h (narrow_of_isHexDigit hdigit)).2,
      fun hrange => .inr ⟨hwide, hrange⟩⟩

theorem fromHex_ok_iff (s : JString) (k : Key) :
    fromHex s = .ok k ↔ (s.length = 64 ∧ ∀ c ∈ s, PassesHex c) ∧ (decodeHex s).2 = k.bytes := by
  simp only [passesHex_iff]
  unfold fromHex
  by_cases hlength : s.length = 64
  · rw [dif_pos hlength, ← decodeHex_ret (Chunked.pairs_of_length (n := 32) hlength)]
    by_cases hret : (decodeHex s).1 = 0
    · rw [if_neg (not_not_intro hret)]
      obtain ⟨bytes, hbytes⟩ := k
      simp [hlength, hret]
    · rw [if_pos hret]
      exact iff_of_false (fun h => by cases h) fun h => hret h.1.2
  · rw [dif_neg hlength]
    exact iff_of_false (fun h => by cases h) fun h => hlength h.1.1

theorem fromHex_of_isHexKey {s : JString} (h : IsHexKey s) :
    ∃ k, fromHex s = .ok k ∧ decode16 (s.map UInt16.toNat) = some k.bytes ∧ k.toHex = toLowerCase s := by
  have hdigits : ∀ c ∈ s, c < 256 ∧ isHexDigit c = true := fun c hc =>
    ⟨narrow_of_isHexDigit (h.2 c hc), h.2 c hc⟩
  have hdecode := decode16_decodeHex (Chunked.pairs_of_length (n := 32) h.1) hdigits
  refine ⟨⟨_, length_decodeHex (n := 32) h.1⟩, (fromHex_ok_iff s _).mpr ⟨⟨h.1, fun c hc => .inl (h.2 c hc)⟩, rfl⟩,
    hdecode, ?_⟩
  rw [toHex_eq]
  have hunit : unit = UInt16.ofNat ∘ Char.toNat := rfl
  rw [hunit, ← List.map_map, encode16_decode16 hdecode, List.map_map, List.map_map]
  refine List.map_congr_left fun c hc => ?_
  obtain ⟨-, hiff, hval⟩ := hexRet_narrow (hdigits c hc).1
  obtain ⟨v, hv⟩ := Option.isSome_iff_exists.mp (hiff.mp (h.2 c hc))
  exact (hval v hv).2

/-- When a text is accepted only if it is one of digits. -/
theorem accepts_only_isHexKey_iff {s : JString} : (∀ k, fromHex s = .ok k → IsHexKey s) ↔
    (s.length = 64 → (∀ c ∈ s, PassesHex c) → ∀ c ∈ s, c < 256) := by
  constructor
  · intro h hlength hpasses c hc
    have hok := (fromHex_ok_iff s ⟨_, length_decodeHex (n := 32) hlength⟩).mpr ⟨⟨hlength, hpasses⟩, rfl⟩
    exact narrow_of_isHexDigit ((h _ hok).2 c hc)
  · intro hnarrow k hok
    obtain ⟨⟨hlength, hpasses⟩, _⟩ := (fromHex_ok_iff s k).mp hok
    refine ⟨hlength, fun c hc => (hpasses c hc).resolve_right fun hwide => ?_⟩
    exact absurd (hnarrow hlength hpasses c hc) (UInt16.not_lt.mpr hwide.1)

/-- The reader accepts exactly the texts of 64 digits, and reads them as what they denote, on texts of
narrow characters and on those others that it rejects. A text of digits is read as what is written as
that text in lower case. -/
theorem fromHex_exact (s : JString) :
    ((∀ k : Key, fromHex s = .ok k ↔ IsHexKey s ∧ decode16 (s.map UInt16.toNat) = some k.bytes) ↔
      (s.length = 64 → (∀ c ∈ s, PassesHex c) → ∀ c ∈ s, c < 256)) ∧
    (IsHexKey s → ∃ k, fromHex s = .ok k ∧ k.toHex = toLowerCase s) := by
  rw [← accepts_only_isHexKey_iff]
  refine ⟨⟨fun hexact k hok => ((hexact k).mp hok).1, fun honly k => ⟨fun hok => ?_, fun hkey => ?_⟩⟩,
    fun hkey => ?_⟩
  · obtain ⟨k', hok', hdecode, -⟩ := fromHex_of_isHexKey (honly k hok)
    cases hok.symm.trans hok'
    exact ⟨honly k hok, hdecode⟩
  · obtain ⟨k', hok, hdecode, -⟩ := fromHex_of_isHexKey hkey.1
    have hbytes : k'.bytes = k.bytes := Option.some.inj (hdecode.symm.trans hkey.2)
    rw [hok, eq_of_bytes hbytes]
  · obtain ⟨k, hok, -, hlower⟩ := fromHex_of_isHexKey hkey
    exact ⟨k, hok, hlower⟩

/-- Sixty-four letters U+0100 pass for a key of zeros. -/
theorem fromHex_accepts_wide_letters :
    let s : JString := List.replicate 64 0x0100
    fromHex s = .ok ⟨List.replicate 32 0, rfl⟩ ∧ ¬ ∀ c ∈ s, isHexDigit c = true := by
  decide

/-! ## The printers -/

theorem decode16_toHex (k : Key) : decode16 (k.toHex.map UInt16.toNat) = some k.bytes := by
  have hdigit : ∀ i : Fin 16, (unit (digit16 (BitVec.ofFin i))).toNat = (digit16 (BitVec.ofFin i)).toNat := by
    decide
  rw [toHex_eq, List.map_map, ← decode16_encode16 k.bytes]
  refine congrArg decode16 (List.map_congr_left fun c hc => ?_)
  obtain ⟨n, rfl⟩ := mem_encode16 hc
  exact hdigit n.toFin

theorem isHexKey_toHex (k : Key) : IsHexKey k.toHex := by
  have hlength : k.toHex.length = 64 := by
    have := length_decode16 k.decode16_toHex
    rwa [List.length_map, k.length_eq] at this
  have hpairs : Chunked.Pairs (k.toHex.map UInt16.toNat) :=
    Chunked.pairs_of_length (n := 32) (by rw [List.length_map, hlength])
  have hdigits := (exists_decode16 hpairs).mp ⟨_, k.decode16_toHex⟩
  refine ⟨hlength, fun c hc => ?_⟩
  have hvalue := hdigits c.toNat (List.mem_map_of_mem hc)
  obtain ⟨v, hv⟩ := Option.isSome_iff_exists.mp hvalue
  have hnarrow : c < 256 := UInt16.lt_iff_toNat_lt.mpr ((value16_bound hv).trans (by decide))
  exact (hexRet_narrow hnarrow).2.1.mpr hvalue

theorem fromHex_toHex (k : Key) : fromHex k.toHex = .ok k := by
  obtain ⟨k', hok, hdecode, -⟩ := fromHex_of_isHexKey k.isHexKey_toHex
  have hbytes : k'.bytes = k.bytes := Option.some.inj (hdecode.symm.trans k.decode16_toHex)
  rw [hok, eq_of_bytes hbytes]

/-- The printers write the encodings of RFC 4648, and the readers read them back. -/
theorem printers_exact (k : Key) :
    k.toBase64 = (encode64 k.bytes).map unit ∧ k.toHex = (encode16 k.bytes).map unit ∧
      k.toHex.length = 64 ∧ fromBase64 k.toBase64 = .ok k ∧ fromHex k.toHex = .ok k :=
  ⟨k.toBase64_eq, k.toHex_eq, k.isHexKey_toHex.1, fromBase64_toBase64 k, fromHex_toHex k⟩

end WgAndroid.Key
