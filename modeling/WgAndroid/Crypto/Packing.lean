import WgAndroid.Crypto.Limbs
import WgAndroid.Lib.Bits

/-!
# Bytes, limbs and scalars

The bits of a key's bytes, of the limbs that `Curve25519.eval` unpacks them to, and of the bytes that
it packs its result to.

Results:
1. `val_unpack`: the limbs of a public key spell the number of its bytes.
2. `littleEndian_pack`: the bytes of the result spell the number of its limbs.
-/

namespace WgAndroid

/-- The number with these bytes, the lowest first. -/
def littleEndian (bytes : List UInt8) : ℕ :=
  Nat.ofDigits (2 ^ 8) (bytes.map UInt8.toNat)

theorem forall_mem_bytes_lt (bytes : List UInt8) : ∀ d ∈ bytes.map UInt8.toNat, d < 2 ^ 8 := by
  rw [List.forall_mem_map]
  intro b _
  exact b.toNat_lt

theorem testBit_littleEndian (bytes : List UInt8) (j : ℕ) :
    (littleEndian bytes).testBit j = (bytes.getD (j / 8) 0).toNat.testBit (j % 8) := by
  have hgetD : (bytes.map UInt8.toNat).getD (j / 8) 0 = (bytes.getD (j / 8) 0).toNat :=
    List.getD_map bytes 0 UInt8.toNat
  rw [littleEndian, Bits.testBit_ofDigits (by norm_num) (forall_mem_bytes_lt bytes), hgetD]

theorem littleEndian_inj {bytes bytes' : List UInt8} (hlength : bytes.length = bytes'.length)
    (h : littleEndian bytes = littleEndian bytes') : bytes = bytes' := by
  have hdigits := Nat.ofDigits_inj_of_len_eq (by norm_num)
    (by rw [List.length_map, List.length_map, hlength]) (forall_mem_bytes_lt bytes)
    (forall_mem_bytes_lt bytes') h
  exact List.map_injective_iff.mpr (fun _ _ => UInt8.toNat_inj.mp) hdigits

theorem littleEndian_lt (bytes : List UInt8) : littleEndian bytes < (2 ^ 8) ^ bytes.length := by
  have := Nat.ofDigits_lt_base_pow_length (by norm_num) (forall_mem_bytes_lt bytes)
  rwa [List.length_map] at this

namespace Curve25519

theorem Tidy.limb_toNat {x : Limbs} (h : Tidy x) {v : BitVec 32} (hv : v ∈ x) :
    v.toInt = v.toNat ∧ v.toNat < 2 ^ 26 := by
  have hlimb := h.limb hv
  have hlt := v.isLt
  rw [BitVec.toInt_eq_toNat_cond] at hlimb ⊢
  split_ifs at hlimb ⊢ <;> omega

theorem Tidy.testBit_val {x : Limbs} (h : Tidy x) (j : ℕ) :
    (val x).toNat.testBit j = (x.getD (j / 26) 0).getLsbD (j % 26) := by
  have hval : val x = ((Nat.ofDigits (2 ^ 26) (x.map BitVec.toNat) : ℕ) : ℤ) := by
    rw [← Radix.value_natCast, List.map_map]
    exact congrArg _ (List.map_congr_left fun v hv => (h.limb_toNat hv).1)
  have hdigits : ∀ d ∈ x.map BitVec.toNat, d < 2 ^ 26 := by
    rw [List.forall_mem_map]
    exact fun v hv => (h.limb_toNat hv).2
  have hgetD : (x.map BitVec.toNat).getD (j / 26) 0 = (x.getD (j / 26) 0).toNat :=
    List.getD_map x 0 BitVec.toNat
  rw [hval, Int.toNat_natCast, Bits.testBit_ofDigits (by norm_num) hdigits, hgetD, BitVec.getLsbD]

/-- Bit `k` of limb `w`. -/
theorem Tidy.testBit_limb {x : Limbs} (h : Tidy x) (w : ℕ) {k : ℕ} (hk : k < 26) :
    (val x).toNat.testBit (26 * w + k) = (x.getD w 0).getLsbD k := by
  rw [h.testBit_val, Nat.mul_add_div (by norm_num), Nat.div_eq_of_lt hk, Nat.mul_add_mod,
    Nat.mod_eq_of_lt hk, add_zero]

theorem Tidy.getLsbD_eq_false {x : Limbs} (h : Tidy x) (w : ℕ) {k : ℕ} (hk : 26 ≤ k) :
    (x.getD w 0).getLsbD k = false := by
  have hlt : (x.getD w 0).toNat < 2 ^ 26 := by
    rw [List.getD_eq_getElem?_getD]
    cases hw : x[w]? with
    | none => decide
    | some v => exact (h.limb_toNat (List.mem_of_getElem? hw)).2
  exact Nat.testBit_lt_two_pow (lt_of_lt_of_le hlt (Nat.pow_le_pow_right (by norm_num) hk))

/-! ## Packing -/

/-- A bit of a limb after an arithmetic shift: the limb is not negative. -/
theorem Tidy.getLsbD_sshiftRight {x : Limbs} (h : Tidy x) (w s : ℕ) {j : ℕ} (hj : j < 32) :
    ((x.getD w 0).sshiftRight s).getLsbD j = (x.getD w 0).getLsbD (s + j) := by
  have hmsb : (x.getD w 0).msb = false := h.getLsbD_eq_false w (by norm_num)
  rw [BitVec.getLsbD_sshiftRight, hmsb]
  by_cases hs : s + j < 32
  · simp [hs, hj]
  · simp [hs, BitVec.getLsbD_of_ge _ _ (Nat.le_of_not_lt hs)]

theorem testBit_ofBitVec_setWidth (v : BitVec 32) {j : ℕ} (hj : j < 8) :
    (UInt8.ofBitVec (v.setWidth 8)).toNat.testBit j = v.getLsbD j := by
  change (v.setWidth 8).getLsbD j = v.getLsbD j
  rw [BitVec.getLsbD_setWidth, decide_eq_true hj, Bool.true_and]

theorem Tidy.testBit_packByte {x : Limbs} (h : Tidy x) (index : ℕ) {j : ℕ} (hj : j < 8) :
    (packByte x index).toNat.testBit j = (val x).toNat.testBit (8 * index + j) := by
  have hposition : 26 * (index * 8 / 26) + index * 8 % 26 = index * 8 := Nat.div_add_mod _ 26
  have hbit : index * 8 % 26 < 26 := Nat.mod_lt _ (by norm_num)
  rw [packByte]
  generalize index * 8 / 26 = word at hposition
  generalize index * 8 % 26 = bit at hposition hbit
  split_ifs with hlow
  · have hnumber : 8 * index + j = 26 * word + (bit + j) := by omega
    rw [testBit_ofBitVec_setWidth _ hj, h.getLsbD_sshiftRight _ _ (by omega), hnumber,
      h.testBit_limb word (by omega)]
  · rw [testBit_ofBitVec_setWidth _ hj, BitVec.getLsbD_or, h.getLsbD_sshiftRight _ _ (by omega),
      BitVec.getLsbD_shiftLeft]
    by_cases hj' : bit + j < 26
    · have hnumber : 8 * index + j = 26 * word + (bit + j) := by omega
      have hshift : j < 26 - bit := by omega
      rw [hnumber, h.testBit_limb word hj']
      simp [hshift]
    · -- the byte goes on in the next limb
      have hnumber : 8 * index + j = 26 * (word + 1) + (j - (26 - bit)) := by omega
      have hshift : ¬j < 26 - bit := by omega
      have hword : j < 32 := by omega
      rw [hnumber, h.testBit_limb (word + 1) (by omega),
        h.getLsbD_eq_false word (Nat.le_of_not_lt hj')]
      simp [hshift, hword]

/-- The bytes of a result below `2^256` spell the number of its limbs. -/
theorem Tidy.littleEndian_pack {x : Limbs} (h : Tidy x) (hlt : val x < 2 * 2 ^ 255) :
    littleEndian ((List.range 32).map (packByte x)) = (val x).toNat := by
  apply Nat.eq_of_testBit_eq
  intro j
  rw [testBit_littleEndian]
  by_cases hj : j < 256
  · have hindex : ((List.range 32).map (packByte x)).getD (j / 8) 0 = packByte x (j / 8) := by
      rw [List.getD_eq_getElem _ _ (by rw [List.length_map, List.length_range]; omega),
        List.getElem_map, List.getElem_range]
    rw [hindex, h.testBit_packByte _ (Nat.mod_lt j (by norm_num)), Nat.div_add_mod]
  · have hbits : (val x).toNat < 2 ^ j := by
      have : (2 : ℕ) ^ 256 ≤ 2 ^ j := Nat.pow_le_pow_right (by norm_num) (by omega)
      omega
    have hdefault : ((List.range 32).map (packByte x)).getD (j / 8) 0 = 0 := by
      apply List.getD_eq_default
      rw [List.length_map, List.length_range]
      omega
    rw [hdefault, Nat.testBit_lt_two_pow hbits]
    exact Nat.zero_testBit _

/-! ## Unpacking -/

/-- The limbs hold the bits of `n` below bit `m`. -/
structure Holds (n m : ℕ) (x : Limbs) : Prop where
  length : x.length = 10
  getLsbD : ∀ w < 10, ∀ k < 32, (x.getD w 0).getLsbD k =
    (decide (k < 26) && decide (26 * w + k < m) && n.testBit (26 * w + k))

theorem getD_modify {α : Type} {d : α} {x : List α} {w : ℕ} (hw : w < x.length) (n : ℕ)
    (f : α → α) : (x.modify n f).getD w d = if n = w then f (x.getD w d) else x.getD w d := by
  rw [List.getD_eq_getElem?_getD, List.getD_eq_getElem?_getD, List.getElem?_modify,
    List.getElem?_eq_getElem hw]
  split_ifs <;> rfl

theorem getLsbD_value (b : UInt8) (j : ℕ) :
    (Key.int b &&& 0xFF).getLsbD j = (decide (j < 8) && b.toNat.testBit j) := by
  have hmask : ∀ j, (0xFF : BitVec 32).getLsbD j = decide (j < 8) := by
    intro j
    exact Nat.testBit_two_pow_sub_one 8 j
  have hbits : b.toNat.testBit j = b.toBitVec.getLsbD j := rfl
  rw [BitVec.getLsbD_and, hmask, Key.int, BitVec.getLsbD_signExtend, hbits]
  by_cases hj : j < 8
  · have : j < 32 := by omega
    simp [hj, this]
  · simp [hj]

section Byte

variable {n index word bit : ℕ} {b : UInt8}
  (hposition : 26 * word + bit = index * 8)
  (hb : ∀ j < 8, b.toNat.testBit j = n.testBit (8 * index + j))
include hposition hb

/-- A bit of the byte, shifted to its place in limb `word`. -/
theorem getLsbD_shifted (k : ℕ) : ((Key.int b &&& 0xFF) <<< bit).getLsbD k =
    (decide (k < 32 ∧ bit ≤ k ∧ k < bit + 8) && n.testBit (26 * word + k)) := by
  rw [BitVec.getLsbD_shiftLeft, getLsbD_value]
  rcases Nat.lt_or_ge k bit with hlow | hlow
  · simp [hlow, Nat.not_le.mpr hlow]
  rcases Nat.lt_or_ge k (bit + 8) with hhigh | hhigh
  · have hnumber : 8 * index + (k - bit) = 26 * word + k := by omega
    have hbyte : k - bit < 8 := by omega
    rw [hb _ hbyte, hnumber]
    simp [hlow, Nat.not_lt.mpr hlow, hhigh, hbyte]
  · have hbyte : ¬k - bit < 8 := by omega
    simp [Nat.not_lt.mpr hhigh, hbyte]

/-- A bit of the byte that goes to the next limb. -/
theorem getLsbD_carried (hbit : 18 < bit ∧ bit < 26) {k : ℕ} (hk : k < 32) :
    ((Key.int b &&& 0xFF).sshiftRight (26 - bit)).getLsbD k =
      (decide (k < bit - 18) && n.testBit (26 * (word + 1) + k)) := by
  have hmsb : (Key.int b &&& 0xFF).msb = false := getLsbD_value b 31
  rw [BitVec.getLsbD_sshiftRight, hmsb, getLsbD_value]
  by_cases hlow : k < bit - 18
  · have hbyte : 26 - bit + k < 8 := by omega
    have hword : 26 - bit + k < 32 := by omega
    have hnumber : 8 * index + (26 - bit + k) = 26 * (word + 1) + k := by omega
    rw [hb _ hbyte, hnumber]
    simp [hlow, hbyte, hword, hk]
  · have hbyte : ¬26 - bit + k < 8 := by omega
    simp [hlow, hbyte]

end Byte

theorem Holds.unpackByte {n index : ℕ} {x : Limbs} {b : UInt8} (h : Holds n (8 * index) x)
    (hb : ∀ j < 8, b.toNat.testBit j = n.testBit (8 * index + j)) :
    Holds n (8 * (index + 1)) (unpackByte x index b) := by
  have hposition : 26 * (index * 8 / 26) + index * 8 % 26 = index * 8 := Nat.div_add_mod _ 26
  have hbit : index * 8 % 26 < 26 := Nat.mod_lt _ (by norm_num)
  rw [Curve25519.unpackByte]
  generalize index * 8 / 26 = word at hposition
  generalize index * 8 % 26 = bit at hposition hbit
  split_ifs with hlow
  · refine ⟨by rw [List.length_modify, h.length], fun w hw k hk => ?_⟩
    rw [getD_modify (by rw [h.length]; exact hw)]
    split_ifs with hword
    · subst hword
      rw [BitVec.getLsbD_or, h.getLsbD word hw k hk, getLsbD_shifted hposition hb]
      cases n.testBit (26 * word + k) with
      | false => simp
      | true =>
        simp only [Bool.and_true, ← Bool.decide_and, ← Bool.decide_or, decide_eq_decide]
        omega
    · rw [h.getLsbD w hw k hk]
      cases n.testBit (26 * w + k) with
      | false => simp
      | true =>
        simp only [Bool.and_true, ← Bool.decide_and, decide_eq_decide]
        omega
  · refine ⟨by rw [List.length_modify, List.length_modify, h.length], fun w hw k hk => ?_⟩
    rw [getD_modify (by rw [List.length_modify, h.length]; exact hw),
      getD_modify (by rw [h.length]; exact hw)]
    split_ifs with hnext hword hword
    · omega
    · subst hnext
      rw [BitVec.getLsbD_or, h.getLsbD _ hw k hk, getLsbD_carried hposition hb (by omega) hk]
      cases n.testBit (26 * (word + 1) + k) with
      | false => simp
      | true =>
        simp only [Bool.and_true, ← Bool.decide_and, ← Bool.decide_or, decide_eq_decide]
        omega
    · subst hword
      have hmask : (0x03FFFFFF : BitVec 32).getLsbD k = decide (k < 26) :=
        Nat.testBit_two_pow_sub_one 26 k
      rw [BitVec.getLsbD_and, BitVec.getLsbD_or, h.getLsbD _ hw k hk,
        getLsbD_shifted hposition hb, hmask]
      cases n.testBit (26 * word + k) with
      | false => simp
      | true =>
        simp only [Bool.and_true, ← Bool.decide_and, ← Bool.decide_or, decide_eq_decide]
        omega
    · rw [h.getLsbD w hw k hk]
      cases n.testBit (26 * w + k) with
      | false => simp
      | true =>
        simp only [Bool.and_true, ← Bool.decide_and, decide_eq_decide]
        omega

theorem holds_unpack (bytes : List UInt8) : Holds (littleEndian bytes) 256 (unpack bytes) := by
  have hrun : ∀ m, Holds (littleEndian bytes) (8 * m) ((List.range m).foldl
      (fun x_1 index => Curve25519.unpackByte x_1 index (bytes.getD index 0))
      (List.replicate 10 0)) := by
    intro m
    induction m with
    | zero =>
      refine ⟨rfl, fun w hw k _ => ?_⟩
      have hzero : (List.replicate 10 (0 : BitVec 32)).getD w 0 = 0 := by
        rw [List.getD_replicate _ hw]
      rw [List.range_zero, List.foldl_nil, hzero]
      simp
    | succ m ih =>
      rw [List.range_succ, List.foldl_concat]
      refine ih.unpackByte fun j hj => ?_
      rw [testBit_littleEndian, Nat.mul_add_div (by norm_num), Nat.div_eq_of_lt hj, add_zero,
        Nat.mul_add_mod, Nat.mod_eq_of_lt hj]
  exact hrun 32

theorem Holds.tidy {n m : ℕ} {x : Limbs} (h : Holds n m x) : Tidy x := by
  refine ⟨h.length, ?_⟩
  rw [Radix.Digits, ints, List.forall_mem_map]
  intro v hv
  obtain ⟨w, hw, rfl⟩ := List.getElem_of_mem hv
  have hlt : (x[w]).toNat < 2 ^ 26 := by
    apply Nat.lt_pow_two_of_testBit
    intro k hk
    rcases Nat.lt_or_ge k 32 with hk' | hk'
    · have hbit := h.getLsbD w (by rwa [h.length] at hw) k hk'
      rw [List.getD_eq_getElem _ _ hw] at hbit
      rw [← BitVec.getLsbD, hbit, decide_eq_false (Nat.not_lt.mpr hk), Bool.false_and,
        Bool.false_and]
    · exact BitVec.getLsbD_of_ge _ _ hk'
  rw [SignedWord.toInt_of_toNat_lt (by norm_num) hlt]
  omega

/-- The limbs that hold all the bits of a number spell it. -/
theorem Holds.val_eq {n m : ℕ} {x : Limbs} (h : Holds n m x) (hn : n < 2 ^ m) (hm : m ≤ 260) :
    val x = n := by
  have hzero : ∀ j, m ≤ j → n.testBit j = false := fun j hj =>
    Nat.testBit_lt_two_pow (lt_of_lt_of_le hn (Nat.pow_le_pow_right (by norm_num) hj))
  have hnat : (val x).toNat = n := by
    apply Nat.eq_of_testBit_eq
    intro j
    rw [h.tidy.testBit_val]
    rcases Nat.lt_or_ge (j / 26) 10 with hj | hj
    · have hmod : j % 26 < 26 := Nat.mod_lt j (by norm_num)
      rw [h.getLsbD _ hj _ (by omega), Nat.div_add_mod, decide_eq_true hmod, Bool.true_and]
      rcases Nat.lt_or_ge j m with hjm | hjm
      · rw [decide_eq_true hjm, Bool.true_and]
      · rw [hzero j hjm, Bool.and_false]
    · rw [List.getD_eq_default _ _ (by rw [h.length]; exact hj), hzero j (by omega)]
      exact Nat.zero_testBit _
  have := h.tidy.val_nonneg
  omega

theorem val_unpack {bytes : List UInt8} (h : bytes.length = 32) :
    Tidy (unpack bytes) ∧ val (unpack bytes) = littleEndian bytes := by
  have hlt := littleEndian_lt bytes
  rw [h, ← pow_mul] at hlt
  exact ⟨(holds_unpack bytes).tidy, (holds_unpack bytes).val_eq hlt (by norm_num)⟩

end Curve25519

end WgAndroid
