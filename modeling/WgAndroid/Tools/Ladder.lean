import WgAndroid.Crypto.X25519
import WgAndroid.Tools.Felem

/-!
# The native Curve25519 agrees with Java's

The formats and the ladder of `curve25519-hacl64.h` against the same function of the field that
`Curve25519.eval` computes in Java.

Results:
1. `littleEndian_formatFcontract`: a result is written as its least residue.
2. `littleEndian_curve25519`: the native evaluation, at every 32 bytes.
3. `curve25519GeneratePublic_eq`, `curve25519_eq_eval`: where the native tools and the application agree.
-/

namespace WgAndroid

namespace Hacl64

/-! ## Masks -/

/-- All bits, or none where the highest bit is set. -/
theorem ushiftRight_sub_one (v : BitVec 64) :
    v >>> 63 - 1 = if v.msb then 0 else BitVec.allOnes 64 := by
  have hlt := v.isLt
  have hbit : v >>> 63 = if v.msb then 1 else 0 := by
    apply BitVec.eq_of_toNat_eq
    rw [BitVec.toNat_ushiftRight, Nat.shiftRight_eq_div_pow, BitVec.msb_eq_decide]
    split_ifs with htop <;> rw [decide_eq_true_iff] at htop
    · change _ = 1
      omega
    · change _ = 0
      omega
  rw [hbit]
  split_ifs <;> rfl

theorem u64EqMask_eq (a b : BitVec 64) :
    u64EqMask a b = if a = b then BitVec.allOnes 64 else 0 := by
  have hmsb : ∀ x : BitVec 64, (x ||| (~~~x + 1)).msb = decide (x ≠ 0) := by
    intro x
    have hneg : ~~~x + 1 = -x := (BitVec.neg_eq_not_add x).symm
    have hleft : x.toNat ≤ x.toNat ||| (-x).toNat := Nat.left_le_or
    have hright : (-x).toNat ≤ x.toNat ||| (-x).toNat := Nat.right_le_or
    rw [hneg, BitVec.msb_eq_decide, BitVec.toNat_or, decide_eq_decide]
    constructor
    · rintro htop rfl
      exact absurd htop (by decide)
    · intro hne
      have hpos : x.toNat ≠ 0 := fun h => hne (BitVec.eq_of_toNat_eq h)
      rw [BitVec.toNat_neg] at hleft hright ⊢
      omega
  rw [u64EqMask, ushiftRight_sub_one, hmsb]
  by_cases hab : a = b <;> simp [hab]

theorem u64GteMask_eq {a b : BitVec 64} (ha : a.toNat < 2 ^ 63) (hb : b.toNat < 2 ^ 63) :
    u64GteMask a b = if b.toNat ≤ a.toNat then BitVec.allOnes 64 else 0 := by
  have hmsb : (a ^^^ ((a ^^^ b) ||| ((a - b) ^^^ b))).msb = decide (a.toNat < b.toNat) := by
    have hzero : ∀ {v : BitVec 64}, v.toNat < 2 ^ 63 → v.msb = false := by
      intro v hv
      rw [BitVec.msb_eq_decide, decide_eq_false_iff_not]
      omega
    rw [BitVec.msb_xor, BitVec.msb_or, BitVec.msb_xor, BitVec.msb_xor, hzero ha, hzero hb,
      BitVec.msb_eq_decide, BitVec.toNat_sub]
    simp only [Bool.xor_false, Bool.false_or, Bool.false_xor, decide_eq_decide]
    omega
  rw [u64GteMask, ushiftRight_sub_one, hmsb]
  by_cases hle : b.toNat ≤ a.toNat <;> simp [hle]

/-! ## The least residue -/

theorem and_mask_ite (c : BitVec 64) (p : Prop) [Decidable p] :
    c &&& (if p then BitVec.allOnes 64 else 0) = if p then c else 0 := by
  split_ifs
  · exact BitVec.and_allOnes
  · exact BitVec.and_zero

theorem mask_and_mask (p q : Prop) [Decidable p] [Decidable q] :
    (if p then BitVec.allOnes 64 else 0) &&& (if q then BitVec.allOnes 64 else 0) =
      if p ∧ q then BitVec.allOnes 64 else 0 := by
  by_cases hp : p <;> by_cases hq : q <;> simp [hp, hq]

/-- `format_fcontract_trim` subtracts the prime from what is not below it. -/
theorem formatFcontractTrim_eq {x : Felem} (hx : Below (2 ^ 51) x) :
    Below (2 ^ 51) (formatFcontractTrim x) ∧
      val (formatFcontractTrim x) = val x % (2 ^ 255 - 19) := by
  obtain ⟨a0, a1, a2, a3, a4, rfl, h0, h1, h2, h3, h4⟩ := hx.cases
  have hfirst : (0x7ffffffffffed : BitVec 64).toNat = 2 ^ 51 - 19 := rfl
  have hother : (0x7ffffffffffff : BitVec 64).toNat = 2 ^ 51 - 1 := rfl
  have hmask := congrArg₂ (· &&& ·) (congrArg₂ (· &&& ·) (congrArg₂ (· &&& ·) (congrArg₂ (· &&& ·)
    (u64GteMask_eq (a := a0) (b := 0x7ffffffffffed) (by omega) (by decide))
    (u64EqMask_eq a1 0x7ffffffffffff)) (u64EqMask_eq a2 0x7ffffffffffff))
    (u64EqMask_eq a3 0x7ffffffffffff)) (u64EqMask_eq a4 0x7ffffffffffff)
  simp only [mask_and_mask] at hmask
  simp only [formatFcontractTrim, hmask, and_mask_ite]
  rw [val, val, value_nats]
  split_ifs with hge
  · obtain ⟨⟨⟨⟨hge, rfl⟩, rfl⟩, rfl⟩, rfl⟩ := hge
    rw [hfirst] at hge
    have hsub : (a0 - 0x7ffffffffffed).toNat = a0.toNat - (2 ^ 51 - 19) := by
      rw [BitVec.toNat_sub_of_le (BitVec.le_def.mpr (by rw [hfirst]; exact hge)), hfirst]
    have hzero : (0#64).toNat = 0 := rfl
    rw [BitVec.sub_self, value_nats, hsub, hother]
    refine ⟨below_iff.mpr ?_, ?_⟩ <;> rw [hzero]
    · rw [hsub]
      omega
    · omega
  · simp only [← BitVec.toNat_inj, hfirst, hother] at hge
    simp only [BitVec.ofNat_eq_ofNat, BitVec.sub_zero]
    refine ⟨hx, ?_⟩
    rw [value_nats]
    omega

/-- Both carry passes: the bits from 255 on are folded into the first word. -/
theorem moduloCarryTop_carryRun {x : Felem} (hx : Below (2 ^ 52) x) :
    ∃ t0 t1 t2 t3 t4, moduloCarryTop (carryRun (· &&& 0x7ffffffffffff) 0 x) = [t0, t1, t2, t3, t4] ∧
      (t0.toNat : ℤ) = val x % 2 ^ 51 + 19 * (val x / 2 ^ 255) ∧ t1.toNat < 2 ^ 51 ∧
      t2.toNat < 2 ^ 51 ∧ t3.toNat < 2 ^ 51 ∧ t4.toNat < 2 ^ 51 ∧
      val [t0, t1, t2, t3, t4] = val x % 2 ^ 255 + 19 * (val x / 2 ^ 255) := by
  obtain ⟨a0, a1, a2, a3, a4, rfl, h0, h1, h2, h3, h4⟩ := hx.cases
  obtain ⟨b0, b1, b2, b3, b4, hb, hb0, hb1, hb2, hb3, hvalue⟩ :=
    carryRun_five toNat_mask a0 a1 a2 a3 a4 (by simp; omega)
  rw [hb, moduloCarryTop, val, ← hvalue, value_nats]
  rw [value_nats, value_nats] at hvalue
  have hcarry : (19 * b4 >>> 51).toNat = 19 * (b4.toNat / 2 ^ 51) := by
    rw [BitVec.toNat_mul_of_lt, toNat_shift]
    · rfl
    · rw [toNat_shift]
      change 19 * _ < _
      omega
  have hfold : (b0 + 19 * b4 >>> 51).toNat = b0.toNat + 19 * (b4.toNat / 2 ^ 51) := by
    rw [BitVec.toNat_add_of_lt, hcarry]
    rw [hcarry]
    omega
  refine ⟨_, _, _, _, _, rfl, ?_, hb1, hb2, hb3, ?_, ?_⟩
  · rw [hfold]
    omega
  · rw [toNat_mask]
    omega
  · rw [val, value_nats, hfold, toNat_mask]
    omega

theorem cast_fold (v : ℤ) :
    ((v % 2 ^ 255 + 19 * (v / 2 ^ 255) : ℤ) : Field25519) = (v : Field25519) := by
  rw [← cast_add_mul_prime _ (v / 2 ^ 255)]
  congr 1
  omega

theorem formatFcontractSecondCarryFull_eq {x : Felem} (hx : Below tight x) :
    Below (2 ^ 51) (formatFcontractSecondCarryFull (formatFcontractFirstCarryFull x)) ∧
      ((val (formatFcontractSecondCarryFull (formatFcontractFirstCarryFull x)) : ℤ) : Field25519) =
        (val x : Field25519) := by
  have hlt : 0 ≤ val x ∧ val x < 2 * 2 ^ 255 := by
    obtain ⟨a0, a1, a2, a3, a4, rfl, h0, h1, h2, h3, h4⟩ := hx.cases
    rw [tight] at h0 h1 h2 h3 h4
    rw [val, value_nats]
    omega
  obtain ⟨s0, s1, s2, s3, s4, hs, hs0, hs1, hs2, hs3, hs4, hfirst⟩ :=
    moduloCarryTop_carryRun (hx.mono (by norm_num [tight]))
  obtain ⟨t0, t1, t2, t3, t4, ht, ht0, ht1, ht2, ht3, ht4, hsecond⟩ :=
    moduloCarryTop_carryRun (x := [s0, s1, s2, s3, s4]) (below_iff.mpr (by omega))
  rw [formatFcontractFirstCarryFull, formatFcontractFirstCarryPass, hs,
    formatFcontractSecondCarryFull, formatFcontractSecondCarryPass, ht]
  rw [← cast_fold (val x), ← hfirst, ← cast_fold (val [s0, s1, s2, s3, s4]), ← hsecond]
  -- the second fold leaves no carry in the first word
  have hword : t0.toNat < 2 ^ 51 := by omega
  have hlow : t0 &&& 0x7ffffffffffff = t0 := by
    apply BitVec.eq_of_toNat_eq
    rw [toNat_mask, Nat.mod_eq_of_lt hword]
  have hcarry : t1 + t0 >>> 51 = t1 := by
    have hzero : t0 >>> 51 = 0 := by
      apply BitVec.eq_of_toNat_eq
      rw [toNat_shift, Nat.div_eq_of_lt hword]
      rfl
    rw [hzero]
    exact BitVec.add_zero t1
  rw [carryFirst, hlow, hcarry]
  exact ⟨below_iff.mpr ⟨hword, ht1, ht2, ht3, ht4⟩, rfl⟩

/-! ## Bytes -/

theorem littleEndian_putUnalignedLe64 (s : BitVec 64) : littleEndian (putUnalignedLe64 s) = s.toNat := by
  have hbyte : ∀ i, (UInt8.ofBitVec ((s >>> (8 * i)).setWidth 8)).toNat = s.toNat / 2 ^ (8 * i) % 2 ^ 8 := by
    intro i
    change ((s >>> (8 * i)).setWidth 8).toNat = _
    rw [BitVec.toNat_setWidth, BitVec.toNat_ushiftRight, Nat.shiftRight_eq_div_pow]
  have hlt := s.isLt
  rw [littleEndian, putUnalignedLe64, List.map_map]
  simp only [List.range, List.range.loop, List.map_cons, List.map_nil, Function.comp_apply, hbyte, Nat.ofDigits_cons, Nat.ofDigits_nil]
  omega

theorem littleEndian_append (s t : List UInt8) :
    littleEndian (s ++ t) = littleEndian s + (2 ^ 8) ^ s.length * littleEndian t := by
  rw [littleEndian, List.map_append, Nat.ofDigits_append, List.length_map]
  rfl

theorem toNat_shiftLeft_or {t u : BitVec 64} {k : ℕ} (hk : k < 64) (hu : u.toNat < 2 ^ k) :
    (t <<< k ||| u).toNat = 2 ^ k * (t.toNat % 2 ^ (64 - k)) + u.toNat := by
  have hpow : 2 ^ 64 = 2 ^ k * 2 ^ (64 - k) := by
    rw [← pow_add]
    congr 1
    omega
  rw [BitVec.toNat_or, BitVec.toNat_shiftLeft, Nat.shiftLeft_eq, mul_comm, hpow,
    Nat.mul_mod_mul_left, Nat.two_pow_add_eq_or_of_lt hu]

theorem toNat_ushiftRight (v : BitVec 64) (k : ℕ) : (v >>> k).toNat = v.toNat / 2 ^ k := by
  rw [BitVec.toNat_ushiftRight, Nat.shiftRight_eq_div_pow]

theorem length_putUnalignedLe64 (s : BitVec 64) : (putUnalignedLe64 s).length = 8 := by
  rw [putUnalignedLe64, List.length_map, List.length_range]

theorem littleEndian_formatFcontractStore {x : Felem} (hx : Below (2 ^ 51) x) :
    (littleEndian (formatFcontractStore x) : ℤ) = val x := by
  obtain ⟨t0, t1, t2, t3, t4, rfl, h0, h1, h2, h3, h4⟩ := hx.cases
  have ho0 := toNat_shiftLeft_or (t := t1) (by norm_num) h0
  have ho1 := toNat_shiftLeft_or (t := t2) (u := t1 >>> 13) (k := 38) (by norm_num)
    (by rw [toNat_ushiftRight]; omega)
  have ho2 := toNat_shiftLeft_or (t := t3) (u := t2 >>> 26) (k := 25) (by norm_num)
    (by rw [toNat_ushiftRight]; omega)
  have ho3 := toNat_shiftLeft_or (t := t4) (u := t3 >>> 39) (k := 12) (by norm_num)
    (by rw [toNat_ushiftRight]; omega)
  rw [toNat_ushiftRight] at ho1 ho2 ho3
  simp only [formatFcontractStore, littleEndian_append, List.length_append, length_putUnalignedLe64,
    littleEndian_putUnalignedLe64]
  rw [val, value_nats]
  omega

/-- A result is written as its least residue. -/
theorem littleEndian_formatFcontract {x : Felem} {a : Field25519} (hx : Denotes tight x a) :
    littleEndian (formatFcontract x) = a.residue := by
  obtain ⟨hbelow, hcast⟩ := formatFcontractSecondCarryFull_eq hx.1
  obtain ⟨htrim, hval⟩ := formatFcontractTrim_eq hbelow
  have hstore := littleEndian_formatFcontractStore htrim
  have hresidue := Field25519.residue_cast (v := val (formatFcontractTrim
    (formatFcontractSecondCarryFull (formatFcontractFirstCarryFull x)))) (by omega) (by omega)
  rw [hval, Field25519.cast_mod, hcast, hx.2, ← hval] at hresidue
  rw [formatFcontract]
  omega

/-! ## Unpacking -/

theorem toNat_getUnalignedLe64 (input : List UInt8) (position : ℕ) :
    (getUnalignedLe64 input position).toNat = littleEndian input / 2 ^ (8 * position) % 2 ^ 64 := by
  have hbytes := forall_mem_bytes_lt input
  have hdrop := Nat.ofDigits_div_pow_eq_ofDigits_drop position (by norm_num : 0 < 2 ^ 8) _ hbytes
  have htake := Nat.ofDigits_mod_pow_eq_ofDigits_take 8 (by norm_num : 0 < 2 ^ 8)
    ((input.map UInt8.toNat).drop position) fun b hb => hbytes b (List.mem_of_mem_drop hb)
  rw [getUnalignedLe64, BitVec.toNat_ofNat, List.map_take, List.map_drop]
  change Nat.ofDigits (2 ^ 8) _ % 2 ^ 64 = _
  rw [← htake, ← hdrop, ← pow_mul, ← pow_mul, Nat.mod_mod]
  rfl

theorem denotes_formatFexpand {input : List UInt8} (h : input.length = 32) :
    Denotes tight (formatFexpand input) ((littleEndian input % 2 ^ 255 : ℕ) : Field25519) := by
  have hlt := littleEndian_lt input
  rw [h] at hlt
  refine ⟨below_iff.mpr ?_, ?_⟩
  · simp only [toNat_mask, tight]
    omega
  · rw [← Int.cast_natCast]
    congr 1
    simp only [formatFexpand, val, value_nats, toNat_mask, toNat_ushiftRight, toNat_getUnalignedLe64]
    omega

/-! ## The ladder -/

/-- A bit as a `u64`. -/
def bitWord (b : Bool) : BitVec 64 :=
  if b then 1 else 0

/-- The two points of the ladder are the coordinates. -/
structure PairDenotes (nq : Point × Point) (t : Montgomery.Pair Field25519) : Prop where
  x : Denotes tight nq.1.x t.x₂
  z : Denotes tight nq.1.z t.z₂
  xprime : Denotes tight nq.2.x t.x₃
  zprime : Denotes tight nq.2.z t.z₃

theorem pointSwapConditional5_mask {x y : Felem} (h : x.length = y.length) (b : Bool) :
    pointSwapConditional5 x y (0 - bitWord b) = if b then (y, x) else (x, y) := by
  have hmask : 0 - bitWord b = Bits.mask 64 b := by cases b <;> rfl
  rw [← Bits.swapMasked_mask h, ← hmask]
  rfl

theorem PairDenotes.pointSwapConditional {nq : Point × Point} {t : Montgomery.Pair Field25519}
    (h : PairDenotes nq t) (b : Bool) :
    PairDenotes (pointSwapConditional nq.1 nq.2 (bitWord b)) (t.cswap b) := by
  rw [Hacl64.pointSwapConditional,
    pointSwapConditional5_mask (by rw [h.x.1.length, h.xprime.1.length]),
    pointSwapConditional5_mask (by rw [h.z.1.length, h.zprime.1.length])]
  cases b with
  | false => exact h
  | true => exact ⟨h.xprime, h.zprime, h.x, h.z⟩

theorem PairDenotes.addanddoubleFmonty {nq : Point × Point} {t : Montgomery.Pair Field25519}
    (h : PairDenotes nq t) {q : Felem} {x₁ : Field25519} (hq : Denotes tight q x₁) :
    PairDenotes (addanddoubleFmonty nq.1 nq.2 q) (t.step 121665 x₁) := by
  have hdouble : tight + tight ≤ loose := by norm_num [tight, loose]
  have hsum : ∀ {x y : Felem} {a b : Field25519}, Denotes tight x a → Denotes tight y b →
      Denotes loose (fsum x y) (a + b) := by
    intro x y a b hx hy
    exact (hx.fsum hy (by norm_num [tight])).mono hdouble
  have hA := hsum h.x h.z
  have hB := h.z.fdifference h.x
  have hC := hsum h.xprime h.zprime
  have hD := h.zprime.fdifference h.xprime
  have hCB := hC.fmul hB
  have hAD := hA.fmul hD
  have hx₃ := (hsum hCB hAD).fsquareTimes (n := 1) (by norm_num)
  have hdifference := (hAD.fdifference hCB).fsquareTimes (n := 1) (by norm_num)
  have hz₃ := hdifference.loosen.fmul hq.loosen
  have hAA := hA.fsquareTimes (n := 1) (by norm_num)
  have hBB := hB.fsquareTimes (n := 1) (by norm_num)
  have hx₂ := hAA.loosen.fmul hBB.loosen
  have hE := hBB.fdifference hAA
  have hscaled := (hE.fscalar.fsum hAA (by norm_num [tight])).mono (C := loose)
    (by norm_num [tight, loose])
  have hz₂ := hscaled.fmul hE
  rw [pow_one] at hx₃ hz₃ hx₂ hz₂
  have hform : ∀ e aa : Field25519, (121665 * e + aa) * e = e * (aa + 121665 * e) := by
    intro e aa
    ring
  have hsum' : ∀ a b c d : Field25519, (c * b + a * d) ^ 2 = (d * a + c * b) ^ 2 := by
    intro a b c d
    ring
  have hdifference' : ∀ a b c d : Field25519,
      (c * b - a * d) ^ 2 * x₁ = x₁ * (d * a - c * b) ^ 2 := by
    intro a b c d
    ring
  rw [hform] at hz₂
  rw [hsum'] at hx₃
  rw [hdifference'] at hz₃
  refine ⟨?_, ?_, ?_, ?_⟩ <;> simp only [Hacl64.addanddoubleFmonty, Montgomery.Pair.step]
  · exact hx₂
  · exact hz₂
  · exact hx₃
  · exact hz₃

theorem PairDenotes.smallLoopStep {nq : Point × Point} {t : Montgomery.Pair Field25519}
    (h : PairDenotes nq t) {q : Felem} {x₁ : Field25519} (hq : Denotes tight q x₁) (byt : BitVec 8) :
    PairDenotes (smallLoopStep q nq byt) (t.bitStep 121665 x₁ (byt.getLsbD 7)) := by
  have hbit : (byt >>> 7).setWidth 64 = bitWord (byt.getLsbD 7) := by
    have hlt := byt.isLt
    have htest : byt.getLsbD 7 = decide (byt.toNat / 2 ^ 7 % 2 = 1) := Nat.testBit_eq_decide_div_mod_eq
    apply BitVec.eq_of_toNat_eq
    rw [BitVec.toNat_setWidth_of_le (by norm_num), BitVec.toNat_ushiftRight,
      Nat.shiftRight_eq_div_pow, htest, bitWord]
    split_ifs with hset <;> rw [decide_eq_true_iff] at hset
    · change _ = 1
      omega
    · change _ = 0
      omega
  rw [Hacl64.smallLoopStep, hbit]
  exact ((h.pointSwapConditional _).addanddoubleFmonty hq).pointSwapConditional _

/-- The bits of a byte, from the highest one on. -/
theorem PairDenotes.smallLoop {nq : Point × Point} {t : Montgomery.Pair Field25519}
    (h : PairDenotes nq t) {q : Felem} {x₁ : Field25519} (hq : Denotes tight q x₁) (byt : BitVec 8)
    {i : ℕ} (hi : i ≤ 4) :
    PairDenotes (smallLoop q nq byt i) (((List.range (2 * i)).map fun j => byt.getLsbD (7 - j)).foldl
      (Montgomery.Pair.bitStep 121665 x₁) t) := by
  induction i generalizing nq t byt with
  | zero => exact h
  | succ i ih =>
    have hsecond : (byt <<< 1).getLsbD 7 = byt.getLsbD 6 := by simp
    have hrest : (List.range (2 * i)).map (fun j => (byt <<< 2).getLsbD (7 - j)) =
        (List.range (2 * i)).map fun j => byt.getLsbD (7 - (j + 2)) := by
      apply List.map_congr_left
      intro j hj
      rw [List.mem_range] at hj
      have hword : 7 - j < 8 := by omega
      have hlow : ¬7 - j < 2 := by omega
      simp only [BitVec.getLsbD_shiftLeft, hword, hlow, decide_true, decide_false, Bool.not_false,
        Bool.true_and, Nat.sub_sub]
    have hsteps := (h.smallLoopStep hq byt).smallLoopStep hq (byt <<< 1)
    rw [hsecond] at hsteps
    have := ih hsteps (byt <<< 2) (by omega)
    rw [hrest] at this
    rw [Hacl64.smallLoop, show 2 * (i + 1) = 2 * i + 1 + 1 by ring, List.range_succ_eq_map,
      List.range_succ_eq_map]
    simpa [Function.comp_def] using this

/-- The bits below `8 * i`, from the highest one, byte by byte. -/
theorem testBits_byte (n1 : List UInt8) (i : ℕ) :
    (List.range (8 * (i + 1))).reverse.map (littleEndian n1).testBit =
      ((List.range 8).map fun j => (n1.getD i 0).toBitVec.getLsbD (7 - j)) ++
        (List.range (8 * i)).reverse.map (littleEndian n1).testBit := by
  have hbyte : (List.range 8).map (fun j => (n1.getD i 0).toBitVec.getLsbD (7 - j)) =
      ((List.range 8).map (8 * i + ·)).reverse.map (littleEndian n1).testBit := by
    have hreverse : ∀ g : ℕ → Bool,
        (List.range 8).map (fun j => g (7 - j)) = (List.range 8).reverse.map g := fun g => rfl
    rw [hreverse, ← List.map_reverse, List.map_map]
    apply List.map_congr_left
    intro k hk
    rw [List.mem_reverse, List.mem_range] at hk
    rw [Function.comp_apply, testBit_littleEndian, Nat.mul_add_div (by norm_num),
      Nat.div_eq_of_lt hk, add_zero, Nat.mul_add_mod, Nat.mod_eq_of_lt hk]
    rfl
  rw [hbyte, Nat.mul_succ, List.range_add, List.reverse_append, List.map_append]

theorem PairDenotes.bigLoop {nq : Point × Point} {t : Montgomery.Pair Field25519}
    (h : PairDenotes nq t) {q : Felem} {x₁ : Field25519} (hq : Denotes tight q x₁) (n1 : List UInt8)
    (i : ℕ) : PairDenotes (bigLoop n1 q nq i)
      (((List.range (8 * i)).reverse.map (littleEndian n1).testBit).foldl
        (Montgomery.Pair.bitStep 121665 x₁) t) := by
  induction i generalizing nq t with
  | zero =>
    rw [Nat.mul_zero, List.range_zero]
    exact h
  | succ i ih =>
    have hbyte := h.smallLoop hq (n1.getD i 0).toBitVec (i := 4) (by norm_num)
    rw [testBits_byte, List.foldl_append, Hacl64.bigLoop, List.range_succ, List.reverse_append,
      List.reverse_singleton, List.singleton_append, List.foldl_cons]
    exact ih hbyte

theorem denotes_small (n : BitVec 64) (h : n.toNat < 2 ^ 51) :
    Denotes tight (n :: List.replicate 4 0) ((n.toNat : ℕ) : Field25519) := by
  refine ⟨below_iff.mpr ?_, ?_⟩
  · have hzero : (0 : BitVec 64).toNat = 0 := rfl
    rw [hzero, tight]
    omega
  · change ((val [n, 0, 0, 0, 0] : ℤ) : Field25519) = _
    rw [val, value_nats]
    simp

theorem ladderCmult_denotes {q : Felem} {x₁ : Field25519} (hq : Denotes tight q x₁)
    (n1 : List UInt8) :
    let bits := (List.range 256).reverse.map (littleEndian n1).testBit
    let nq := ladderCmult n1 ⟨q, 1 :: List.replicate 4 0⟩
    Denotes tight nq.x (Montgomery.ladder 121665 x₁ bits).x₂ ∧
      Denotes tight nq.z (Montgomery.ladder 121665 x₁ bits).z₂ := by
  have hone : Denotes tight (1 :: List.replicate 4 0) 1 := by
    have := denotes_small 1 (by decide)
    simpa using this
  have hzero : Denotes tight (List.replicate 5 0) 0 := by
    have := denotes_small 0 (by decide)
    simpa using this
  have hstart : PairDenotes (⟨1 :: List.replicate 4 0, List.replicate 5 0⟩,
      ⟨q, 1 :: List.replicate 4 0⟩) ⟨1, 0, x₁, 1⟩ := ⟨hone, hzero, hq, hone⟩
  have hloop := hstart.bigLoop hq n1 32
  rw [show 8 * 32 = 256 from rfl] at hloop
  obtain ⟨hx, hz, -, -⟩ := hloop
  simp only [ladderCmult, Montgomery.ladder]
  exact ⟨hx, hz⟩

/-! ## The evaluation -/

theorem curve25519ClampSecret_eq (secret : List UInt8) :
    curve25519ClampSecret secret = Curve25519.clamp secret := by
  rw [curve25519ClampSecret, Curve25519.clamp, List.modify_modify_eq]
  rfl

theorem four_ne_zero_field : (4 : Field25519) ≠ 0 := by
  have := Field25519.cast_ne_zero (n := 4) (by norm_num) (by norm_num [fieldPrime])
  exact_mod_cast this

/-- The native evaluation of the curve, with the highest bit of the base point masked. -/
theorem littleEndian_curve25519 {secret basepoint : List UInt8} (hsecret : secret.length = 32)
    (hbasepoint : basepoint.length = 32) :
    littleEndian (curve25519 secret basepoint) =
      (Montgomery.multiple 121665 ((littleEndian basepoint % 2 ^ 255 : ℕ) : Field25519)
        (Curve25519.scalarBits secret)).residue := by
  have hq := denotes_formatFexpand hbasepoint
  have hladder := ladderCmult_denotes hq (curve25519ClampSecret secret)
  dsimp only at hladder
  have hbits : (List.range 256).reverse.map (littleEndian (curve25519ClampSecret secret)).testBit =
      false :: Curve25519.scalarBits secret := by
    have htop : (Curve25519.scalar secret).testBit 255 = false :=
      Nat.testBit_lt_two_pow (Curve25519.scalar_lt hsecret)
    rw [curve25519ClampSecret_eq, Curve25519.testBits_succ, ← htop]
    rfl
  rw [hbits] at hladder
  rw [curve25519, formatScalarOfPoint,
    littleEndian_formatFcontract (hladder.1.loosen.fmul hladder.2.loosen.crecip.loosen)]
  rw [← Montgomery.multiple, Montgomery.multiple_cons_false four_ne_zero_field]

theorem length_curve25519 {secret basepoint : List UInt8} (hbasepoint : basepoint.length = 32) :
    (curve25519 secret basepoint).length = 32 := by
  have hladder := ladderCmult_denotes (denotes_formatFexpand hbasepoint)
    (curve25519ClampSecret secret)
  have hresult := hladder.1.loosen.fmul hladder.2.loosen.crecip.loosen
  obtain ⟨hbelow, -⟩ := formatFcontractSecondCarryFull_eq hresult.1
  obtain ⟨t0, t1, t2, t3, t4, ht, -⟩ := (formatFcontractTrim_eq hbelow).1.cases
  rw [curve25519, formatScalarOfPoint, formatFcontract, ht, formatFcontractStore]
  simp only [List.length_append, length_putUnalignedLe64]

end Hacl64

/-! ## Agreement -/

/-- The key without its highest bit. -/
def Key.clearTop (publicKey : Key) : Key where
  bytes := publicKey.bytes.modify 31 (· &&& 127)
  length_eq := by
    rw [List.length_modify, publicKey.length_eq]

theorem Key.littleEndian_clearTop (publicKey : Key) :
    littleEndian publicKey.clearTop.bytes = littleEndian publicKey.bytes % 2 ^ 255 := by
  apply Nat.eq_of_testBit_eq
  intro j
  rw [Nat.testBit_mod_two_pow, testBit_littleEndian, testBit_littleEndian]
  by_cases hj : j / 8 < 32
  · rw [clearTop, Curve25519.getD_modify (by rw [publicKey.length_eq]; exact hj)]
    split_ifs with htop
    · have hmask : (127 : UInt8).toNat.testBit (j % 8) = decide (j < 255) := by
        rw [show (127 : UInt8).toNat = 2 ^ 7 - 1 from rfl, Nat.testBit_two_pow_sub_one,
          decide_eq_decide]
        omega
      rw [UInt8.toNat_and, Nat.testBit_and, hmask, Bool.and_comm]
    · have hlow : j < 255 := by omega
      rw [decide_eq_true hlow, Bool.true_and]
  · have hbytes : ∀ k : Key, (k.bytes.getD (j / 8) 0).toNat.testBit (j % 8) = false := by
      intro k
      rw [List.getD_eq_default _ _ (by rw [k.length_eq]; omega)]
      exact Nat.zero_testBit _
    rw [hbytes, hbytes, Bool.and_false]

namespace Hacl64

/-- The native tools evaluate the curve as Java does, but for the highest bit of the public key, which
they ignore. -/
theorem curve25519_eq_eval (privateKey publicKey : Key) :
    curve25519 privateKey.bytes publicKey.bytes =
      Curve25519.eval privateKey (some publicKey.clearTop) := by
  have hclear := publicKey.littleEndian_clearTop
  have hrange : Curve25519.InRange (some publicKey.clearTop) := by
    change littleEndian publicKey.clearTop.bytes < _
    omega
  apply littleEndian_inj
  · rw [length_curve25519 publicKey.length_eq, Curve25519.eval, List.length_map, List.length_range]
  · rw [littleEndian_curve25519 privateKey.length_eq publicKey.length_eq,
      Curve25519.littleEndian_eval privateKey hrange, Curve25519.basePublic, hclear]

/-- Both derive the same public key. -/
theorem curve25519GeneratePublic_eq (privateKey : Key) :
    curve25519GeneratePublic privateKey.bytes = privateKey.generatePublicKey.bytes := by
  have hlength : (9 :: List.replicate 31 0 : List UInt8).length = 32 := rfl
  have hnine : littleEndian (9 :: List.replicate 31 0) % 2 ^ 255 = 9 := by decide
  apply littleEndian_inj
  · rw [curve25519GeneratePublic, length_curve25519 hlength, privateKey.generatePublicKey.length_eq]
  · rw [curve25519GeneratePublic, littleEndian_curve25519 privateKey.length_eq hlength, hnine]
    exact (Curve25519.littleEndian_eval privateKey (show Curve25519.InRange none from trivial)).symm

end Hacl64

end WgAndroid
