import WgAndroid.Crypto.Curve25519
import WgAndroid.Crypto.Prime
import WgAndroid.Lib.SignedWord

/-!
# The limbs of Curve25519 as field elements

What the methods of `Curve25519` compute on ten limbs of 26 bits, as integers and modulo
`2^255 - 19`. No sum or product of the source leaves its machine word; the tightest place is
`reduce`, where `limb` reaches the largest `int`.
-/

namespace WgAndroid.Curve25519

open SignedWord

/-- The limbs over the integers. -/
def ints (x : Limbs) : List ℤ :=
  x.map BitVec.toInt

/-- The number that the limbs spell. -/
def val (x : Limbs) : ℤ :=
  Radix.value (2 ^ 26) (ints x)

/-- Ten limbs of 26 bits. -/
structure Tidy (x : Limbs) : Prop where
  length : x.length = 10
  digits : Radix.Digits (2 ^ 26) (ints x)

@[simp]
theorem length_ints (x : Limbs) : (ints x).length = x.length :=
  List.length_map ..

theorem Tidy.val_nonneg {x : Limbs} (h : Tidy x) : 0 ≤ val x :=
  h.digits.value_nonneg (by norm_num)

theorem Tidy.val_lt {x : Limbs} (h : Tidy x) : val x < 32 * 2 ^ 255 := by
  have := h.digits.value_lt (by norm_num)
  rw [length_ints, h.length] at this
  exact lt_of_lt_of_eq this (by norm_num)

/-! ## Words -/

theorem fits_int {z : ℤ} (hlow : -2 ^ 31 ≤ z) (hhigh : z < 2 ^ 31) : Fits 32 z :=
  ⟨hlow, hhigh⟩

theorem toInt_limbMask (v : BitVec 32) : (v &&& 0x03FFFFFF).toInt = v.toInt % 2 ^ 26 :=
  toInt_and_mask (by norm_num) rfl v

theorem toInt_topMask (v : BitVec 32) : (v &&& 0x001FFFFF).toInt = v.toInt % 2 ^ 21 :=
  toInt_and_mask (by norm_num) rfl v

theorem toInt_bitMask (v : BitVec 32) : (v &&& 0x01).toInt = v.toInt % 2 ^ 1 :=
  toInt_and_mask (by norm_num) rfl v

theorem toInt_narrow (v : BitVec 64) : (v.setWidth 32 &&& 0x03FFFFFF).toInt = v.toInt % 2 ^ 26 := by
  rw [toInt_limbMask, toInt_emod _ (by norm_num), toInt_emod _ (by norm_num), BitVec.toNat_setWidth]
  norm_cast
  exact Nat.mod_mod_of_dvd _ (by norm_num)

/-! ## Carries -/

theorem ints_propagate {xs : Limbs} {c : BitVec 32} (hc : 0 ≤ c.toInt ∧ c.toInt < 2 ^ 30)
    (hxs : ∀ x ∈ xs, 0 ≤ x.toInt ∧ x.toInt < 2 ^ 30) :
    ints (propagate c xs) = Radix.digits (2 ^ 26) c.toInt (ints xs) := by
  induction xs generalizing c with
  | nil => rfl
  | cons x xs ih =>
    rw [List.forall_mem_cons] at hxs
    have hsum : (c + x).toInt = c.toInt + x.toInt :=
      toInt_add (by norm_num) (fits_int (by omega) (by omega))
    have hcarry : ((c + x).sshiftRight 26).toInt = (c.toInt + x.toInt) / 2 ^ 26 := by
      rw [toInt_sshiftRight, hsum]
    have hrest := ih (c := (c + x).sshiftRight 26) (by rw [hcarry]; omega) hxs.2
    rw [hcarry] at hrest
    simp only [propagate, ints, List.map_cons, toInt_limbMask, hsum, Radix.digits] at hrest ⊢
    rw [hrest]

theorem toInt_getD (x : Limbs) (n : ℕ) : (x.getD n 0).toInt = (ints x).getD n 0 := by
  induction x generalizing n with
  | nil => rfl
  | cons a x ih =>
    cases n with
    | zero => rfl
    | succ n => exact ih n

theorem ints_modify {f : BitVec 32 → BitVec 32} {g : ℤ → ℤ} (hfg : ∀ v, (f v).toInt = g v.toInt)
    (x : Limbs) (n : ℕ) : ints (x.modify n f) = (ints x).modify n g := by
  induction x generalizing n with
  | nil => simp [ints]
  | cons a x ih =>
    cases n with
    | zero => simp [ints, hfg]
    | succ n =>
      simp only [ints] at ih
      simp [ints, ih]

theorem ints_mask (x : Limbs) :
    ints (x.modify 9 (· &&& 0x001FFFFF)) = (ints x).modify 9 (· % 2 ^ 21) :=
  ints_modify (g := (· % 2 ^ 21)) toInt_topMask x 9

/-- The bits of the highest limb above the 255th bit of the number. -/
theorem Tidy.top {x : Limbs} (h : Tidy x) :
    ((x.getD 9 0).sshiftRight 21).toInt = val x / 2 ^ 255 := by
  have hlength : (ints x).length = 9 + 1 := by rw [length_ints, h.length]
  rw [toInt_sshiftRight, toInt_getD, Radix.getD_div (by norm_num) h.digits hlength]
  exact congrArg (val x / ·) (by norm_num)

/-- Masking the highest limb takes the number modulo `2^255`. -/
theorem Tidy.val_mask {x : Limbs} (h : Tidy x) :
    val (x.modify 9 (· &&& 0x001FFFFF)) = val x % 2 ^ 255 := by
  have hlength : (ints x).length = 9 + 1 := by rw [length_ints, h.length]
  rw [val, ints_mask, Radix.value_modify_mod (by norm_num) (by norm_num) h.digits hlength]
  exact congrArg (val x % ·) (by norm_num)

theorem Tidy.mask {x : Limbs} (h : Tidy x) : Tidy (x.modify 9 (· &&& 0x001FFFFF)) := by
  refine ⟨by rw [List.length_modify, h.length], ?_⟩
  rw [ints_mask]
  exact h.digits.modify_mod (by norm_num) 9

theorem Tidy.limb {x : Limbs} (h : Tidy x) {v : BitVec 32} (hv : v ∈ x) :
    0 ≤ v.toInt ∧ v.toInt < 2 ^ 26 :=
  h.digits _ (List.mem_map_of_mem hv)

theorem Tidy.ints_propagate {x : Limbs} (h : Tidy x) {c : BitVec 32}
    (hc : 0 ≤ c.toInt ∧ c.toInt < 2 ^ 30) :
    ints (propagate c x) = Radix.digits (2 ^ 26) c.toInt (ints x) := by
  refine Curve25519.ints_propagate hc fun v hv => ?_
  have := h.limb hv
  omega

/-- A run of carries over ten limbs, when nothing is carried out of them. -/
theorem tidy_of_digits {x : Limbs} {c : ℤ} {ts : List ℤ} (hlength : ts.length = 10)
    (h : ints x = Radix.digits (2 ^ 26) c ts) (hnonneg : 0 ≤ c + Radix.value (2 ^ 26) ts)
    (hlt : c + Radix.value (2 ^ 26) ts < 32 * 2 ^ 255) :
    Tidy x ∧ val x = c + Radix.value (2 ^ 26) ts := by
  refine ⟨⟨?_, ?_⟩, ?_⟩
  · rw [← length_ints, h, Radix.length_digits, hlength]
  · rw [h]
    exact Radix.digits_digits (by norm_num) c ts
  · rw [val, h, Radix.value_digits (by norm_num), hlength]
    exact Int.emod_eq_of_lt hnonneg (lt_of_lt_of_eq hlt (by norm_num))

theorem Tidy.propagate {x : Limbs} (h : Tidy x) {c : BitVec 32}
    (hc : 0 ≤ c.toInt ∧ c.toInt < 2 ^ 30) (hlt : c.toInt + val x < 32 * 2 ^ 255) :
    Tidy (propagate c x) ∧ val (Curve25519.propagate c x) = c.toInt + val x :=
  tidy_of_digits (by rw [length_ints, h.length]) (h.ints_propagate hc)
    (add_nonneg hc.1 h.val_nonneg) hlt

/-! ## One trial subtraction -/

theorem zipWith_select {x t : Limbs} (hlength : x.length = t.length) (b : Bool) :
    List.zipWith (fun x t => (x &&& ~~~(if b then BitVec.allOnes 32 else 0)) |||
      (t &&& (if b then BitVec.allOnes 32 else 0))) x t = if b then t else x := by
  induction x generalizing t with
  | nil =>
    cases t with
    | nil => cases b <;> rfl
    | cons u t => simp at hlength
  | cons v x ih =>
    cases t with
    | nil => simp at hlength
    | cons u t =>
      rw [List.zipWith_cons_cons, ih (Nat.succ_injective hlength)]
      cases b <;>
        simp only [Bool.false_eq_true, if_true, if_false, BitVec.ofNat_eq_ofNat, BitVec.not_zero,
          BitVec.not_allOnes, BitVec.and_allOnes, BitVec.and_zero, BitVec.or_zero, BitVec.zero_or]

/-- The mask that `reduceQuick` makes of a bit. -/
theorem neg_bit (v : BitVec 32) :
    -(v &&& 0x01) = if decide (v.toInt % 2 = 1) then BitVec.allOnes 32 else 0 := by
  have hbit : v &&& 0x01 = if decide (v.toInt % 2 = 1) then 1 else 0 := by
    apply BitVec.eq_of_toInt_eq
    rw [toInt_bitMask]
    rcases Int.emod_two_eq_zero_or_one v.toInt with h | h <;> simp [h]
  rw [hbit]
  cases decide (v.toInt % 2 = 1) <;> rfl

/-- Bit 255 of `x + 19` selects between `x` and `x + 19` without its bits from 255 on. -/
theorem Tidy.reduceQuick_eq {x : Limbs} (h : Tidy x) (hlt : val x + 19 < 32 * 2 ^ 255) :
    Tidy (reduceQuick x) ∧ val (Curve25519.reduceQuick x) =
      if (val x + 19) / 2 ^ 255 % 2 = 1 then (val x + 19) % 2 ^ 255 else val x := by
  obtain ⟨ht, hval⟩ : Tidy (Curve25519.propagate 19 x) ∧
      val (Curve25519.propagate 19 x) = 19 + val x := by
    refine h.propagate (by decide) ?_
    rw [add_comm]
    exact hlt
  have hbit := ht.top
  rw [hval, add_comm] at hbit
  have hselect : Curve25519.reduceQuick x = if decide ((val x + 19) / 2 ^ 255 % 2 = 1) then
      (Curve25519.propagate 19 x).modify 9 (· &&& 0x001FFFFF) else x := by
    rw [← zipWith_select (by rw [h.length, ht.mask.length]), Curve25519.reduceQuick, neg_bit, hbit]
  rw [hselect]
  by_cases hset : (val x + 19) / 2 ^ 255 % 2 = 1
  · simp only [hset, decide_true, if_true]
    rw [ht.val_mask, hval, add_comm]
    exact ⟨ht.mask, rfl⟩
  · simp only [hset, decide_false, Bool.false_eq_true, if_false]
    exact ⟨h, trivial⟩

/-- Ten limbs of 26 bits that spell a number below `2^255 - 19`. -/
structure Reduced (x : Limbs) : Prop extends Tidy x where
  lt : val x < 2 ^ 255 - 19

/-- One trial subtraction completes the reduction of a number below twice the prime. -/
theorem Tidy.reduced_reduceQuick {x : Limbs} (h : Tidy x) (hlt : val x < 2 * (2 ^ 255 - 19)) :
    Reduced (reduceQuick x) ∧
      val (Curve25519.reduceQuick x) = val x % (2 ^ 255 - 19) := by
  have hnonneg := h.val_nonneg
  obtain ⟨htidy, hval⟩ := h.reduceQuick_eq (by omega)
  have hmod : val (Curve25519.reduceQuick x) = val x % (2 ^ 255 - 19) := by
    rw [hval]
    split_ifs <;> omega
  refine ⟨⟨htidy, ?_⟩, hmod⟩
  rw [hmod]
  exact Int.emod_lt_of_pos _ (by norm_num)

/-! ## Addition and subtraction -/

theorem ints_addLimbs {x y : Limbs} {c : BitVec 32} (hc : 0 ≤ c.toInt ∧ c.toInt < 2 ^ 26)
    (hx : Radix.Digits (2 ^ 26) (ints x)) (hy : Radix.Digits (2 ^ 26) (ints y)) :
    ints (addLimbs c x y) =
      Radix.digits (2 ^ 26) c.toInt (List.zipWith (· + ·) (ints x) (ints y)) := by
  induction x generalizing y c with
  | nil => rfl
  | cons a x ih =>
    cases y with
    | nil => rfl
    | cons b y =>
      simp only [ints, List.map_cons, Radix.Digits, List.forall_mem_cons] at hx hy
      have hsum : (c + a + b).toInt = c.toInt + (a.toInt + b.toInt) := by
        have hfirst : (c + a).toInt = c.toInt + a.toInt :=
          toInt_add (by norm_num) (fits_int (by omega) (by omega))
        rw [toInt_add (by norm_num), hfirst, add_assoc]
        rw [hfirst]
        exact fits_int (by omega) (by omega)
      have hcarry : ((c + a + b).sshiftRight 26).toInt = (c.toInt + (a.toInt + b.toInt)) / 2 ^ 26 := by
        rw [toInt_sshiftRight, hsum]
      have hrest := ih (c := (c + a + b).sshiftRight 26) (by rw [hcarry]; omega) hx.2 hy.2
      rw [hcarry] at hrest
      simp only [addLimbs, ints, List.map_cons, List.zipWith_cons_cons, toInt_limbMask, hsum,
        Radix.digits] at hrest ⊢
      rw [hrest]

theorem Reduced.add {x y : Limbs} (hx : Reduced x) (hy : Reduced y) :
    Reduced (add x y) ∧ val (Curve25519.add x y) = (val x + val y) % (2 ^ 255 - 19) := by
  have hlength : (ints x).length = (ints y).length := by
    rw [length_ints, length_ints, hx.length, hy.length]
  have hvalue := Radix.value_zipWith_add (2 ^ 26) hlength
  have hsum : (0 : BitVec 32).toInt + Radix.value (2 ^ 26) (List.zipWith (· + ·) (ints x) (ints y)) =
      val x + val y := by
    rw [hvalue]
    exact zero_add _
  have hx₀ := hx.val_nonneg
  have hy₀ := hy.val_nonneg
  have hxlt := hx.lt
  have hylt := hy.lt
  obtain ⟨htidy, hval⟩ := tidy_of_digits
    (by rw [List.length_zipWith, length_ints, length_ints, hx.length, hy.length]; rfl)
    (ints_addLimbs (c := 0) (by decide) hx.digits hy.digits) (by rw [hsum]; omega)
    (by rw [hsum]; omega)
  rw [hsum] at hval
  have := htidy.reduced_reduceQuick (by rw [hval]; omega)
  rwa [hval] at this

/-- The borrow of a difference of two digits, with a borrow before it. -/
theorem toInt_borrowBit {v : BitVec 32} (h : -2 ^ 26 ≤ v.toInt ∧ v.toInt < 2 ^ 26) :
    (borrowBit v).toInt = -(v.toInt / 2 ^ 26) := by
  rw [borrowBit, toInt_bitMask, toInt_sshiftRight]
  omega

theorem ints_subLimbs {x y : Limbs} (bit : BitVec 32) (hbit : 0 ≤ bit.toInt ∧ bit.toInt ≤ 1)
    (hx : Radix.Digits (2 ^ 26) (ints x)) (hy : Radix.Digits (2 ^ 26) (ints y)) :
    ints (subLimbs bit x y).1 =
        Radix.digits (2 ^ 26) (-bit.toInt) (List.zipWith (· - ·) (ints x) (ints y)) ∧
      (subLimbs bit x y).2.toInt =
        -Radix.carryOut (2 ^ 26) (-bit.toInt) (List.zipWith (· - ·) (ints x) (ints y)) := by
  induction x generalizing y bit with
  | nil => exact ⟨rfl, (neg_neg _).symm⟩
  | cons a x ih =>
    cases y with
    | nil => exact ⟨rfl, (neg_neg _).symm⟩
    | cons b y =>
      simp only [ints, List.map_cons, Radix.Digits, List.forall_mem_cons] at hx hy
      have hdifference : (a - b - bit).toInt = -bit.toInt + (a.toInt - b.toInt) := by
        have hfirst : (a - b).toInt = a.toInt - b.toInt :=
          toInt_sub (by norm_num) (fits_int (by omega) (by omega))
        rw [toInt_sub (by norm_num), hfirst]
        · ring
        · rw [hfirst]
          exact fits_int (by omega) (by omega)
      have hborrow : (borrowBit (a - b - bit)).toInt =
          -((-bit.toInt + (a.toInt - b.toInt)) / 2 ^ 26) := by
        rw [toInt_borrowBit (by rw [hdifference]; omega), hdifference]
      have hrest := ih (borrowBit (a - b - bit)) (by rw [hborrow]; omega) hx.2 hy.2
      rw [hborrow, neg_neg] at hrest
      simp only [subLimbs, ints, List.map_cons, List.zipWith_cons_cons, toInt_limbMask, hdifference,
        Radix.digits, Radix.carryOut] at hrest ⊢
      rw [hrest.1, hrest.2]
      exact ⟨rfl, rfl⟩

theorem ints_borrowLimbs {x : Limbs} (amount : BitVec 32)
    (hamount : 0 ≤ amount.toInt ∧ amount.toInt ≤ 19) (hx : Radix.Digits (2 ^ 26) (ints x)) :
    ints (borrowLimbs amount x) = Radix.digits (2 ^ 26) (-amount.toInt) (ints x) := by
  induction x generalizing amount with
  | nil => rfl
  | cons a x ih =>
    simp only [ints, List.map_cons, Radix.Digits, List.forall_mem_cons] at hx
    have hdifference : (a - amount).toInt = -amount.toInt + a.toInt := by
      rw [toInt_sub (by norm_num) (fits_int (by omega) (by omega))]
      ring
    have hborrow : (borrowBit (a - amount)).toInt = -((-amount.toInt + a.toInt) / 2 ^ 26) := by
      rw [toInt_borrowBit (by rw [hdifference]; omega), hdifference]
    have hrest := ih (borrowBit (a - amount)) (by rw [hborrow]; omega) hx.2
    rw [hborrow, neg_neg] at hrest
    simp only [borrowLimbs, ints, List.map_cons, toInt_limbMask, hdifference, Radix.digits] at hrest ⊢
    rw [hrest]

/-- What the two loops of `sub` and the last mask make of a difference of two field elements. -/
theorem difference_mod {d : ℤ} (hlow : -(2 ^ 255 - 19) < d) (hhigh : d < 2 ^ 255 - 19) :
    (-(19 * -(d / (2 ^ 26) ^ 10)) + d % (2 ^ 26) ^ 10) % (2 ^ 26) ^ 10 % 2 ^ 255 =
      d % (2 ^ 255 - 19) := by
  rcases le_or_gt 0 d with hd | hd
  · rw [Int.ediv_eq_zero_of_lt hd (by omega), Int.emod_eq_of_lt hd (by omega),
      Int.emod_eq_of_lt hd hhigh]
    omega
  · have hquotient : d / (2 ^ 26) ^ 10 = -1 := by omega
    have hremainder : d % (2 ^ 26) ^ 10 = d + (2 ^ 26) ^ 10 := by omega
    have hresult : d % (2 ^ 255 - 19) = d + (2 ^ 255 - 19) := by omega
    rw [hquotient, hremainder, hresult]
    omega

theorem Reduced.sub {x y : Limbs} (hx : Reduced x) (hy : Reduced y) :
    Reduced (sub x y) ∧ val (Curve25519.sub x y) = (val x - val y) % (2 ^ 255 - 19) := by
  have hlength : (List.zipWith (· - ·) (ints x) (ints y)).length = 10 := by
    rw [List.length_zipWith, length_ints, length_ints, hx.length, hy.length]
    rfl
  have hvalue : Radix.value (2 ^ 26) (List.zipWith (· - ·) (ints x) (ints y)) = val x - val y :=
    Radix.value_zipWith_sub _ (by rw [length_ints, length_ints, hx.length, hy.length])
  have hx₀ := hx.val_nonneg
  have hy₀ := hy.val_nonneg
  have hxlt := hx.lt
  have hylt := hy.lt
  obtain ⟨hfirst, hborrow⟩ := ints_subLimbs 0 (by decide) hx.digits hy.digits
  have hzero : -(0 : BitVec 32).toInt = 0 := rfl
  rw [hzero] at hfirst hborrow
  rw [Radix.carryOut_eq (by norm_num), hlength, hvalue, zero_add] at hborrow
  generalize hr : subLimbs 0 x y = r at hfirst hborrow
  have hrdigits : Radix.Digits (2 ^ 26) (ints r.1) := by
    rw [hfirst]
    exact Radix.digits_digits (by norm_num) _ _
  have hrval : val r.1 = (val x - val y) % (2 ^ 26) ^ 10 := by
    rw [val, hfirst, Radix.value_digits (by norm_num), hlength, hvalue, zero_add]
  have hrlength : r.1.length = 10 := by
    rw [← length_ints, hfirst, Radix.length_digits, hlength]
  have hbit : r.2.toInt = 0 ∨ r.2.toInt = 1 := by omega
  have hamount : (-r.2 &&& 19).toInt = 19 * r.2.toInt := by
    rcases hbit with hbit | hbit
    · rw [show r.2 = 0 from BitVec.eq_of_toInt_eq hbit]
      rfl
    · rw [show r.2 = 1 from BitVec.eq_of_toInt_eq hbit]
      rfl
  have hsecond := ints_borrowLimbs (-r.2 &&& 19) (by rw [hamount]; omega) hrdigits
  rw [hamount] at hsecond
  have htidy : Tidy (borrowLimbs (-r.2 &&& 19) r.1) := by
    refine ⟨?_, ?_⟩
    · rw [← length_ints, hsecond, Radix.length_digits, length_ints, hrlength]
    · rw [hsecond]
      exact Radix.digits_digits (by norm_num) _ _
  have hval : val (borrowLimbs (-r.2 &&& 19) r.1) =
      (-(19 * r.2.toInt) + val r.1) % (2 ^ 26) ^ 10 := by
    rw [val, hsecond, Radix.value_digits (by norm_num), length_ints, hrlength]
    rfl
  have hresult : val (Curve25519.sub x y) = (val x - val y) % (2 ^ 255 - 19) := by
    rw [Curve25519.sub, hr, htidy.val_mask, hval, hrval, hborrow]
    exact difference_mod (by omega) (by omega)
  refine ⟨⟨?_, ?_⟩, hresult⟩
  · rw [Curve25519.sub, hr]
    exact htidy.mask
  · rw [hresult]
    exact Int.emod_lt_of_pos _ (by norm_num)

/-! ## Reduction -/

theorem toInt_shiftLeft_five {v : BitVec 32} (h : 0 ≤ v.toInt ∧ v.toInt < 2 ^ 26) :
    (v <<< 5).toInt = 32 * v.toInt := by
  have hfactor : (BitVec.twoPow 32 5).toInt = 32 := rfl
  rw [BitVec.shiftLeft_eq_mul_twoPow, toInt_mul (by norm_num), hfactor, mul_comm]
  rw [hfactor]
  exact fits_int (by omega) (by omega)

theorem toInt_limb {limb h : BitVec 32} (hlimb : 0 ≤ limb.toInt ∧ limb.toInt < 32)
    (hh : 0 ≤ h.toInt ∧ h.toInt < 2 ^ 26) :
    (limb + h <<< 5).toInt = limb.toInt + 32 * h.toInt := by
  have hshift := toInt_shiftLeft_five hh
  rw [toInt_add (by norm_num), hshift]
  rw [hshift]
  exact fits_int (by omega) (by omega)

theorem toInt_carry {carry x : BitVec 32} (limb : BitVec 32)
    (hcarry : 0 ≤ carry.toInt ∧ carry.toInt < 2 ^ 26) (hx : 0 ≤ x.toInt ∧ x.toInt < 2 ^ 26) :
    (carry + ((limb &&& 0x03FFFFFF) * 19 + x)).toInt =
      carry.toInt + (x.toInt + 19 * (limb.toInt % 2 ^ 26)) := by
  have hproduct : ((limb &&& 0x03FFFFFF) * 19).toInt = 19 * (limb.toInt % 2 ^ 26) := by
    have hnineteen : (19 : BitVec 32).toInt = 19 := rfl
    rw [toInt_mul (by norm_num), toInt_limbMask, hnineteen, mul_comm]
    rw [toInt_limbMask, hnineteen]
    exact fits_int (by omega) (by omega)
  have hinner : ((limb &&& 0x03FFFFFF) * 19 + x).toInt =
      19 * (limb.toInt % 2 ^ 26) + x.toInt := by
    rw [toInt_add (by norm_num), hproduct]
    rw [hproduct]
    exact fits_int (by omega) (by omega)
  rw [toInt_add (by norm_num), hinner, add_comm x.toInt]
  rw [hinner]
  exact fits_int (by omega) (by omega)

/-- The loops of `reduce` as two runs of carries, one inside the other. -/
theorem ints_fold (limb carry : BitVec 32) {high low : Limbs}
    (hlimb : 0 ≤ limb.toInt ∧ limb.toInt < 32) (hcarry : 0 ≤ carry.toInt ∧ carry.toInt < 2 ^ 26)
    (hhigh : Radix.Digits (2 ^ 26) (ints high)) (hlow : Radix.Digits (2 ^ 26) (ints low))
    (hlength : high.length ≤ low.length) :
    ints (fold limb carry high low) =
      Radix.digits (2 ^ 26) carry.toInt (Radix.accumulate 0
        ((Radix.digits (2 ^ 26) limb.toInt ((ints high).map (32 * ·))).map (19 * ·)) (ints low)) := by
  induction high generalizing limb carry low with
  | nil =>
    have hsmall : ∀ v ∈ low, 0 ≤ v.toInt ∧ v.toInt < 2 ^ 30 := by
      intro v hv
      have := hlow _ (List.mem_map_of_mem hv)
      omega
    have hrest : ints (propagate carry low) = Radix.digits (2 ^ 26) carry.toInt (ints low) :=
      ints_propagate (by omega) hsmall
    cases low <;> exact hrest
  | cons h high ih =>
    cases low with
    | nil => simp at hlength
    | cons x low =>
      simp only [ints, List.map_cons, Radix.Digits, List.forall_mem_cons] at hhigh hlow
      have hlimb' := toInt_limb hlimb hhigh.1
      have hcarry' := toInt_carry (limb + h <<< 5) hcarry hlow.1
      rw [hlimb'] at hcarry'
      have hshifted : ((limb + h <<< 5).sshiftRight 26).toInt =
          (limb.toInt + 32 * h.toInt) / 2 ^ 26 := by
        rw [toInt_sshiftRight, hlimb']
      have hcarried :
          ((carry + (((limb + h <<< 5) &&& 0x03FFFFFF) * 19 + x)).sshiftRight 26).toInt =
            (carry.toInt + (x.toInt + 19 * ((limb.toInt + 32 * h.toInt) % 2 ^ 26))) / 2 ^ 26 := by
        rw [toInt_sshiftRight, hcarry']
      have hrest := ih ((limb + h <<< 5).sshiftRight 26)
        ((carry + (((limb + h <<< 5) &&& 0x03FFFFFF) * 19 + x)).sshiftRight 26)
        (by rw [hshifted]; omega) (by rw [hcarried]; omega) hhigh.2 hlow.2
        (Nat.le_of_succ_le_succ hlength)
      rw [hshifted, hcarried] at hrest
      simp only [fold, ints, List.map_cons, Radix.digits, Radix.accumulate, toInt_limbMask,
        hcarry'] at hrest ⊢
      rw [hrest]

/-- Folding the bits from 255 on, with the factor 19, keeps a number modulo `2^255 - 19`. -/
theorem fold_mod (v : ℤ) : (19 * (v / 2 ^ 255) + v % 2 ^ 255) % (2 ^ 255 - 19) = v % (2 ^ 255 - 19) := by
  have hv : v = 19 * (v / 2 ^ 255) + v % 2 ^ 255 + (2 ^ 255 - 19) * (v / 2 ^ 255) := by omega
  conv_rhs => rw [hv]
  exact (Int.add_mul_emod_self_left ..).symm

theorem modify_append {low : Limbs} {n : ℕ} (h : n < low.length) (high : Limbs)
    (f : BitVec 32 → BitVec 32) : (low ++ high).modify n f = low.modify n f ++ high := by
  induction low generalizing n with
  | nil => simp at h
  | cons a low ih =>
    cases n with
    | zero => rfl
    | succ n =>
      rw [List.cons_append, List.modify_succ_cons, ih (Nat.lt_of_succ_lt_succ h),
        List.modify_succ_cons, List.cons_append]

/-- The first loops of `reduce` fold the bits from 255 on into the low limbs. -/
theorem Tidy.fold {low high : Limbs} (hlow : Tidy low) (hhigh : Radix.Digits (2 ^ 26) (ints high))
    (hsize : high.length ≤ 10) {v : ℤ} (hv : val low + 32 * 2 ^ 255 * val high = v)
    (hfit : v / 2 ^ 255 < (2 ^ 26) ^ high.length) (hlt : v / 2 ^ 255 < 2 ^ 255) :
    Tidy (fold ((low.getD 9 0).sshiftRight 21) 0 high (low.modify 9 (· &&& 0x001FFFFF))) ∧
      val (Curve25519.fold ((low.getD 9 0).sshiftRight 21) 0 high
        (low.modify 9 (· &&& 0x001FFFFF))) = 19 * (v / 2 ^ 255) + v % 2 ^ 255 := by
  have hlow₀ := hlow.val_nonneg
  have hlow₁ := hlow.val_lt
  have hhigh₀ : 0 ≤ val high := hhigh.value_nonneg (by norm_num)
  have htop := hlow.top
  have hlimb : val low / 2 ^ 255 + Radix.value (2 ^ 26) ((ints high).map (32 * ·)) = v / 2 ^ 255 := by
    rw [Radix.value_map_mul, ← hv]
    change val low / 2 ^ 255 + 32 * val high = _
    omega
  have hdigits := ints_fold ((low.getD 9 0).sshiftRight 21) 0 (by rw [htop]; omega) (by decide) hhigh
    hlow.mask.digits (by rw [hlow.mask.length]; exact hsize)
  rw [htop] at hdigits
  have hvalue : (0 : BitVec 32).toInt + Radix.value (2 ^ 26) (Radix.accumulate 0
      ((Radix.digits (2 ^ 26) (val low / 2 ^ 255) ((ints high).map (32 * ·))).map (19 * ·))
      (ints (low.modify 9 (· &&& 0x001FFFFF)))) = 19 * (v / 2 ^ 255) + v % 2 ^ 255 := by
    have hmasked : Radix.value (2 ^ 26) (ints (low.modify 9 (· &&& 0x001FFFFF))) = v % 2 ^ 255 := by
      rw [← hv]
      refine hlow.val_mask.trans ?_
      omega
    rw [Radix.value_accumulate (Nat.zero_le _), hmasked, Radix.value_map_mul,
      Radix.value_digits (by norm_num), hlimb, List.length_map, length_ints,
      Int.emod_eq_of_lt (by omega) hfit]
    change 0 + _ = _
    ring
  have := tidy_of_digits ?_ hdigits (by rw [hvalue]; omega) (by rw [hvalue]; omega)
  · rwa [hvalue] at this
  · rw [Radix.length_accumulate (Nat.zero_le _), length_ints, hlow.mask.length, List.length_map,
      Radix.length_digits, List.length_map, length_ints]
    omega

/-- `reduce`, on a number whose bits from 255 on fit both `size` limbs and 255 bits. -/
theorem Tidy.reduce {low : Limbs} (hlow : Tidy low) (high : Limbs)
    (hhigh : Radix.Digits (2 ^ 26) (ints high)) (hsize : high.length ≤ 10) {v : ℤ}
    (hv : val low + 32 * 2 ^ 255 * val high = v)
    (hfit : v / 2 ^ 255 < (2 ^ 26) ^ high.length) (hlt : v / 2 ^ 255 < 2 ^ 255) :
    Reduced (reduce (low ++ high) high.length) ∧
      val (Curve25519.reduce (low ++ high) high.length) = v % (2 ^ 255 - 19) := by
  have hlow₀ := hlow.val_nonneg
  have hhigh₀ : 0 ≤ val high := hhigh.value_nonneg (by norm_num)
  obtain ⟨htidy, hval⟩ := hlow.fold hhigh hsize hv hfit hlt
  have hunfold : Curve25519.reduce (low ++ high) high.length =
      let x := Curve25519.fold ((low.getD 9 0).sshiftRight 21) 0 high
        (low.modify 9 (· &&& 0x001FFFFF))
      Curve25519.reduceQuick (Curve25519.propagate ((x.getD 9 0).sshiftRight 21 * 19)
        (x.modify 9 (· &&& 0x001FFFFF))) := by
    have hlength : (low.modify 9 (· &&& 0x001FFFFF)).length = 10 := hlow.mask.length
    have hnine : 9 < low.length := by rw [hlow.length]; norm_num
    rw [Curve25519.reduce, List.getD_append _ _ _ _ hnine, modify_append hnine,
      List.take_left' hlength, List.drop_left' hlength, List.take_length]
  rw [hunfold]
  generalize Curve25519.fold ((low.getD 9 0).sshiftRight 21) 0 high
    (low.modify 9 (· &&& 0x001FFFFF)) = x at htidy hval
  -- the second pass leaves a number below twice the prime
  have hcarry : ((x.getD 9 0).sshiftRight 21 * 19).toInt = 19 * (val x / 2 ^ 255) := by
    have hnineteen : (19 : BitVec 32).toInt = 19 := rfl
    rw [toInt_mul (by norm_num), htidy.top, hnineteen, mul_comm]
    rw [htidy.top, hnineteen]
    exact fits_int (by omega) (by omega)
  obtain ⟨hsecond, hsecondVal⟩ := htidy.mask.propagate
    (c := (x.getD 9 0).sshiftRight 21 * 19) (by rw [hcarry]; omega)
    (by rw [hcarry, htidy.val_mask]; omega)
  rw [hcarry, htidy.val_mask] at hsecondVal
  obtain ⟨hreduced, hresult⟩ := hsecond.reduced_reduceQuick (by rw [hsecondVal]; omega)
  refine ⟨hreduced, ?_⟩
  rw [hresult, hsecondVal, fold_mod, hval, fold_mod]

/-- `reduce` in terms of all the limbs. -/
theorem reduced_reduce {x : Limbs} (size : ℕ) (hsize : size ≤ 10) (hlength : x.length = 10 + size)
    (hdigits : Radix.Digits (2 ^ 26) (ints x)) (hfit : val x / 2 ^ 255 < (2 ^ 26) ^ size)
    (hlt : val x / 2 ^ 255 < 2 ^ 255) :
    Reduced (reduce x size) ∧ val (reduce x size) = val x % (2 ^ 255 - 19) := by
  have hsplit : x.take 10 ++ x.drop 10 = x := List.take_append_drop 10 x
  have hints : ints (x.take 10) ++ ints (x.drop 10) = ints x := by
    rw [ints, ints, ← List.map_append, hsplit, ints]
  have hlow : Tidy (x.take 10) := by
    refine ⟨by rw [List.length_take, hlength]; omega, fun t ht => hdigits t ?_⟩
    rw [← hints]
    exact List.mem_append_left _ ht
  have hhigh : Radix.Digits (2 ^ 26) (ints (x.drop 10)) := by
    refine fun t ht => hdigits t ?_
    rw [← hints]
    exact List.mem_append_right _ ht
  have hsizeEq : (x.drop 10).length = size := by
    rw [List.length_drop, hlength]
    omega
  have hval : val (x.take 10) + 32 * 2 ^ 255 * val (x.drop 10) = val x := by
    rw [val, val, val, ← hints, Radix.value_append, length_ints, hlow.length]
    norm_num
  have := hlow.reduce _ hhigh (by rw [hsizeEq]; exact hsize) hval (by rw [hsizeEq]; exact hfit) hlt
  rwa [hsplit, hsizeEq] at this

/-! ## Multiplication -/

theorem fits_long {z : ℤ} (hlow : -2 ^ 63 ≤ z) (hhigh : z < 2 ^ 63) : Fits 64 z :=
  ⟨hlow, hhigh⟩

theorem narrow_eq {ts : List (BitVec 64)} {v : BitVec 64} (hv : 0 ≤ v.toInt ∧ v.toInt < 2 ^ 62)
    (hts : ∀ t ∈ ts, 0 ≤ t.toInt ∧ t.toInt < 2 ^ 62) :
    ints (narrow v ts).1 = Radix.digits (2 ^ 26) v.toInt (ts.map BitVec.toInt) ∧
      (narrow v ts).2.toInt = Radix.carryOut (2 ^ 26) v.toInt (ts.map BitVec.toInt) := by
  induction ts generalizing v with
  | nil => exact ⟨rfl, rfl⟩
  | cons t ts ih =>
    rw [List.forall_mem_cons] at hts
    have hsum : (v + t).toInt = v.toInt + t.toInt :=
      toInt_add (by norm_num) (fits_long (by omega) (by omega))
    have hcarry : ((v + t).sshiftRight 26).toInt = (v.toInt + t.toInt) / 2 ^ 26 := by
      rw [toInt_sshiftRight, hsum]
    have hrest := ih (v := (v + t).sshiftRight 26) (by rw [hcarry]; omega) hts.2
    rw [hcarry] at hrest
    simp only [narrow, ints, List.map_cons, toInt_narrow, hsum, Radix.digits, Radix.carryOut] at hrest ⊢
    rw [hrest.1, hrest.2]
    exact ⟨rfl, rfl⟩

theorem map_signExtend (x : Limbs) :
    x.map (·.signExtend 64) = (ints x).map (BitVec.ofInt 64) := by
  rw [ints, List.map_map]
  rfl

/-- The columns of a product stay below `2^62`, so that they are exact. -/
theorem map_toInt_product {x y : Limbs} (hx : Tidy x) (hy : Tidy y) :
    (Radix.product (x.map (·.signExtend 64)) (y.map (·.signExtend 64))).map BitVec.toInt =
        Radix.product (ints x) (ints y) ∧
      ∀ t ∈ Radix.product (ints x) (ints y), 0 ≤ t ∧ t < 2 ^ 62 := by
  have hcolumns : ∀ t ∈ Radix.product (ints x) (ints y), 0 ≤ t ∧ t < 2 ^ 62 := by
    have hatMost : ∀ {z : Limbs}, Tidy z → Radix.AtMost (2 ^ 26) (ints z) :=
      fun hz t ht => ⟨(hz.digits t ht).1, (hz.digits t ht).2.le⟩
    have hbound := Radix.AtMost.product (by norm_num) (by norm_num) (hatMost hx) (hatMost hy)
    rw [length_ints, hx.length] at hbound
    intro t ht
    have := hbound t ht
    norm_num at this
    omega
  refine ⟨?_, hcolumns⟩
  rw [map_signExtend, map_signExtend,
    ← Radix.map_product (fun _ _ => BitVec.ofInt_add ..) (fun _ _ => BitVec.ofInt_mul ..),
    List.map_map]
  calc (Radix.product (ints x) (ints y)).map (BitVec.toInt ∘ BitVec.ofInt 64)
      = (Radix.product (ints x) (ints y)).map id := by
        refine List.map_congr_left fun t ht => ?_
        have := hcolumns t ht
        exact BitVec.toInt_ofInt_eq_self (by norm_num) (by omega) (by omega)
    _ = Radix.product (ints x) (ints y) := List.map_id _

theorem Reduced.mul {x y : Limbs} (hx : Reduced x) (hy : Reduced y) :
    Reduced (mul x y) ∧ val (Curve25519.mul x y) = val x * val y % (2 ^ 255 - 19) := by
  obtain ⟨hproduct, hcolumns⟩ := map_toInt_product hx.toTidy hy.toTidy
  have hbounds : ∀ t ∈ Radix.product (x.map (·.signExtend 64)) (y.map (·.signExtend 64)) ++ [0],
      0 ≤ t.toInt ∧ t.toInt < 2 ^ 62 := by
    intro t ht
    rcases List.mem_append.mp ht with ht | ht
    · exact hcolumns _ (hproduct ▸ List.mem_map_of_mem ht)
    · rw [List.mem_singleton.mp ht]
      decide
  have hnarrow := (narrow_eq (v := 0) (by decide) hbounds).1
  rw [List.map_append, hproduct] at hnarrow
  change ints _ = Radix.digits (2 ^ 26) 0 (Radix.product (ints x) (ints y) ++ [0]) at hnarrow
  have hyne : ints y ≠ [] := by
    rw [← List.length_pos_iff, length_ints, hy.length]
    norm_num
  have hlength : (Radix.product (ints x) (ints y) ++ [0]).length = 20 := by
    obtain ⟨v, rest, hrest⟩ := List.exists_cons_of_length_eq_add_one
      ((length_ints x).trans hx.length)
    have hcount : rest.length = 9 := by
      have := (length_ints x).trans hx.length
      rw [hrest] at this
      exact Nat.succ_injective this
    rw [List.length_append, hrest, Radix.length_product hyne, hcount, length_ints, hy.length]
    rfl
  have hvalue : Radix.value (2 ^ 26) (Radix.product (ints x) (ints y) ++ [0]) = val x * val y := by
    rw [Radix.value_append, Radix.value_product hyne]
    simp [val]
  have hx₀ := hx.val_nonneg
  have hy₀ := hy.val_nonneg
  have hbound : val x * val y < 2 ^ 255 * 2 ^ 255 :=
    mul_lt_mul'' (hx.lt.trans (by norm_num)) (hy.lt.trans (by norm_num)) hx₀ hy₀
  have hquotient : val x * val y / 2 ^ 255 < 2 ^ 255 := Int.ediv_lt_of_lt_mul (by norm_num) hbound
  have hval : val (narrow 0
      (Radix.product (x.map (·.signExtend 64)) (y.map (·.signExtend 64)) ++ [0])).1 =
        val x * val y := by
    rw [val, hnarrow, Radix.value_digits (by norm_num), hlength, hvalue, zero_add]
    exact Int.emod_eq_of_lt (mul_nonneg hx₀ hy₀) (hbound.trans (by norm_num))
  have := reduced_reduce 10 le_rfl ?_ ?_ (by rw [hval]; omega) (by rw [hval]; exact hquotient)
  · rwa [hval] at this
  · rw [← length_ints, hnarrow, Radix.length_digits, hlength]
  · rw [hnarrow]
    exact Radix.digits_digits (by norm_num) _ _

theorem Reduced.mulA24 {x : Limbs} (hx : Reduced x) :
    Reduced (mulA24 x) ∧ val (Curve25519.mulA24 x) = 121665 * val x % (2 ^ 255 - 19) := by
  have hconstant : (121665 : BitVec 64).toInt = 121665 := rfl
  have hterm : ∀ v ∈ x, (121665 * v.signExtend 64).toInt = 121665 * v.toInt := by
    intro v hv
    have hlimb := hx.limb hv
    have hextend : (v.signExtend 64).toInt = v.toInt := BitVec.toInt_signExtend_of_le (by norm_num)
    rw [toInt_mul (by norm_num), hconstant, hextend]
    rw [hconstant, hextend]
    exact fits_long (by omega) (by omega)
  have hterms : (x.map fun x => 121665 * x.signExtend 64).map BitVec.toInt =
      (ints x).map (121665 * ·) := by
    rw [List.map_map, ints, List.map_map]
    exact List.map_congr_left hterm
  have hbounds : ∀ t ∈ x.map fun x => 121665 * x.signExtend 64,
      0 ≤ t.toInt ∧ t.toInt < 2 ^ 62 := by
    rw [List.forall_mem_map]
    intro v hv
    have hlimb := hx.limb hv
    rw [hterm v hv]
    omega
  obtain ⟨hnarrow, hcarry⟩ := narrow_eq (v := 0) (by decide) hbounds
  rw [hterms] at hnarrow hcarry
  have hx₀ := hx.val_nonneg
  have hxlt := hx.lt
  have hvalue : (0 : BitVec 64).toInt + Radix.value (2 ^ 26) ((ints x).map (121665 * ·)) =
      121665 * val x := by
    rw [Radix.value_map_mul]
    exact zero_add _
  have hlength : ((ints x).map (121665 * ·)).length = 10 := by
    rw [List.length_map, length_ints, hx.length]
  rw [Curve25519.mulA24]
  generalize narrow 0 (x.map fun x => 121665 * x.signExtend 64) = t at hnarrow hcarry
  rw [Radix.carryOut_eq (by norm_num), hlength, hvalue] at hcarry
  have hdigit : (t.2.setWidth 32 &&& 0x03FFFFFF).toInt = 121665 * val x / (2 ^ 26) ^ 10 := by
    rw [toInt_narrow, hcarry]
    omega
  have hlow : Tidy t.1 := by
    refine ⟨?_, ?_⟩
    · rw [← length_ints, hnarrow, Radix.length_digits, hlength]
    · rw [hnarrow]
      exact Radix.digits_digits (by norm_num) _ _
  have hlowVal : val t.1 = 121665 * val x % (2 ^ 26) ^ 10 := by
    rw [val, hnarrow, Radix.value_digits (by norm_num), hvalue, hlength]
  have hhigh : ints [t.2.setWidth 32 &&& 0x03FFFFFF] = [121665 * val x / (2 ^ 26) ^ 10] := by
    rw [ints, List.map_singleton, hdigit]
  refine hlow.reduce [_] ?_ (by norm_num) ?_ ?_ ?_
  · rw [hhigh, Radix.Digits, List.forall_mem_singleton]
    omega
  · have hsingle : val [t.2.setWidth 32 &&& 0x03FFFFFF] = 121665 * val x / (2 ^ 26) ^ 10 := by
      rw [val, hhigh]
      simp
    rw [hlowVal, hsingle]
    omega
  · change 121665 * val x / 2 ^ 255 < (2 ^ 26) ^ 1
    omega
  · omega

end WgAndroid.Curve25519
