import WgAndroid.Crypto.Prime
import WgAndroid.Lib.Radix
import WgAndroid.Tools.Hacl64

/-!
# The words of the native Curve25519 as field elements

What the functions of `curve25519-hacl64.h` compute on five words of 51 bits and more, modulo
`2^255 - 19`. A product takes words up to `loose`, which leaves no room for more: the word that the
highest carry is folded into then comes within 6% of `2^64`. It returns words up to `tight`, and
sums and differences of those are `loose` again.
-/

namespace WgAndroid.Hacl64

/-- The words over the integers. -/
def nats {w : ℕ} (x : List (BitVec w)) : List ℤ :=
  x.map fun v => (v.toNat : ℤ)

/-- The number that the words spell. -/
def val (x : Felem) : ℤ :=
  Radix.value (2 ^ 51) (nats x)

/-- Five words below `B`. -/
structure Below (B : ℕ) (x : Felem) : Prop where
  length : x.length = 5
  lt : ∀ v ∈ x, v.toNat < B

/-- The bound of what a product returns. -/
def tight : ℕ := 2 ^ 51 + 2 ^ 13

/-- The bound of what a product takes. -/
def loose : ℕ := 2 ^ 54 + 2 ^ 51 + 2 ^ 13

theorem Below.mono {B C : ℕ} {x : Felem} (h : Below B x) (hle : B ≤ C) : Below C x :=
  ⟨h.length, fun v hv => (h.lt v hv).trans_le hle⟩

theorem below_iff {B : ℕ} {x0 x1 x2 x3 x4 : BitVec 64} : Below B [x0, x1, x2, x3, x4] ↔
    x0.toNat < B ∧ x1.toNat < B ∧ x2.toNat < B ∧ x3.toNat < B ∧ x4.toNat < B := by
  constructor
  · intro h
    simpa using h.lt
  · intro h
    exact ⟨rfl, by simpa using h⟩

theorem Below.cases {B : ℕ} {x : Felem} (h : Below B x) : ∃ x0 x1 x2 x3 x4, x = [x0, x1, x2, x3, x4] ∧
    x0.toNat < B ∧ x1.toNat < B ∧ x2.toNat < B ∧ x3.toNat < B ∧ x4.toNat < B := by
  obtain ⟨x0, x1, x2, x3, x4, rfl⟩ : ∃ x0 x1 x2 x3 x4, x = [x0, x1, x2, x3, x4] := by
    have hlength := h.length
    obtain _ | ⟨x0, _ | ⟨x1, _ | ⟨x2, _ | ⟨x3, _ | ⟨x4, _ | ⟨x5, x⟩⟩⟩⟩⟩⟩ := x <;> simp at hlength
    exact ⟨x0, x1, x2, x3, x4, rfl⟩
  exact ⟨x0, x1, x2, x3, x4, rfl, below_iff.mp h⟩

/-! ## Words -/

theorem toNat_mask (v : BitVec 64) : (v &&& 0x7ffffffffffff).toNat = v.toNat % 2 ^ 51 := by
  rw [BitVec.toNat_and]
  exact Nat.and_two_pow_sub_one_eq_mod v.toNat 51

theorem toNat_maskWide (v : BitVec 128) : (v &&& 0x7ffffffffffff).toNat = v.toNat % 2 ^ 51 := by
  rw [BitVec.toNat_and]
  exact Nat.and_two_pow_sub_one_eq_mod v.toNat 51

theorem toNat_shift {w : ℕ} (v : BitVec w) : (v >>> 51).toNat = v.toNat / 2 ^ 51 := by
  rw [BitVec.toNat_ushiftRight, Nat.shiftRight_eq_div_pow]

theorem toNat_mulWide (x s : BitVec 64) : (mulWide x s).toNat = x.toNat * s.toNat := by
  have hx : (x.setWidth 128).toNat = x.toNat := BitVec.toNat_setWidth_of_le (by norm_num)
  have hs : (s.setWidth 128).toNat = s.toNat := BitVec.toNat_setWidth_of_le (by norm_num)
  have hproduct : x.toNat * s.toNat < 2 ^ 64 * 2 ^ 64 := Nat.mul_lt_mul'' x.isLt s.isLt
  rw [mulWide, BitVec.toNat_mul_of_lt, hx, hs]
  rw [hx, hs]
  exact hproduct.trans_eq (by norm_num)

theorem toNat_mul_literal {x c : BitVec 64} (h : x.toNat * c.toNat < 2 ^ 64) :
    (x * c).toNat = x.toNat * c.toNat :=
  BitVec.toNat_mul_of_lt h

/-- A run of carries over the integers. -/
theorem nats_carryRun {w : ℕ} {low : BitVec w → BitVec w}
    (hlow : ∀ t, (low t).toNat = t.toNat % 2 ^ 51) {carry : BitVec w} {ts : List (BitVec w)}
    (hcarry : 2 * carry.toNat < 2 ^ w) (hts : ∀ t ∈ ts, 2 * t.toNat < 2 ^ w) :
    nats (carryRun low carry ts) = Radix.settle (2 ^ 51) carry.toNat (nats ts) := by
  fun_induction carryRun low carry ts with
  | case1 carry => rfl
  | case2 carry t =>
    rw [List.forall_mem_singleton] at hts
    have hsum : (t + carry).toNat = t.toNat + carry.toNat := BitVec.toNat_add_of_lt (by omega)
    simp only [nats, List.map_cons, List.map_nil, Radix.settle, hsum, Nat.cast_add]
  | case3 carry t ts hne ih =>
    rw [List.forall_mem_cons] at hts
    have hsum : (t + carry).toNat = t.toNat + carry.toNat := BitVec.toNat_add_of_lt (by omega)
    have hshift : ((t + carry) >>> 51).toNat = (t.toNat + carry.toNat) / 2 ^ 51 := by
      rw [toNat_shift, hsum]
    have hrest := ih (by rw [hshift]; omega) hts.2
    obtain ⟨u, us, rfl⟩ := List.exists_cons_of_ne_nil hne
    simp only [nats, List.map_cons, hlow, hsum, hshift] at hrest ⊢
    rw [Radix.settle, hrest]
    · push_cast
      rfl
    · simp

theorem toNat_lowWide (t : BitVec 128) :
    ((t.setWidth 64 &&& 0x7ffffffffffff).setWidth 128).toNat = t.toNat % 2 ^ 51 := by
  rw [BitVec.toNat_setWidth_of_le (by norm_num), toNat_mask, BitVec.toNat_setWidth]
  exact Nat.mod_mod_of_dvd _ (by norm_num)

/-! ## The end of a product -/

/-- `2^255` is 19 in the field. -/
theorem cast_add_mul_prime (v k : ℤ) :
    ((v + (2 ^ 255 - 19) * k : ℤ) : Field25519) = (v : Field25519) := by
  rw [← Field25519.cast_mod, Int.add_mul_emod_self_left, Field25519.cast_mod]

theorem carryRun_five {w : ℕ} {low : BitVec w → BitVec w}
    (hlow : ∀ t, (low t).toNat = t.toNat % 2 ^ 51) (t0 t1 t2 t3 t4 : BitVec w)
    (h : ∀ t ∈ [t0, t1, t2, t3, t4], 2 * t.toNat < 2 ^ w) :
    ∃ b0 b1 b2 b3 b4, carryRun low 0 [t0, t1, t2, t3, t4] = [b0, b1, b2, b3, b4] ∧
      b0.toNat < 2 ^ 51 ∧ b1.toNat < 2 ^ 51 ∧ b2.toNat < 2 ^ 51 ∧ b3.toNat < 2 ^ 51 ∧
      Radix.value (2 ^ 51) (nats [b0, b1, b2, b3, b4]) =
        Radix.value (2 ^ 51) (nats [t0, t1, t2, t3, t4]) := by
  have hdigit : ∀ t, (low t).toNat < 2 ^ 51 := by
    intro t
    rw [hlow]
    exact Nat.mod_lt _ (by norm_num)
  have hrun : nats (carryRun low 0 [t0, t1, t2, t3, t4]) =
      Radix.settle (2 ^ 51) (0 : BitVec w).toNat (nats [t0, t1, t2, t3, t4]) :=
    nats_carryRun hlow (by simp) h
  have hne : nats [t0, t1, t2, t3, t4] ≠ [] := List.cons_ne_nil _ _
  have hvalue := Radix.value_settle (R := 2 ^ 51) (0 : BitVec w).toNat hne
  rw [← hrun, BitVec.ofNat_eq_ofNat, BitVec.toNat_ofNat, Nat.zero_mod, Nat.cast_zero,
    zero_add] at hvalue
  exact ⟨_, _, _, _, _, rfl, hdigit _, hdigit _, hdigit _, hdigit _, hvalue⟩

theorem value_nats {w : ℕ} (x0 x1 x2 x3 x4 : BitVec w) :
    Radix.value (2 ^ 51) (nats [x0, x1, x2, x3, x4]) = x0.toNat + 2 ^ 51 * x1.toNat +
      2 ^ 102 * x2.toNat + 2 ^ 153 * x3.toNat + 2 ^ 204 * x4.toNat := by
  simp only [nats, List.map_cons, List.map_nil, Radix.value]
  ring

theorem foldWide_eq (t0 t1 t2 t3 t4 : BitVec 128) (h0 : t0.toNat < 2 ^ 118) (h1 : t1.toNat < 2 ^ 118)
    (h2 : t2.toNat < 2 ^ 118) (h3 : t3.toNat < 2 ^ 118) (h4 : t4.toNat < 13 * 2 ^ 107) :
    ∃ r0 r1 r2 r3 r4, foldWide [t0, t1, t2, t3, t4] = [r0, r1, r2, r3, r4] ∧
      r0.toNat < 2 ^ 51 + 19 * ((t4.toNat + 2 ^ 68) / 2 ^ 51) ∧ r1.toNat < 2 ^ 51 ∧
      r2.toNat < 2 ^ 51 ∧ r3.toNat < 2 ^ 51 ∧ r4.toNat < 2 ^ 51 ∧
      ((val [r0, r1, r2, r3, r4] : ℤ) : Field25519) =
        (Radix.value (2 ^ 51) (nats [t0, t1, t2, t3, t4]) : ℤ) := by
  obtain ⟨b0, b1, b2, b3, b4, hb, hb0, hb1, hb2, hb3, hvalue⟩ :=
    carryRun_five toNat_lowWide t0 t1 t2 t3 t4 (by simp; omega)
  rw [← hvalue]
  rw [value_nats, value_nats] at hvalue
  have hb4 : b4.toNat < t4.toNat + 2 ^ 68 := by omega
  have hcopy : ∀ {v : BitVec 128}, v.toNat < 2 ^ 64 → (v.setWidth 64).toNat = v.toNat := by
    intro v hv
    rw [BitVec.toNat_setWidth, Nat.mod_eq_of_lt hv]
  have hcarry : (((b4 >>> 51).setWidth 64).setWidth 128).toNat = b4.toNat / 2 ^ 51 := by
    rw [BitVec.toNat_setWidth_of_le (by norm_num), hcopy, toNat_shift]
    rw [toNat_shift]
    omega
  have hproduct : (19 * ((b4 >>> 51).setWidth 64).setWidth 128).toNat = 19 * (b4.toNat / 2 ^ 51) := by
    rw [BitVec.toNat_mul_of_lt, hcarry]
    · rfl
    · rw [hcarry]
      change 19 * _ < _
      omega
  have hfold : (b0 + 19 * ((b4 >>> 51).setWidth 64).setWidth 128).toNat =
      b0.toNat + 19 * (b4.toNat / 2 ^ 51) := by
    rw [BitVec.toNat_add_of_lt, hproduct]
    rw [hproduct]
    omega
  have hr0 : ((b0 + 19 * ((b4 >>> 51).setWidth 64).setWidth 128).setWidth 64).toNat =
      b0.toNat + 19 * (b4.toNat / 2 ^ 51) := by
    rw [hcopy, hfold]
    rw [hfold]
    omega
  have hr4 : ((b4 &&& 0x7ffffffffffff).setWidth 64).toNat = b4.toNat % 2 ^ 51 := by
    rw [hcopy, toNat_maskWide]
    rw [toNat_maskWide]
    omega
  refine ⟨_, _, _, _, _, by rw [foldWide, fproductCarryWide, hb], ?_, ?_, ?_, ?_, ?_, ?_⟩
  · rw [hr0]
    omega
  · rwa [hcopy (by omega)]
  · rwa [hcopy (by omega)]
  · rwa [hcopy (by omega)]
  · rw [hr4]
    omega
  · rw [val, value_nats, value_nats, hr0, hr4, hcopy (by omega), hcopy (by omega),
      hcopy (by omega), ← cast_add_mul_prime _ (b4.toNat / 2 ^ 51)]
    congr 1
    omega

/-- The fold of a product of loose words, and the carry out of its first word. -/
theorem carryFirst_foldWide {t0 t1 t2 t3 t4 : BitVec 128} (h0 : t0.toNat < 2 ^ 118)
    (h1 : t1.toNat < 2 ^ 118) (h2 : t2.toNat < 2 ^ 118) (h3 : t3.toNat < 2 ^ 118)
    (h4 : t4.toNat < 13 * 2 ^ 107) :
    Below tight (carryFirst (foldWide [t0, t1, t2, t3, t4])) ∧
      ((val (carryFirst (foldWide [t0, t1, t2, t3, t4])) : ℤ) : Field25519) =
        (Radix.value (2 ^ 51) (nats [t0, t1, t2, t3, t4]) : ℤ) := by
  obtain ⟨r0, r1, r2, r3, r4, hr, hr0, hr1, hr2, hr3, hr4, hvalue⟩ :=
    foldWide_eq t0 t1 t2 t3 t4 h0 h1 h2 h3 h4
  have hword := r0.isLt
  have hsum : (r1 + r0 >>> 51).toNat = r1.toNat + r0.toNat / 2 ^ 51 := by
    rw [BitVec.toNat_add_of_lt, toNat_shift]
    rw [toNat_shift]
    omega
  rw [hr, carryFirst]
  refine ⟨below_iff.mpr ?_, ?_⟩
  · rw [hsum, toNat_mask, tight]
    omega
  · rw [← hvalue, val, val, value_nats, value_nats, hsum, toNat_mask]
    congr 1
    omega

/-! ## Products -/

theorem toNat_column {u0 u1 u2 u3 u4 : BitVec 128} (h0 : u0.toNat < 2 ^ 115)
    (h1 : u1.toNat < 2 ^ 115) (h2 : u2.toNat < 2 ^ 115) (h3 : u3.toNat < 2 ^ 115)
    (h4 : u4.toNat < 2 ^ 115) :
    (0 + u0 + u1 + u2 + u3 + u4).toNat =
        u0.toNat + u1.toNat + u2.toNat + u3.toNat + u4.toNat ∧
      (0 + u0 + u1 + u2 + u3 + u4).toNat < 2 ^ 118 := by
  rw [BitVec.ofNat_eq_ofNat, BitVec.zero_add]
  simp only [BitVec.toNat_add]
  omega

section Terms

variable {a b : BitVec 64} (ha : a.toNat < loose) (hb : b.toNat < loose)
include ha hb

theorem mul_lt_loose : a.toNat * b.toNat < loose * loose :=
  Nat.mul_lt_mul'' ha hb

theorem mulWide_lt : (mulWide a b).toNat < 2 ^ 115 := by
  have := mul_lt_loose ha hb
  rw [toNat_mulWide]
  exact this.trans (by norm_num [loose])

variable {c : BitVec 64} (hc : c.toNat ≤ 38)
include hc

omit hb in
/-- A product of a loose word by a number up to 38. -/
theorem toNat_mul_small : (a * c).toNat = a.toNat * c.toNat := by
  apply BitVec.toNat_mul_of_lt
  exact (Nat.mul_le_mul ha.le hc).trans_lt (by norm_num [loose])

omit hb in
theorem toNat_mulWide_small : (mulWide (a * c) b).toNat = c.toNat * (a.toNat * b.toNat) := by
  rw [toNat_mulWide, toNat_mul_small ha hc]
  ring

theorem mulWide_small_lt : (mulWide (a * c) b).toNat < 2 ^ 115 := by
  have := mul_lt_loose ha hb
  rw [toNat_mulWide_small ha hc]
  exact (Nat.mul_le_mul hc this.le).trans_lt (by norm_num [loose])

omit hc hb in
theorem toNat_term : (mulWide (19 * a) b).toNat = 19 * (a.toNat * b.toNat) := by
  rw [BitVec.mul_comm]
  exact toNat_mulWide_small ha (by decide)

omit hc in
theorem term_lt : (mulWide (19 * a) b).toNat < 2 ^ 115 := by
  rw [BitVec.mul_comm]
  exact mulWide_small_lt ha hb (by decide)

end Terms

/-- The columns of a product, with those above the fifth folded. -/
theorem fmulMulShiftReduce_eq {a0 a1 a2 a3 a4 b0 b1 b2 b3 b4 : BitVec 64}
    (ha : Below loose [a0, a1, a2, a3, a4]) (hb : Below loose [b0, b1, b2, b3, b4]) :
    ∃ t0 t1 t2 t3 t4,
      fmulMulShiftReduce (List.replicate 5 0) [a0, a1, a2, a3, a4] [b0, b1, b2, b3, b4] =
        [t0, t1, t2, t3, t4] ∧
      (t0.toNat = a0.toNat * b0.toNat + 19 * (a4.toNat * b1.toNat) + 19 * (a3.toNat * b2.toNat) +
        19 * (a2.toNat * b3.toNat) + 19 * (a1.toNat * b4.toNat) ∧ t0.toNat < 2 ^ 118) ∧
      (t1.toNat = a1.toNat * b0.toNat + a0.toNat * b1.toNat + 19 * (a4.toNat * b2.toNat) +
        19 * (a3.toNat * b3.toNat) + 19 * (a2.toNat * b4.toNat) ∧ t1.toNat < 2 ^ 118) ∧
      (t2.toNat = a2.toNat * b0.toNat + a1.toNat * b1.toNat + a0.toNat * b2.toNat +
        19 * (a4.toNat * b3.toNat) + 19 * (a3.toNat * b4.toNat) ∧ t2.toNat < 2 ^ 118) ∧
      (t3.toNat = a3.toNat * b0.toNat + a2.toNat * b1.toNat + a1.toNat * b2.toNat +
        a0.toNat * b3.toNat + 19 * (a4.toNat * b4.toNat) ∧ t3.toNat < 2 ^ 118) ∧
      t4.toNat = a4.toNat * b0.toNat + a3.toNat * b1.toNat + a2.toNat * b2.toNat +
        a1.toNat * b3.toNat + a0.toNat * b4.toNat ∧ t4.toNat < 13 * 2 ^ 107 := by
  obtain ⟨ha0, ha1, ha2, ha3, ha4⟩ := below_iff.mp ha
  obtain ⟨hb0, hb1, hb2, hb3, hb4⟩ := below_iff.mp hb
  have h0 := toNat_column (mulWide_lt ha0 hb0) (term_lt ha4 hb1) (term_lt ha3 hb2) (term_lt ha2 hb3)
    (term_lt ha1 hb4)
  have h1 := toNat_column (mulWide_lt ha1 hb0) (mulWide_lt ha0 hb1) (term_lt ha4 hb2)
    (term_lt ha3 hb3) (term_lt ha2 hb4)
  have h2 := toNat_column (mulWide_lt ha2 hb0) (mulWide_lt ha1 hb1) (mulWide_lt ha0 hb2)
    (term_lt ha4 hb3) (term_lt ha3 hb4)
  have h3 := toNat_column (mulWide_lt ha3 hb0) (mulWide_lt ha2 hb1) (mulWide_lt ha1 hb2)
    (mulWide_lt ha0 hb3) (term_lt ha4 hb4)
  have h4 := (toNat_column (mulWide_lt ha4 hb0) (mulWide_lt ha3 hb1) (mulWide_lt ha2 hb2)
    (mulWide_lt ha1 hb3) (mulWide_lt ha0 hb4)).1
  simp only [toNat_mulWide, toNat_term ha1, toNat_term ha2, toNat_term ha3,
    toNat_term ha4] at h0 h1 h2 h3 h4
  refine ⟨_, _, _, _, _, rfl, h0, h1, h2, h3, h4, ?_⟩
  have hbound : 5 * (loose * loose) < 13 * 2 ^ 107 := by norm_num [loose]
  have h₀₄ := mul_lt_loose ha0 hb4
  have h₁₃ := mul_lt_loose ha1 hb3
  have h₂₂ := mul_lt_loose ha2 hb2
  have h₃₁ := mul_lt_loose ha3 hb1
  have h₄₀ := mul_lt_loose ha4 hb0
  refine h4.trans_lt ?_
  omega

/-- `2^255 = 19` -/
theorem radix_pow_five : ((2 : Field25519) ^ 51) ^ 5 = 19 := by
  have := cast_add_mul_prime 19 1
  push_cast at this
  linear_combination this

theorem fmul_eq {x y : Felem} (hx : Below loose x) (hy : Below loose y) :
    Below tight (fmul x y) ∧
      ((val (fmul x y) : ℤ) : Field25519) = (val x : Field25519) * (val y : Field25519) := by
  obtain ⟨a0, a1, a2, a3, a4, rfl, -⟩ := hx.cases
  obtain ⟨b0, b1, b2, b3, b4, rfl, -⟩ := hy.cases
  obtain ⟨t0, t1, t2, t3, t4, ht, h0, h1, h2, h3, h4⟩ := fmulMulShiftReduce_eq hx hy
  obtain ⟨hbelow, hvalue⟩ := carryFirst_foldWide h0.2 h1.2 h2.2 h3.2 h4.2
  rw [fmul, ht]
  refine ⟨hbelow, hvalue.trans ?_⟩
  rw [val, val, value_nats, value_nats, value_nats, h0.1, h1.1, h2.1, h3.1, h4.1]
  push_cast
  -- the products of words whose places add up to five or more
  linear_combination (-((a1.toNat : Field25519) * b4.toNat + a2.toNat * b3.toNat +
    a3.toNat * b2.toNat + a4.toNat * b1.toNat + 2 ^ 51 * (a2.toNat * b4.toNat +
    a3.toNat * b3.toNat + a4.toNat * b2.toNat) + 2 ^ 102 * (a3.toNat * b4.toNat +
    a4.toNat * b3.toNat) + 2 ^ 153 * (a4.toNat * b4.toNat))) * radix_pow_five

/-! ## Squares -/

theorem mulWide_comm (x s : BitVec 64) : mulWide x s = mulWide s x :=
  BitVec.mul_comm _ _

theorem toNat_column_three {u v w : BitVec 128} (hu : u.toNat < 2 ^ 115) (hv : v.toNat < 2 ^ 115)
    (hw : w.toNat < 2 ^ 115) : (u + v + w).toNat = u.toNat + v.toNat + w.toNat := by
  simp only [BitVec.toNat_add]
  omega

/-- On loose words a square is the product by itself. -/
theorem fsquare_eq_fmul {x : Felem} (hx : Below loose x) : fsquare x = fmul x x := by
  obtain ⟨r0, r1, r2, r3, r4, rfl, h0, h1, h2, h3, h4⟩ := hx.cases
  obtain ⟨t0, t1, t2, t3, t4, ht, ht0, ht1, ht2, ht3, ht4⟩ := fmulMulShiftReduce_eq hx hx
  have htwo : (2 : BitVec 64).toNat ≤ 38 := by decide
  have hnineteen : (19 : BitVec 64).toNat ≤ 38 := by decide
  have hboth : (2 * 19 : BitVec 64).toNat ≤ 38 := by decide
  have hboth' : (19 * 2 : BitVec 64).toNat ≤ 38 := by decide
  have hsquare : squareWide [r0, r1, r2, r3, r4] = [t0, t1, t2, t3, t4] := by
    simp only [squareWide, BitVec.mul_assoc, List.cons.injEq, and_true]
    refine ⟨?_, ?_, ?_, ?_, ?_⟩ <;> apply BitVec.eq_of_toNat_eq
    · rw [toNat_column_three (mulWide_lt h0 h0) (mulWide_small_lt h4 h1 hboth')
        (mulWide_small_lt h2 h3 hboth), toNat_mulWide, toNat_mulWide_small h4 hboth',
        toNat_mulWide_small h2 hboth, ht0.1]
      change _ + 38 * _ + 38 * _ = _
      ring
    · rw [toNat_column_three (mulWide_small_lt h0 h1 htwo) (mulWide_small_lt h4 h2 hboth')
        (mulWide_small_lt h3 h3 hnineteen), toNat_mulWide_small h0 htwo,
        toNat_mulWide_small h4 hboth', toNat_mulWide_small h3 hnineteen, ht1.1]
      change 2 * _ + 38 * _ + 19 * _ = _
      ring
    · rw [toNat_column_three (mulWide_small_lt h0 h2 htwo) (mulWide_lt h1 h1)
        (mulWide_small_lt h4 h3 hboth'), toNat_mulWide_small h0 htwo, toNat_mulWide,
        toNat_mulWide_small h4 hboth', ht2.1]
      change 2 * _ + _ + 38 * _ = _
      ring
    · rw [mulWide_comm r4, toNat_column_three (mulWide_small_lt h0 h3 htwo)
        (mulWide_small_lt h1 h2 htwo) (mulWide_small_lt h4 h4 hnineteen),
        toNat_mulWide_small h0 htwo, toNat_mulWide_small h1 htwo, toNat_mulWide_small h4 hnineteen,
        ht3.1]
      change 2 * _ + 2 * _ + 19 * _ = _
      ring
    · rw [toNat_column_three (mulWide_small_lt h0 h4 htwo) (mulWide_small_lt h1 h3 htwo)
        (mulWide_lt h2 h2), toNat_mulWide_small h0 htwo, toNat_mulWide_small h1 htwo, toNat_mulWide,
        ht4.1]
      change 2 * _ + 2 * _ + _ = _
      ring
  rw [fsquare, fmul, hsquare, ht]

/-! ## Field elements -/

/-- Words below `B` that spell the field element. -/
def Denotes (B : ℕ) (x : Felem) (a : Field25519) : Prop :=
  Below B x ∧ ((val x : ℤ) : Field25519) = a

section Operations

variable {x y : Felem} {a b : Field25519} {B C : ℕ}

theorem Denotes.mono (hx : Denotes B x a) (hle : B ≤ C) : Denotes C x a :=
  ⟨hx.1.mono hle, hx.2⟩

theorem Denotes.loosen (hx : Denotes tight x a) : Denotes loose x a :=
  hx.mono (by norm_num [tight, loose])

theorem Denotes.fmul (hx : Denotes loose x a) (hy : Denotes loose y b) :
    Denotes tight (fmul x y) (a * b) := by
  obtain ⟨hbelow, hvalue⟩ := fmul_eq hx.1 hy.1
  exact ⟨hbelow, by rw [hvalue, hx.2, hy.2]⟩

theorem Denotes.fsquare (hx : Denotes loose x a) : Denotes tight (fsquare x) (a ^ 2) := by
  rw [fsquare_eq_fmul hx.1, sq]
  exact hx.fmul hx

theorem Denotes.fsquareTimes (hx : Denotes loose x a) {n : ℕ} (hn : 0 < n) :
    Denotes tight (fsquareTimes x n) (a ^ 2 ^ n) := by
  obtain ⟨n, rfl⟩ := Nat.exists_eq_add_of_lt hn
  have hiterate : ∀ (m : ℕ) {y : Felem} {b : Field25519}, Denotes tight y b →
      Denotes tight (Hacl64.fsquare^[m] y) (b ^ 2 ^ m) := by
    intro m
    induction m with
    | zero =>
      intro y b hy
      simpa using hy
    | succ m ih =>
      intro y b hy
      rw [Function.iterate_succ_apply, pow_succ', pow_mul]
      exact ih hy.loosen.fsquare
  rw [Hacl64.fsquareTimes, zero_add, Nat.add_sub_cancel, pow_succ', pow_mul]
  exact hiterate n hx.fsquare

theorem Denotes.fsum (hx : Denotes B x a) (hy : Denotes C y b) (hle : B + C ≤ 2 ^ 64) :
    Denotes (B + C) (fsum x y) (a + b) := by
  obtain ⟨⟨a0, a1, a2, a3, a4, rfl, ha0, ha1, ha2, ha3, ha4⟩, rfl⟩ := hx.imp_left Below.cases
  obtain ⟨⟨b0, b1, b2, b3, b4, rfl, hb0, hb1, hb2, hb3, hb4⟩, rfl⟩ := hy.imp_left Below.cases
  have hsum : ∀ {u v : BitVec 64}, u.toNat < B → v.toNat < C →
      (u + v).toNat = u.toNat + v.toNat := by
    intro u v hu hv
    exact BitVec.toNat_add_of_lt (by omega)
  refine ⟨below_iff.mpr ?_, ?_⟩
  · rw [hsum ha0 hb0, hsum ha1 hb1, hsum ha2 hb2, hsum ha3 hb3, hsum ha4 hb4]
    omega
  · change ((val [a0 + b0, a1 + b1, a2 + b2, a3 + b3, a4 + b4] : ℤ) : Field25519) = _
    rw [val, val, val, value_nats, value_nats, value_nats, hsum ha0 hb0, hsum ha1 hb1, hsum ha2 hb2,
      hsum ha3 hb3, hsum ha4 hb4]
    push_cast
    ring

/-- Eight times the prime, in words that no word of `x` exceeds. -/
theorem Denotes.fdifference (hx : Denotes tight x a) (hy : Denotes tight y b) :
    Denotes loose (fdifference x y) (b - a) := by
  obtain ⟨⟨a0, a1, a2, a3, a4, rfl, ha0, ha1, ha2, ha3, ha4⟩, rfl⟩ := hx.imp_left Below.cases
  obtain ⟨⟨b0, b1, b2, b3, b4, rfl, hb0, hb1, hb2, hb3, hb4⟩, rfl⟩ := hy.imp_left Below.cases
  rw [tight] at ha0 ha1 ha2 ha3 ha4 hb0 hb1 hb2 hb3 hb4
  have hdifference : ∀ {u v c : BitVec 64}, u.toNat < 2 ^ 51 + 2 ^ 13 → v.toNat < 2 ^ 51 + 2 ^ 13 →
      2 ^ 53 ≤ c.toNat → c.toNat < 2 ^ 54 →
      (v + c - u).toNat + u.toNat = v.toNat + c.toNat := by
    intro u v c hu hv hc hc'
    have hsum : (v + c).toNat = v.toNat + c.toNat := BitVec.toNat_add_of_lt (by omega)
    rw [BitVec.toNat_sub_of_le (BitVec.le_def.mpr (by omega)), hsum]
    omega
  have hfirst : (0x3fffffffffff68 : BitVec 64).toNat = 8 * (2 ^ 51 - 19) := rfl
  have hother : (0x3ffffffffffff8 : BitVec 64).toNat = 8 * (2 ^ 51 - 1) := rfl
  have h0 := hdifference (c := 0x3fffffffffff68) ha0 hb0 (by decide) (by decide)
  have h1 := hdifference (c := 0x3ffffffffffff8) ha1 hb1 (by decide) (by decide)
  have h2 := hdifference (c := 0x3ffffffffffff8) ha2 hb2 (by decide) (by decide)
  have h3 := hdifference (c := 0x3ffffffffffff8) ha3 hb3 (by decide) (by decide)
  have h4 := hdifference (c := 0x3ffffffffffff8) ha4 hb4 (by decide) (by decide)
  rw [hfirst] at h0
  rw [hother] at h1 h2 h3 h4
  simp only [Hacl64.fdifference, List.zipWith_cons_cons, List.zipWith_nil_left]
  generalize b0 + 0x3fffffffffff68 - a0 = d0 at h0 ⊢
  generalize b1 + 0x3ffffffffffff8 - a1 = d1 at h1 ⊢
  generalize b2 + 0x3ffffffffffff8 - a2 = d2 at h2 ⊢
  generalize b3 + 0x3ffffffffffff8 - a3 = d3 at h3 ⊢
  generalize b4 + 0x3ffffffffffff8 - a4 = d4 at h4 ⊢
  have hvalue : val [d0, d1, d2, d3, d4] =
      val [b0, b1, b2, b3, b4] - val [a0, a1, a2, a3, a4] + (2 ^ 255 - 19) * 8 := by
    rw [val, val, val, value_nats, value_nats, value_nats]
    omega
  refine ⟨below_iff.mpr ?_, ?_⟩
  · rw [loose]
    omega
  · rw [hvalue, cast_add_mul_prime, Int.cast_sub]

theorem Denotes.fscalar (hx : Denotes loose x a) :
    Denotes (2 ^ 51 + 2 ^ 26) (fscalar x 121665) (121665 * a) := by
  obtain ⟨⟨a0, a1, a2, a3, a4, rfl, ha0, ha1, ha2, ha3, ha4⟩, rfl⟩ := hx.imp_left Below.cases
  rw [loose] at ha0 ha1 ha2 ha3 ha4
  have hterm : ∀ v : BitVec 64, (mulWide v 121665).toNat = 121665 * v.toNat := by
    intro v
    have hconstant : (121665 : BitVec 64).toNat = 121665 := rfl
    rw [toNat_mulWide, hconstant]
    exact Nat.mul_comm _ _
  obtain ⟨r0, r1, r2, r3, r4, hr, hr0, hr1, hr2, hr3, hr4, hvalue⟩ :=
    foldWide_eq (mulWide a0 121665) (mulWide a1 121665) (mulWide a2 121665) (mulWide a3 121665)
      (mulWide a4 121665) (by rw [hterm]; omega) (by rw [hterm]; omega) (by rw [hterm]; omega)
      (by rw [hterm]; omega) (by rw [hterm]; omega)
  rw [hterm] at hr0
  simp only [Hacl64.fscalar, List.map_cons, List.map_nil]
  rw [hr]
  refine ⟨below_iff.mpr ?_, ?_⟩
  · omega
  · rw [hvalue, val, value_nats, value_nats, hterm, hterm, hterm, hterm, hterm]
    push_cast
    ring

/-- A step of `crecip_crecip`: some squarings, and a product. -/
theorem Denotes.squareMul {m k n : ℕ} (hx : Denotes tight x (a ^ m)) (hy : Denotes loose y (a ^ k))
    (hn : 0 < n) : Denotes tight (Hacl64.fmul (Hacl64.fsquareTimes x n) y) (a ^ (m * 2 ^ n + k)) := by
  rw [pow_add, pow_mul]
  exact (hx.loosen.fsquareTimes hn).loosen.fmul hy

theorem Denotes.crecip (hx : Denotes loose x a) : Denotes tight (crecip x) a⁻¹ := by
  have hone : Denotes loose x (a ^ 1) := by rwa [pow_one]
  have h2 : Denotes tight (Hacl64.fsquareTimes x 1) (a ^ 2) := hx.fsquareTimes (by norm_num)
  have h9 := h2.squareMul hone (n := 2) (by norm_num)
  have h11 := h9.loosen.fmul h2.loosen
  rw [← pow_add] at h11
  have h5 := h11.squareMul h9.loosen (n := 1) (by norm_num)
  have h10 := h5.squareMul h5.loosen (n := 5) (by norm_num)
  have h20 := h10.squareMul h10.loosen (n := 10) (by norm_num)
  have h40 := h20.squareMul h20.loosen (n := 20) (by norm_num)
  have h50 := h40.squareMul h10.loosen (n := 10) (by norm_num)
  have h100 := h50.squareMul h50.loosen (n := 50) (by norm_num)
  have h200 := h100.squareMul h100.loosen (n := 100) (by norm_num)
  have h250 := h200.squareMul h50.loosen (n := 50) (by norm_num)
  have hresult := h250.squareMul h11.loosen (n := 5) (by norm_num)
  norm_num at hresult
  rw [← Field25519.pow_sub_two]
  exact hresult

end Operations

end WgAndroid.Hacl64
