import Mathlib.AlgebraicGeometry.EllipticCurve.Affine.Point
import Mathlib.Tactic.LinearCombination

/-!
# The Montgomery ladder

Scalar multiplication on a curve `y² = x³ + a x² + x` by x-coordinates alone. A point is known by
projective coordinates `(X : Z)` of its x-coordinate. One step of the ladder doubles one point and
adds it to another one, from which it differs by the base point; a run over the bits of a scalar,
the highest first, multiplies the base point by that scalar.

Results:
1. `Represents.double`, `Represents.add`: the formulas of a step against the group law.
2. `multiple_eq`: what a whole run computes, at every base point.
3. `foldl_lazyStep`, `multiple_cons_false`: implementations that leave swaps pending or read leading
   zeros compute the same.
-/

namespace Montgomery

open WeierstrassCurve.Affine

variable {F : Type*} [Field F]

/-- The curve `y² = x³ + a x² + x`. -/
def curve (a : F) : WeierstrassCurve.Affine F := ⟨0, a, 0, 1, 0⟩

section Curve

variable {a : F}

@[simp]
theorem curve_a₁ : (curve a).a₁ = 0 := rfl

@[simp]
theorem curve_a₂ : (curve a).a₂ = a := rfl

@[simp]
theorem curve_a₃ : (curve a).a₃ = 0 := rfl

@[simp]
theorem curve_a₄ : (curve a).a₄ = 1 := rfl

@[simp]
theorem curve_a₆ : (curve a).a₆ = 0 := rfl

theorem equation_iff_sq {x y : F} : (curve a).Equation x y ↔ y ^ 2 = x ^ 3 + a * x ^ 2 + x := by
  simp [equation_iff]

@[simp]
theorem negY_curve (x y : F) : (curve a).negY x y = -y := by
  simp [WeierstrassCurve.Affine.negY]

theorem sq_eq {x y : F} (h : (curve a).Nonsingular x y) : y ^ 2 = x ^ 3 + a * x ^ 2 + x :=
  equation_iff_sq.mp h.1

/-- The points of the curve, besides the one at infinity, are the solutions of its equation. -/
theorem nonsingular_of_sq {x y : F} (htwo : (2 : F) ≠ 0) (ha : a ^ 2 ≠ 4)
    (h : y ^ 2 = x ^ 3 + a * x ^ 2 + x) : (curve a).Nonsingular x y := by
  refine (nonsingular_iff x y).mpr ⟨equation_iff_sq.mpr h, ?_⟩
  simp only [curve_a₁, curve_a₂, curve_a₃, curve_a₄, zero_mul, sub_zero, ne_eq]
  by_contra hsing
  push Not at hsing
  obtain ⟨hslope, hy⟩ := hsing
  have hy : y = 0 := by
    have : 2 * y = 0 := by linear_combination hy
    exact (mul_eq_zero.mp this).resolve_left htwo
  subst hy
  have hslope : 3 * x ^ 2 + 2 * a * x + 1 = 0 := by linear_combination -hslope
  have hx : x ≠ 0 := by
    rintro rfl
    simp at hslope
  have hroot : x ^ 2 + a * x + 1 = 0 := by
    have : x * (x ^ 2 + a * x + 1) = 0 := by linear_combination -h
    exact (mul_eq_zero.mp this).resolve_left hx
  -- a common root of `x² + a x + 1` and its multiple's derivative is a double root
  have hdouble : 2 * x + a = 0 := by
    have : x * (2 * x + a) = 0 := by linear_combination hslope - hroot
    exact (mul_eq_zero.mp this).resolve_left hx
  exact ha (by linear_combination (a + 2 * x) * hdouble - 4 * hroot)

end Curve

/-! ## The ladder -/

/-- Projective x-coordinates of two points. -/
structure Pair (F : Type*) where
  x₂ : F
  z₂ : F
  x₃ : F
  z₃ : F

namespace Pair

/-- Exchange the two points. -/
def cswap (swap : Bool) (s : Pair F) : Pair F :=
  if swap then ⟨s.x₃, s.z₃, s.x₂, s.z₂⟩ else s

/-- Double the first point, and add it to the second one. -/
def step (a24 x₁ : F) (s : Pair F) : Pair F :=
  let A := s.x₂ + s.z₂
  let AA := A ^ 2
  let B := s.x₂ - s.z₂
  let BB := B ^ 2
  let E := AA - BB
  let C := s.x₃ + s.z₃
  let D := s.x₃ - s.z₃
  let DA := D * A
  let CB := C * B
  ⟨AA * BB, E * (AA + a24 * E), (DA + CB) ^ 2, x₁ * (DA - CB) ^ 2⟩

/-- A step for one bit of the scalar. -/
def bitStep (a24 x₁ : F) (s : Pair F) (bit : Bool) : Pair F :=
  ((s.cswap bit).step a24 x₁).cswap bit

omit [Field F] in
theorem cswap_cswap (p q : Bool) (s : Pair F) : (s.cswap p).cswap q = s.cswap (p ^^ q) := by
  cases p <;> cases q <;> rfl

end Pair

/-- The run over the bits of a scalar, from the highest one. -/
def ladder (a24 x₁ : F) (bits : List Bool) : Pair F :=
  bits.foldl (Pair.bitStep a24 x₁) ⟨1, 0, x₁, 1⟩

/-- The number that the bits spell, from the highest one. -/
def ofBits (bits : List Bool) : ℕ :=
  bits.foldl (fun n bit => 2 * n + bit.toNat) 0

theorem foldl_testBits (n k m : ℕ) :
    ((List.range k).reverse.map n.testBit).foldl (fun n bit => 2 * n + bit.toNat) m =
      m * 2 ^ k + n % 2 ^ k := by
  induction k generalizing m with
  | zero => simp [Nat.mod_one]
  | succ k ih =>
    rw [List.range_succ, List.reverse_append, List.reverse_singleton, List.singleton_append,
      List.map_cons, List.foldl_cons, ih, Nat.mod_pow_succ, Nat.toNat_testBit]
    ring

/-- The lowest `k` bits of a number, from the highest one. -/
theorem ofBits_testBits (n k : ℕ) : ofBits ((List.range k).reverse.map n.testBit) = n % 2 ^ k := by
  rw [ofBits, foldl_testBits, zero_mul, zero_add]

/-- The result of the ladder: the quotient of the first point's coordinates. -/
def multiple (a24 x₁ : F) (bits : List Bool) : F :=
  (ladder a24 x₁ bits).x₂ * (ladder a24 x₁ bits).z₂⁻¹

/-! ### Lazy swaps

An implementation may leave a swap pending, and make up for it before the next step. -/

def lazyStep (a24 x₁ : F) (s : Pair F × Bool) (bit : Bool) : Pair F × Bool :=
  ((s.1.cswap (s.2 ^^ bit)).step a24 x₁, bit)

theorem foldl_lazyStep (a24 x₁ : F) (bits : List Bool) (s : Pair F × Bool) :
    (bits.foldl (lazyStep a24 x₁) s).1.cswap (bits.foldl (lazyStep a24 x₁) s).2 =
      bits.foldl (Pair.bitStep a24 x₁) (s.1.cswap s.2) := by
  induction bits generalizing s with
  | nil => rfl
  | cons bit bits ih =>
    have hstep : (lazyStep a24 x₁ s bit).1.cswap (lazyStep a24 x₁ s bit).2 =
        (s.1.cswap s.2).bitStep a24 x₁ bit := by
      rw [Pair.bitStep, Pair.cswap_cswap]
      rfl
    rw [List.foldl_cons, List.foldl_cons, ih, hstep]

/-! ### The base point with x-coordinate 0 -/

/-- One coordinate of each point is 0. -/
def Pair.Degenerate (s : Pair F) : Prop :=
  s.x₂ * s.z₂ = 0 ∧ s.x₃ * s.z₃ = 0

theorem Pair.Degenerate.cswap {s : Pair F} (h : s.Degenerate) (swap : Bool) :
    (s.cswap swap).Degenerate := by
  cases swap with
  | false => exact h
  | true => exact ⟨h.2, h.1⟩

theorem Pair.Degenerate.step {s : Pair F} (h : s.Degenerate) (a24 : F) :
    (s.step a24 0).Degenerate := by
  have hz₂ : (s.step a24 0).z₂ = 0 := by
    simp only [Pair.step]
    linear_combination (4 * ((s.x₂ + s.z₂) ^ 2 + 4 * a24 * (s.x₂ * s.z₂))) * h.1
  have hz₃ : (s.step a24 0).z₃ = 0 := zero_mul _
  exact ⟨mul_eq_zero_of_right _ hz₂, mul_eq_zero_of_right _ hz₃⟩

theorem degenerate_ladder (a24 : F) (bits : List Bool) : (ladder a24 0 bits).Degenerate := by
  have hstart : (⟨1, 0, 0, 1⟩ : Pair F).Degenerate := ⟨mul_zero 1, zero_mul 1⟩
  unfold ladder
  generalize (⟨1, 0, 0, 1⟩ : Pair F) = s at hstart ⊢
  induction bits generalizing s with
  | nil => exact hstart
  | cons bit bits ih => exact ih _ (((hstart.cswap bit).step a24).cswap bit)

theorem multiple_zero (a24 : F) (bits : List Bool) : multiple a24 0 bits = 0 := by
  rcases mul_eq_zero.mp (degenerate_ladder a24 bits).1 with h | h
  · rw [multiple, h, zero_mul]
  · rw [multiple, h, inv_zero, mul_zero]

/-! ### Leading zeros of the scalar -/

/-- The same two points, in other projective coordinates. -/
def Pair.Scaled (s t : Pair F) : Prop :=
  ∃ l m : F, l ≠ 0 ∧ m ≠ 0 ∧ t = ⟨l * s.x₂, l * s.z₂, m * s.x₃, m * s.z₃⟩

theorem Pair.Scaled.cswap {s t : Pair F} (h : s.Scaled t) (swap : Bool) :
    (s.cswap swap).Scaled (t.cswap swap) := by
  obtain ⟨l, m, hl, hm, rfl⟩ := h
  cases swap with
  | false => exact ⟨l, m, hl, hm, rfl⟩
  | true => exact ⟨m, l, hm, hl, rfl⟩

theorem Pair.Scaled.step {s t : Pair F} (h : s.Scaled t) (a24 x₁ : F) :
    (s.step a24 x₁).Scaled (t.step a24 x₁) := by
  obtain ⟨l, m, hl, hm, rfl⟩ := h
  refine ⟨l ^ 4, l ^ 2 * m ^ 2, pow_ne_zero 4 hl, mul_ne_zero (pow_ne_zero 2 hl) (pow_ne_zero 2 hm),
    ?_⟩
  simp only [Pair.step, Pair.mk.injEq]
  refine ⟨?_, ?_, ?_, ?_⟩ <;> ring

theorem Pair.Scaled.foldl {s t : Pair F} (h : s.Scaled t) (a24 x₁ : F) (bits : List Bool) :
    (bits.foldl (Pair.bitStep a24 x₁) s).Scaled (bits.foldl (Pair.bitStep a24 x₁) t) := by
  induction bits generalizing s t with
  | nil => exact h
  | cons bit bits ih => exact ih (((h.cswap bit).step a24 x₁).cswap bit)

theorem Pair.Scaled.mul_inv {s t : Pair F} (h : s.Scaled t) : t.x₂ * t.z₂⁻¹ = s.x₂ * s.z₂⁻¹ := by
  obtain ⟨l, m, hl, -, rfl⟩ := h
  rw [← div_eq_mul_inv, ← div_eq_mul_inv, mul_div_mul_left _ _ hl]

/-- A leading zero changes the coordinates of the second point only. -/
theorem multiple_cons_false (hfour : (4 : F) ≠ 0) (a24 x₁ : F) (bits : List Bool) :
    multiple a24 x₁ (false :: bits) = multiple a24 x₁ bits := by
  by_cases hx : x₁ = 0
  · rw [hx, multiple_zero, multiple_zero]
  · have hscaled : (⟨1, 0, x₁, 1⟩ : Pair F).Scaled (Pair.bitStep a24 x₁ ⟨1, 0, x₁, 1⟩ false) := by
      refine ⟨1, 4 * x₁, one_ne_zero, mul_ne_zero hfour hx, ?_⟩
      simp only [Pair.bitStep, Pair.cswap, Pair.step, Bool.false_eq_true, if_false, Pair.mk.injEq]
      refine ⟨?_, ?_, ?_, ?_⟩ <;> ring
    exact (hscaled.foldl a24 x₁ bits).mul_inv

/-! ## Points by their x-coordinate -/

variable {a : F}

/-- `(X : Z)` are projective coordinates of the point's x-coordinate; `Z` is 0 at infinity only. -/
def Represents : (curve a).Point → F → F → Prop
  | .zero, X, Z => X ≠ 0 ∧ Z = 0
  | .some x _ _, X, Z => Z ≠ 0 ∧ X = x * Z

/-- The x-coordinate of a point, 0 for the one at infinity. -/
def xCoord : (curve a).Point → F
  | .zero => 0
  | .some x _ _ => x

theorem represents_zero {X Z : F} : Represents (0 : (curve a).Point) X Z ↔ X ≠ 0 ∧ Z = 0 :=
  Iff.rfl

theorem represents_some {x y X Z : F} (h : (curve a).Nonsingular x y) :
    Represents (.some x y h) X Z ↔ Z ≠ 0 ∧ X = x * Z :=
  Iff.rfl

@[simp]
theorem xCoord_zero : xCoord (0 : (curve a).Point) = 0 := rfl

@[simp]
theorem xCoord_some {x y : F} (h : (curve a).Nonsingular x y) :
    xCoord (.some x y h) = x := rfl

@[simp]
theorem xCoord_neg (P : (curve a).Point) : xCoord (-P) = xCoord P := by
  cases P <;> rfl

/-- The quotient of the coordinates, with `0⁻¹ = 0`, is the x-coordinate. -/
theorem Represents.mul_inv {P : (curve a).Point} {X Z : F} (h : Represents P X Z) :
    X * Z⁻¹ = xCoord P := by
  cases P with
  | zero =>
    obtain ⟨-, rfl⟩ := h
    simp [xCoord]
  | some x y hxy =>
    obtain ⟨hZ, rfl⟩ := h
    rw [xCoord, mul_assoc, mul_inv_cancel₀ hZ, mul_one]

/-! ## Doubling -/

theorem neg_ne_self {y : F} (htwo : (2 : F) ≠ 0) (hy : y ≠ 0) : y ≠ -y := by
  intro h
  have : 2 * y = 0 := by linear_combination h
  exact hy ((mul_eq_zero.mp this).resolve_left htwo)

theorem addX_eq (x₁ x₂ l : F) : (curve a).addX x₁ x₂ l = l ^ 2 - a - x₁ - x₂ := by
  simp [addX]

variable [DecidableEq F]

theorem slope_self {x y : F} (htwo : (2 : F) ≠ 0) (hy : y ≠ 0) :
    (curve a).slope x x y y * (2 * y) = 3 * x ^ 2 + 2 * a * x + 1 := by
  have hne : y ≠ (curve a).negY x y := by
    rw [negY_curve]
    exact neg_ne_self htwo hy
  have h2y : y - (curve a).negY x y = 2 * y := by
    rw [negY_curve]
    ring
  rw [slope_of_Y_ne rfl hne, h2y, div_mul_cancel₀ _ (mul_ne_zero htwo hy)]
  simp

theorem slope_of_ne {x₁ x₂ : F} (h : x₁ ≠ x₂) (y₁ y₂ : F) :
    (curve a).slope x₁ x₂ y₁ y₂ * (x₁ - x₂) = y₁ - y₂ := by
  rw [slope_of_X_ne h, div_mul_cancel₀ _ (sub_ne_zero.mpr h)]

/-- Twice a point with `y ≠ 0` is the point with x-coordinate `(x² - 1)² / 4y²`. -/
theorem addX_self {x y : F} (htwo : (2 : F) ≠ 0) (hy : y ≠ 0)
    (h : y ^ 2 = x ^ 3 + a * x ^ 2 + x) :
    (curve a).addX x x ((curve a).slope x x y y) * (4 * y ^ 2) = (x ^ 2 - 1) ^ 2 := by
  have hs := slope_self (a := a) (x := x) htwo hy
  rw [addX_eq]
  generalize (curve a).slope x x y y = l at hs
  linear_combination (l * (2 * y) + (3 * x ^ 2 + 2 * a * x + 1)) * hs + (-4 * a - 8 * x) * h

/-- The two ways to double a point off infinity. -/
theorem double_eq {x y : F} (htwo : (2 : F) ≠ 0) (h : (curve a).Nonsingular x y) :
    (y = 0 ∧ (.some x y h + .some x y h : (curve a).Point) = 0) ∨
      y ≠ 0 ∧ ∃ x' y' h', (.some x y h + .some x y h : (curve a).Point) = .some x' y' h' ∧
        x' * (4 * (x ^ 3 + a * x ^ 2 + x)) = (x ^ 2 - 1) ^ 2 := by
  by_cases hy : y = 0
  · refine .inl ⟨hy, Point.add_self_of_Y_eq ?_⟩
    simp [hy]
  · have hne : y ≠ (curve a).negY x y := by
      rw [negY_curve]
      exact neg_ne_self htwo hy
    refine .inr ⟨hy, _, _, _, Point.add_self_of_Y_ne hne, ?_⟩
    rw [← sq_eq h]
    exact addX_self htwo hy (sq_eq h)

theorem Represents.double {P : (curve a).Point} {X Z : F} (htwo : (2 : F) ≠ 0) (ha : a ^ 2 ≠ 4)
    (h : Represents P X Z) :
    Represents (P + P) ((X ^ 2 - Z ^ 2) ^ 2) (4 * (X * Z) * (X ^ 2 + a * (X * Z) + Z ^ 2)) := by
  have hfour : (4 : F) ≠ 0 := by
    rw [show (4 : F) = 2 * 2 by norm_num]
    exact mul_ne_zero htwo htwo
  cases P with
  | zero =>
    obtain ⟨hX, rfl⟩ := h
    refine represents_zero.mpr ⟨?_, by ring⟩
    simpa using hX
  | some x y hxy =>
    obtain ⟨hZ, rfl⟩ := h
    have hdenominator : 4 * (x * Z * Z) * ((x * Z) ^ 2 + a * (x * Z * Z) + Z ^ 2) =
        4 * y ^ 2 * Z ^ 4 := by
      rw [sq_eq hxy]
      ring
    rw [hdenominator]
    obtain ⟨rfl, hsum⟩ | ⟨hy, x', y', h', hsum, hx'⟩ := double_eq htwo hxy
    · rw [hsum]
      refine represents_zero.mpr ⟨?_, by ring⟩
      -- `x² = 1` is no root of the curve's cubic
      intro hzero
      have hx : x ^ 2 = 1 := by
        have : (x ^ 2 - 1) ^ 2 * Z ^ 4 = 0 := by linear_combination hzero
        have := (mul_eq_zero.mp this).resolve_right (pow_ne_zero 4 hZ)
        linear_combination pow_eq_zero_iff (two_ne_zero) |>.mp this
      have hroot := sq_eq hxy
      have hax : 2 * x + a = 0 := by linear_combination -hroot - (x + a) * hx
      exact ha (by linear_combination (a - 2 * x) * hax + 4 * hx)
    · rw [hsum]
      refine (represents_some h').mpr ⟨?_, ?_⟩
      · exact mul_ne_zero (mul_ne_zero hfour (pow_ne_zero 2 hy)) (pow_ne_zero 4 hZ)
      · rw [sq_eq hxy]
        linear_combination -Z ^ 4 * hx'

/-! ## Addition with a known difference -/

/-- The x-coordinates of `P + Q` and `P - Q`, for points with different x-coordinates, have a
product that does not depend on the y-coordinates. -/
theorem addX_mul_addX {x₁ y₁ x₂ y₂ : F} (hne : x₁ ≠ x₂) (h₁ : y₁ ^ 2 = x₁ ^ 3 + a * x₁ ^ 2 + x₁)
    (h₂ : y₂ ^ 2 = x₂ ^ 3 + a * x₂ ^ 2 + x₂) :
    (curve a).addX x₁ x₂ ((curve a).slope x₁ x₂ y₁ y₂) *
      (curve a).addX x₁ x₂ ((curve a).slope x₁ x₂ y₁ (-y₂)) * (x₁ - x₂) ^ 2 =
      (x₁ * x₂ - 1) ^ 2 := by
  have hs := slope_of_ne (a := a) hne y₁ y₂
  have hd := slope_of_ne (a := a) hne y₁ (-y₂)
  rw [addX_eq, addX_eq]
  generalize (curve a).slope x₁ x₂ y₁ y₂ = l at hs
  generalize (curve a).slope x₁ x₂ y₁ (-y₂) = m at hd
  have hsub : x₁ - x₂ ≠ 0 := sub_ne_zero.mpr hne
  -- both x-coordinates, cleared of the denominator `(x₁ - x₂)²`, differ by `4 y₁ y₂`
  have hplus : (l ^ 2 - a - x₁ - x₂) * (x₁ - x₂) ^ 2 =
      x₁ * x₂ * (x₁ + x₂) + 2 * a * (x₁ * x₂) + x₁ + x₂ - 2 * (y₁ * y₂) := by
    linear_combination (l * (x₁ - x₂) + (y₁ - y₂)) * hs + h₁ + h₂
  have hminus : (m ^ 2 - a - x₁ - x₂) * (x₁ - x₂) ^ 2 =
      x₁ * x₂ * (x₁ + x₂) + 2 * a * (x₁ * x₂) + x₁ + x₂ + 2 * (y₁ * y₂) := by
    linear_combination (m * (x₁ - x₂) + (y₁ + y₂)) * hd + h₁ + h₂
  apply mul_right_cancel₀ (pow_ne_zero 2 hsub)
  calc (l ^ 2 - a - x₁ - x₂) * (m ^ 2 - a - x₁ - x₂) * (x₁ - x₂) ^ 2 * (x₁ - x₂) ^ 2
      = ((l ^ 2 - a - x₁ - x₂) * (x₁ - x₂) ^ 2) * ((m ^ 2 - a - x₁ - x₂) * (x₁ - x₂) ^ 2) := by ring
    _ = (x₁ * x₂ * (x₁ + x₂) + 2 * a * (x₁ * x₂) + x₁ + x₂) ^ 2 - 4 * (y₁ ^ 2 * y₂ ^ 2) := by
      rw [hplus, hminus]
      ring
    _ = (x₁ * x₂ - 1) ^ 2 * (x₁ - x₂) ^ 2 := by
      rw [h₁, h₂]
      ring

theorem xCoord_add_of_ne {x₁ y₁ x₂ y₂ : F} {h₁ : (curve a).Nonsingular x₁ y₁}
    {h₂ : (curve a).Nonsingular x₂ y₂} (hne : x₁ ≠ x₂) :
    xCoord (.some x₁ y₁ h₁ + .some x₂ y₂ h₂ : (curve a).Point) =
      (curve a).addX x₁ x₂ ((curve a).slope x₁ x₂ y₁ y₂) := by
  rw [Point.add_of_X_ne hne, xCoord_some]

theorem xCoord_sub_of_ne {x₁ y₁ x₂ y₂ : F} {h₁ : (curve a).Nonsingular x₁ y₁}
    {h₂ : (curve a).Nonsingular x₂ y₂} (hne : x₁ ≠ x₂) :
    xCoord (.some x₁ y₁ h₁ - .some x₂ y₂ h₂ : (curve a).Point) =
      (curve a).addX x₁ x₂ ((curve a).slope x₁ x₂ y₁ (-y₂)) := by
  rw [sub_eq_add_neg, Point.neg_some, xCoord_add_of_ne hne, negY_curve]

/-- The case of `Represents.add` in which the points share their x-coordinate: they are opposite,
and the difference is twice one of them. -/
theorem sq_ne_one_of_sub {x y : F} {h : (curve a).Nonsingular x y} (htwo : (2 : F) ≠ 0)
    (hx : xCoord (-.some x y h - .some x y h : (curve a).Point) ≠ 0) : x ^ 2 - 1 ≠ 0 := by
  rw [← neg_add', xCoord_neg] at hx
  obtain ⟨-, hsum⟩ | ⟨hy, x', y', h', hsum, hx'⟩ := double_eq htwo h
  · rw [hsum] at hx
    exact absurd rfl hx
  · rw [hsum, xCoord_some] at hx
    rw [← sq_eq h] at hx'
    intro hone
    rw [hone] at hx'
    have hfactors : x' * (2 * y) ^ 2 = 0 := by linear_combination hx'
    exact mul_ne_zero hx (pow_ne_zero 2 (mul_ne_zero htwo hy)) hfactors

/-- Adding two points whose difference has the x-coordinate `x₁ ≠ 0`. -/
theorem Represents.add {P Q R : (curve a).Point} {X₂ Z₂ X₃ Z₃ : F} (htwo : (2 : F) ≠ 0)
    (hP : Represents P X₂ Z₂) (hQ : Represents Q X₃ Z₃) (hR : Q - P = R) (hx : xCoord R ≠ 0) :
    Represents (P + Q) (4 * (X₂ * X₃ - Z₂ * Z₃) ^ 2)
      (xCoord R * (4 * (X₃ * Z₂ - X₂ * Z₃) ^ 2)) := by
  have hfour : (4 : F) ≠ 0 := by
    rw [show (4 : F) = 2 * 2 by norm_num]
    exact mul_ne_zero htwo htwo
  cases P with
  | zero =>
    change Q - 0 = R at hR
    rw [sub_zero] at hR
    subst hR
    change Represents (0 + Q) _ _
    rw [zero_add]
    obtain ⟨hX₂, rfl⟩ := hP
    cases Q with
    | zero => exact absurd rfl hx
    | some x y h =>
      obtain ⟨hZ₃, rfl⟩ := hQ
      rw [xCoord_some] at hx ⊢
      refine (represents_some h).mpr ⟨?_, by ring⟩
      have : x * (4 * (x * Z₃ * 0 - X₂ * Z₃) ^ 2) = x * (4 * (X₂ * Z₃) ^ 2) := by ring
      rw [this]
      exact mul_ne_zero hx (mul_ne_zero hfour (pow_ne_zero 2 (mul_ne_zero hX₂ hZ₃)))
  | some x₂ y₂ h₂ =>
    obtain ⟨hZ₂, rfl⟩ := hP
    cases Q with
    | zero =>
      change 0 - Point.some x₂ y₂ h₂ = R at hR
      rw [zero_sub] at hR
      subst hR
      change Represents (Point.some x₂ y₂ h₂ + 0) _ _
      rw [add_zero]
      rw [xCoord_neg, xCoord_some] at hx ⊢
      obtain ⟨hX₃, rfl⟩ := hQ
      refine (represents_some h₂).mpr ⟨?_, by ring⟩
      have : x₂ * (4 * (X₃ * Z₂ - x₂ * Z₂ * 0) ^ 2) = x₂ * (4 * (X₃ * Z₂) ^ 2) := by ring
      rw [this]
      exact mul_ne_zero hx (mul_ne_zero hfour (pow_ne_zero 2 (mul_ne_zero hX₃ hZ₂)))
    | some x₃ y₃ h₃ =>
      obtain ⟨hZ₃, rfl⟩ := hQ
      by_cases hne : x₂ = x₃
      · subst hne
        have hopposite : (Point.some x₂ y₃ h₃ : (curve a).Point) = -.some x₂ y₂ h₂ := by
          rcases Y_eq_of_X_eq h₃.1 h₂.1 rfl with rfl | hneg
          · rw [sub_self] at hR
            exact absurd (hR ▸ rfl) hx
          · rw [Point.neg_some, Point.some.injEq]
            exact ⟨rfl, hneg⟩
        rw [hopposite] at hR ⊢
        rw [← hR] at hx
        have hone := sq_ne_one_of_sub htwo hx
        rw [add_neg_cancel]
        refine represents_zero.mpr ⟨?_, by ring⟩
        have : 4 * (x₂ * Z₂ * (x₂ * Z₃) - Z₂ * Z₃) ^ 2 = 4 * ((x₂ ^ 2 - 1) * (Z₂ * Z₃)) ^ 2 := by
          ring
        rw [this]
        exact mul_ne_zero hfour (pow_ne_zero 2 (mul_ne_zero hone (mul_ne_zero hZ₂ hZ₃)))
      · have hdifference : xCoord R = (curve a).addX x₂ x₃ ((curve a).slope x₂ x₃ y₂ (-y₃)) := by
          rw [← hR, ← neg_sub, xCoord_neg, xCoord_sub_of_ne hne]
        have hproduct := addX_mul_addX hne (sq_eq h₂) (sq_eq h₃)
        rw [Point.add_of_X_ne hne]
        refine (represents_some _).mpr ⟨?_, ?_⟩
        · have : x₃ * Z₃ * Z₂ - x₂ * Z₂ * Z₃ = (x₃ - x₂) * (Z₂ * Z₃) := by ring
          rw [this]
          have hsub : (x₃ - x₂) * (Z₂ * Z₃) ≠ 0 :=
            mul_ne_zero (sub_ne_zero.mpr (Ne.symm hne)) (mul_ne_zero hZ₂ hZ₃)
          exact mul_ne_zero hx (mul_ne_zero hfour (pow_ne_zero 2 hsub))
        · rw [hdifference]
          linear_combination -(4 * Z₂ ^ 2 * Z₃ ^ 2) * hproduct

/-! ## What the ladder computes -/

/-- The points `n P` and `(n + 1) P`. -/
def Pair.Holds (P : (curve a).Point) (n : ℕ) (s : Pair F) : Prop :=
  Represents (n • P) s.x₂ s.z₂ ∧ Represents ((n + 1) • P) s.x₃ s.z₃

section Ladder

variable {a24 : F} (htwo : (2 : F) ≠ 0) (ha : a ^ 2 ≠ 4) (ha24 : 4 * a24 = a - 2)
include htwo ha ha24

theorem Pair.represents_step {P Q R : (curve a).Point} {s : Pair F}
    (hP : Represents P s.x₂ s.z₂) (hQ : Represents Q s.x₃ s.z₃) (hR : Q - P = R)
    (hx : xCoord R ≠ 0) :
    Represents (P + P) (s.step a24 (xCoord R)).x₂ (s.step a24 (xCoord R)).z₂ ∧
      Represents (P + Q) (s.step a24 (xCoord R)).x₃ (s.step a24 (xCoord R)).z₃ := by
  have hdouble := hP.double htwo ha
  have hadd := hP.add htwo hQ hR hx
  have hx₂ : (s.step a24 (xCoord R)).x₂ = (s.x₂ ^ 2 - s.z₂ ^ 2) ^ 2 := by
    simp only [Pair.step]
    ring
  have hz₂ : (s.step a24 (xCoord R)).z₂ =
      4 * (s.x₂ * s.z₂) * (s.x₂ ^ 2 + a * (s.x₂ * s.z₂) + s.z₂ ^ 2) := by
    simp only [Pair.step]
    linear_combination (4 * (s.x₂ * s.z₂) ^ 2) * ha24
  have hx₃ : (s.step a24 (xCoord R)).x₃ = 4 * (s.x₂ * s.x₃ - s.z₂ * s.z₃) ^ 2 := by
    simp only [Pair.step]
    ring
  have hz₃ : (s.step a24 (xCoord R)).z₃ = xCoord R * (4 * (s.x₃ * s.z₂ - s.x₂ * s.z₃) ^ 2) := by
    simp only [Pair.step]
    ring
  rw [hx₂, hz₂, hx₃, hz₃]
  exact ⟨hdouble, hadd⟩

theorem Pair.Holds.bitStep {P : (curve a).Point} {n : ℕ} {s : Pair F} (h : s.Holds P n)
    (hx : xCoord P ≠ 0) (bit : Bool) :
    (s.bitStep a24 (xCoord P) bit).Holds P (2 * n + bit.toNat) := by
  obtain ⟨h₂, h₃⟩ := h
  cases bit with
  | false =>
    have hdifference : (n + 1) • P - n • P = P := by
      rw [succ_nsmul, add_sub_cancel_left]
    obtain ⟨hdouble, hadd⟩ := Pair.represents_step htwo ha ha24 h₂ h₃ hdifference hx
    refine ⟨?_, ?_⟩
    · rw [← add_nsmul, ← two_mul] at hdouble
      exact hdouble
    · rw [← add_nsmul, ← add_assoc, ← two_mul] at hadd
      exact hadd
  | true =>
    have hdifference : n • P - (n + 1) • P = -P := by
      rw [succ_nsmul, sub_add_cancel_left]
    have hx' : xCoord (-P) ≠ 0 := by rwa [xCoord_neg]
    have hswapped := Pair.represents_step htwo ha ha24 (s := s.cswap true) h₃ h₂ hdifference hx'
    rw [xCoord_neg] at hswapped
    obtain ⟨hdouble, hadd⟩ := hswapped
    refine ⟨?_, ?_⟩
    · rw [← add_nsmul, add_right_comm, ← two_mul] at hadd
      exact hadd
    · rw [← add_nsmul, show n + 1 + (n + 1) = 2 * n + 1 + 1 by ring] at hdouble
      exact hdouble

theorem ladder_holds {P : (curve a).Point} (hx : xCoord P ≠ 0) (bits : List Bool) :
    (ladder a24 (xCoord P) bits).Holds P (ofBits bits) := by
  have hstart : (⟨1, 0, xCoord P, 1⟩ : Pair F).Holds P 0 := by
    refine ⟨?_, ?_⟩
    · rw [zero_nsmul]
      exact represents_zero.mpr ⟨one_ne_zero, rfl⟩
    · rw [zero_add, one_nsmul]
      cases P with
      | zero => exact absurd rfl hx
      | some x y h => exact (represents_some h).mpr ⟨one_ne_zero, (mul_one x).symm⟩
  unfold ladder ofBits
  generalize (⟨1, 0, xCoord P, 1⟩ : Pair F) = s at hstart ⊢
  generalize (0 : ℕ) = n at hstart ⊢
  induction bits generalizing s n with
  | nil => exact hstart
  | cons bit bits ih => exact ih _ _ (hstart.bitStep htwo ha ha24 hx bit)

end Ladder

/-! ## The points with x-coordinate 0 -/

theorem nsmul_eq_zero_or_self {P : (curve a).Point} (h : P + P = 0) (n : ℕ) :
    n • P = 0 ∨ n • P = P := by
  induction n with
  | zero => exact .inl (zero_nsmul P)
  | succ n ih =>
    rw [succ_nsmul]
    rcases ih with ih | ih
    · exact .inr (by rw [ih, zero_add])
    · exact .inl (by rw [ih, h])

theorem xCoord_nsmul_eq_zero {P : (curve a).Point} (hx : xCoord P = 0) (n : ℕ) :
    xCoord (n • P) = 0 := by
  have htorsion : P + P = 0 := by
    cases P with
    | zero => exact zero_add (0 : (curve a).Point)
    | some x y h =>
      rw [xCoord_some] at hx
      have hy : y = 0 := by
        have := sq_eq h
        rw [hx] at this
        simpa using this
      exact Point.add_self_of_Y_eq (by rw [negY_curve, hy, neg_zero])
  rcases nsmul_eq_zero_or_self htorsion n with h | h
  · rw [h, xCoord_zero]
  · rw [h, hx]

/-- The ladder multiplies by the number that its bits spell. -/
theorem multiple_eq {a24 : F} (htwo : (2 : F) ≠ 0) (ha : a ^ 2 ≠ 4) (ha24 : 4 * a24 = a - 2)
    (P : (curve a).Point) (bits : List Bool) :
    multiple a24 (xCoord P) bits = xCoord (ofBits bits • P) := by
  by_cases hx : xCoord P = 0
  · rw [hx, multiple_zero, xCoord_nsmul_eq_zero hx]
  · exact (ladder_holds htwo ha ha24 hx bits).1.mul_inv

end Montgomery
