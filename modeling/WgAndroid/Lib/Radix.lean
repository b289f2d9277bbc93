import Mathlib.Data.Int.Interval
import Mathlib.Data.Nat.Digits.Defs
import Mathlib.Tactic.LinearCombination
import Mathlib.Tactic.Ring

/-!
# Integers in limbs

A list of integers, the lowest first, as a number in radix `R`. The limbs need not be digits: sums
and products are formed limb by limb, and a run of carries turns them into digits.

Results:
1. `value_digits`, `carryOut_eq`, `value_settle`: a run of carries takes a number modulo a power of
   the radix, or keeps it.
2. `value_product`: the products of the limbs, column by column, are the product of the numbers.
3. `getD_div`, `value_modify_mod`: what the highest digit says about the number.
-/

namespace Radix

/-- The number with limbs `ts` in radix `R`. -/
def value (R : ℤ) : List ℤ → ℤ
  | [] => 0
  | t :: ts => t + R * value R ts

/-- Every limb is a digit. -/
def Digits (R : ℤ) (ts : List ℤ) : Prop :=
  ∀ t ∈ ts, 0 ≤ t ∧ t < R

section Value

variable (R : ℤ)

@[simp]
theorem value_nil : value R [] = 0 := rfl

@[simp]
theorem value_cons (t : ℤ) (ts : List ℤ) : value R (t :: ts) = t + R * value R ts := rfl

theorem value_append (ts us : List ℤ) :
    value R (ts ++ us) = value R ts + R ^ ts.length * value R us := by
  induction ts with
  | nil => simp
  | cons t ts ih =>
    rw [List.cons_append, value_cons, ih, value_cons, List.length_cons]
    ring

theorem value_map_mul (c : ℤ) (ts : List ℤ) : value R (ts.map (c * ·)) = c * value R ts := by
  induction ts with
  | nil => simp
  | cons t ts ih =>
    rw [List.map_cons, value_cons, ih, value_cons]
    ring

theorem value_zipWith_add {ts us : List ℤ} (h : ts.length = us.length) :
    value R (List.zipWith (· + ·) ts us) = value R ts + value R us := by
  induction ts generalizing us with
  | nil =>
    cases us with
    | nil => rfl
    | cons u us => simp at h
  | cons t ts ih =>
    cases us with
    | nil => simp at h
    | cons u us =>
      rw [List.zipWith_cons_cons, value_cons, ih (Nat.succ_injective h), value_cons, value_cons]
      ring

theorem value_zipWith_sub {ts us : List ℤ} (h : ts.length = us.length) :
    value R (List.zipWith (· - ·) ts us) = value R ts - value R us := by
  induction ts generalizing us with
  | nil =>
    cases us with
    | nil => rfl
    | cons u us => simp at h
  | cons t ts ih =>
    cases us with
    | nil => simp at h
    | cons u us =>
      rw [List.zipWith_cons_cons, value_cons, ih (Nat.succ_injective h), value_cons, value_cons]
      ring

theorem value_natCast (b : ℕ) (ds : List ℕ) :
    value b (ds.map (fun d : ℕ => (d : ℤ))) = ((Nat.ofDigits b ds : ℕ) : ℤ) := by
  induction ds with
  | nil => rfl
  | cons d ds ih =>
    rw [List.map_cons, value_cons, ih, Nat.ofDigits_cons]
    push_cast
    rfl

end Value

variable {R : ℤ}

theorem Digits.value_nonneg (hR : 0 < R) {ts : List ℤ} (h : Digits R ts) : 0 ≤ value R ts := by
  induction ts with
  | nil => exact le_rfl
  | cons t ts ih =>
    have ht := h t List.mem_cons_self
    have hts := ih fun u hu => h u (List.mem_cons_of_mem t hu)
    exact add_nonneg ht.1 (mul_nonneg hR.le hts)

theorem Digits.value_lt (hR : 0 < R) {ts : List ℤ} (h : Digits R ts) :
    value R ts < R ^ ts.length := by
  induction ts with
  | nil => simp
  | cons t ts ih =>
    have ht := (h t List.mem_cons_self).2
    have hts := ih fun u hu => h u (List.mem_cons_of_mem t hu)
    calc value R (t :: ts) < R + R * value R ts := by
          rw [value_cons]
          exact add_lt_add_left ht _
      _ = R * (value R ts + 1) := by ring
      _ ≤ R * R ^ ts.length := mul_le_mul_of_nonneg_left hts hR.le
      _ = R ^ (t :: ts).length := by rw [List.length_cons, pow_succ']

/-! ## Carries -/

/-- The digits of a run of carries that starts with `c`. -/
def digits (R c : ℤ) : List ℤ → List ℤ
  | [] => []
  | t :: ts => (c + t) % R :: digits R ((c + t) / R) ts

/-- The carry that the run leaves. -/
def carryOut (R c : ℤ) : List ℤ → ℤ
  | [] => c
  | t :: ts => carryOut R ((c + t) / R) ts

@[simp]
theorem length_digits (c : ℤ) (ts : List ℤ) : (digits R c ts).length = ts.length := by
  induction ts generalizing c with
  | nil => rfl
  | cons t ts ih => rw [digits, List.length_cons, ih, List.length_cons]

theorem digits_digits (hR : 0 < R) (c : ℤ) (ts : List ℤ) : Digits R (digits R c ts) := by
  induction ts generalizing c with
  | nil => exact List.forall_mem_nil _
  | cons t ts ih =>
    rw [Digits, digits, List.forall_mem_cons]
    exact ⟨⟨Int.emod_nonneg _ hR.ne', Int.emod_lt_of_pos _ hR⟩, ih _⟩

theorem value_digits_add (c : ℤ) (ts : List ℤ) :
    value R (digits R c ts) + R ^ ts.length * carryOut R c ts = c + value R ts := by
  induction ts generalizing c with
  | nil => simp [digits, carryOut]
  | cons t ts ih =>
    have hdivision : (c + t) % R + R * ((c + t) / R) = c + t := Int.emod_add_mul_ediv (c + t) R
    rw [digits, carryOut, value_cons, value_cons, List.length_cons]
    linear_combination R * ih ((c + t) / R) + hdivision

theorem value_digits (hR : 0 < R) (c : ℤ) (ts : List ℤ) :
    value R (digits R c ts) = (c + value R ts) % R ^ ts.length := by
  have hdigits := digits_digits hR c ts
  have hlt := hdigits.value_lt hR
  rw [length_digits] at hlt
  rw [← value_digits_add, Int.add_mul_emod_self_left,
    Int.emod_eq_of_lt (hdigits.value_nonneg hR) hlt]

theorem carryOut_eq (hR : 0 < R) (c : ℤ) (ts : List ℤ) :
    carryOut R c ts = (c + value R ts) / R ^ ts.length := by
  have hdigits := digits_digits hR c ts
  have hlt := hdigits.value_lt hR
  rw [length_digits] at hlt
  have hpos : 0 < R ^ ts.length := pow_pos hR _
  rw [← value_digits_add, Int.add_mul_ediv_left _ _ hpos.ne',
    Int.ediv_eq_zero_of_lt (hdigits.value_nonneg hR) hlt, zero_add]

/-- A run of carries that leaves the last limb whole. -/
def settle (R c : ℤ) : List ℤ → List ℤ
  | [] => []
  | [t] => [t + c]
  | t :: ts => (t + c) % R :: settle R ((t + c) / R) ts

theorem value_settle (c : ℤ) {ts : List ℤ} (h : ts ≠ []) :
    value R (settle R c ts) = c + value R ts := by
  fun_induction settle R c ts with
  | case1 c => exact absurd rfl h
  | case2 c t =>
    rw [value_cons, value_cons, value_nil]
    ring
  | case3 c t ts hts ih =>
    have hdivision : (t + c) % R + R * ((t + c) / R) = t + c := Int.emod_add_mul_ediv (t + c) R
    rw [value_cons, ih hts, value_cons]
    linear_combination hdivision

/-! ## The highest digit -/

/-- The highest digit, divided by `S`, is the number divided by `R ^ n * S`. -/
theorem getD_div {S : ℤ} (hR : 0 < R) {ts : List ℤ} {n : ℕ} (h : Digits R ts)
    (hlength : ts.length = n + 1) : ts.getD n 0 / S = value R ts / (R ^ n * S) := by
  induction n generalizing ts with
  | zero =>
    obtain ⟨t, rfl⟩ := List.length_eq_one_iff.mp hlength
    simp
  | succ n ih =>
    cases ts with
    | nil => simp at hlength
    | cons t ts =>
      have ht := h t List.mem_cons_self
      have hts : Digits R ts := fun u hu => h u (List.mem_cons_of_mem t hu)
      have hquotient : value R (t :: ts) / R = value R ts := by
        rw [value_cons, Int.add_mul_ediv_left _ _ hR.ne', Int.ediv_eq_zero_of_lt ht.1 ht.2, zero_add]
      rw [List.getD_cons_succ, ih hts (Nat.succ_injective hlength), pow_succ', mul_assoc,
        ← Int.ediv_ediv_of_nonneg hR.le, hquotient]

/-- A digit stays out of a division of the number above it. -/
theorem add_mul_emod {t v M : ℤ} (ht : 0 ≤ t) (htR : t < R) (hM : 0 < M) :
    (t + R * v) % (R * M) = t + R * (v % M) := by
  have hR : 0 < R := lt_of_le_of_lt ht htR
  have hnonneg : 0 ≤ t + R * (v % M) :=
    add_nonneg ht (mul_nonneg hR.le (Int.emod_nonneg v hM.ne'))
  have hlt : t + R * (v % M) < R * M := by
    calc t + R * (v % M) < R + R * (v % M) := add_lt_add_left htR _
      _ = R * (v % M + 1) := by ring
      _ ≤ R * M := mul_le_mul_of_nonneg_left (Int.emod_lt_of_pos v hM) hR.le
  have hsplit : t + R * v = t + R * (v % M) + R * M * (v / M) := by
    linear_combination R * (Int.emod_add_mul_ediv v M).symm
  rw [hsplit, Int.add_mul_emod_self_left, Int.emod_eq_of_lt hnonneg hlt]

/-- Taking the highest digit modulo `S` takes the number modulo `R ^ n * S`. -/
theorem value_modify_mod {S : ℤ} (hR : 0 < R) (hS : 0 < S) {ts : List ℤ} {n : ℕ} (h : Digits R ts)
    (hlength : ts.length = n + 1) :
    value R (ts.modify n (· % S)) = value R ts % (R ^ n * S) := by
  induction n generalizing ts with
  | zero =>
    obtain ⟨t, rfl⟩ := List.length_eq_one_iff.mp hlength
    simp
  | succ n ih =>
    cases ts with
    | nil => simp at hlength
    | cons t ts =>
      have ht := h t List.mem_cons_self
      have hts : Digits R ts := fun u hu => h u (List.mem_cons_of_mem t hu)
      have hpos : 0 < R ^ n * S := mul_pos (pow_pos hR n) hS
      rw [List.modify_succ_cons, value_cons, ih hts (Nat.succ_injective hlength), value_cons,
        pow_succ', mul_assoc, add_mul_emod ht.1 ht.2 hpos]

theorem Digits.modify_mod {S : ℤ} (hS : 0 < S) {ts : List ℤ} (h : Digits R ts) (n : ℕ) :
    Digits R (ts.modify n (· % S)) := by
  induction ts generalizing n with
  | nil => simpa using h
  | cons t ts ih =>
    rw [Digits, List.forall_mem_cons] at h
    cases n with
    | zero =>
      rw [List.modify_zero_cons, Digits, List.forall_mem_cons]
      have hle : t % S ≤ t := by
        rw [Int.emod_def]
        exact sub_le_self t (mul_nonneg hS.le (Int.ediv_nonneg h.1.1 hS.le))
      exact ⟨⟨Int.emod_nonneg t hS.ne', lt_of_le_of_lt hle h.1.2⟩, h.2⟩
    | succ n =>
      rw [List.modify_succ_cons, Digits, List.forall_mem_cons]
      exact ⟨h.1, ih h.2 n⟩

/-! ## Products -/

section Product

variable {α β : Type*} [Add α] [Add β]

/-- Add `us` to the limbs of `ts` from the `i`-th on; a limb beyond the end of `ts` is assigned. -/
def accumulate : ℕ → List α → List α → List α
  | 0, [], ts => ts
  | 0, us, [] => us
  | 0, u :: us, t :: ts => (t + u) :: accumulate 0 us ts
  | i + 1, us, t :: ts => t :: accumulate i us ts
  | _ + 1, us, [] => us

theorem map_accumulate {f : α → β} (hadd : ∀ a b, f (a + b) = f a + f b) (i : ℕ) (us ts : List α) :
    (accumulate i us ts).map f = accumulate i (us.map f) (ts.map f) := by
  fun_induction accumulate i us ts with
  | case1 ts => cases ts <;> rfl
  | case2 us h =>
    cases us with
    | nil => rfl
    | cons u us => rfl
  | case3 u us t ts ih =>
    rw [List.map_cons, ih, hadd]
    rfl
  | case4 i us t ts ih =>
    rw [List.map_cons, ih]
    rfl
  | case5 i us => rfl

theorem length_accumulate {i : ℕ} {us ts : List α} (h : i ≤ ts.length) :
    (accumulate i us ts).length = max ts.length (i + us.length) := by
  fun_induction accumulate i us ts with
  | case1 ts => simp
  | case2 us h => simp
  | case3 u us t ts ih =>
    rw [List.length_cons, ih (Nat.zero_le _), List.length_cons, List.length_cons, zero_add, zero_add,
      Nat.add_max_add_right]
  | case4 i us t ts ih =>
    rw [List.length_cons, ih (Nat.le_of_succ_le_succ h), List.length_cons, Nat.succ_add,
      ← Nat.succ_eq_add_one, ← Nat.succ_max_succ]
  | case5 i us => simp at h

variable [Mul α] [Mul β]

/-- The rows of a product by columns, from the `i`-th on. -/
def rows (y : List α) : ℕ → List α → List α → List α
  | _, [], ts => ts
  | i, v :: x, ts => rows y (i + 1) x (accumulate i (y.map (v * ·)) ts)

/-- The sums of the limbs' products, column by column. -/
def product (x y : List α) : List α :=
  rows y 0 x []

theorem map_rows {f : α → β} (hadd : ∀ a b, f (a + b) = f a + f b)
    (hmul : ∀ a b, f (a * b) = f a * f b) (y : List α) (i : ℕ) (x ts : List α) :
    (rows y i x ts).map f = rows (y.map f) i (x.map f) (ts.map f) := by
  induction x generalizing i ts with
  | nil => rfl
  | cons v x ih =>
    have hrow : (y.map (v * ·)).map f = (y.map f).map (f v * ·) := by
      rw [List.map_map, List.map_map]
      exact List.map_congr_left fun u _ => hmul v u
    rw [rows, ih, map_accumulate hadd, hrow, List.map_cons, rows]

theorem map_product {f : α → β} (hadd : ∀ a b, f (a + b) = f a + f b)
    (hmul : ∀ a b, f (a * b) = f a * f b) (x y : List α) :
    (product x y).map f = product (x.map f) (y.map f) :=
  map_rows hadd hmul y 0 x []

theorem length_rows {y : List α} (hy : y ≠ []) (v : α) {x ts : List α} {i : ℕ}
    (h : i ≤ ts.length) :
    (rows y i (v :: x) ts).length = max ts.length (i + x.length + y.length) := by
  have hrow : (accumulate i (y.map (v * ·)) ts).length = max ts.length (i + y.length) := by
    rw [length_accumulate h, List.length_map]
  have hpos : 0 < y.length := List.length_pos_iff.mpr hy
  induction x generalizing v i ts with
  | nil => rw [rows, rows, hrow, List.length_nil, add_zero]
  | cons u x ih =>
    have hnext : i + 1 ≤ (accumulate i (y.map (v * ·)) ts).length := by omega
    rw [rows, ih u hnext (by rw [length_accumulate hnext, List.length_map]), hrow, List.length_cons]
    omega

theorem length_product {y : List α} (hy : y ≠ []) (v : α) (x : List α) :
    (product (v :: x) y).length = x.length + y.length := by
  rw [product, length_rows hy v (Nat.zero_le _), List.length_nil, zero_add, Nat.zero_max]

end Product

theorem value_accumulate {i : ℕ} {us ts : List ℤ} (h : i ≤ ts.length) :
    value R (accumulate i us ts) = value R ts + R ^ i * value R us := by
  fun_induction accumulate i us ts with
  | case1 ts => simp
  | case2 us h => simp
  | case3 u us t ts ih =>
    rw [value_cons, ih (Nat.zero_le _), value_cons, value_cons]
    ring
  | case4 i us t ts ih =>
    rw [value_cons, ih (Nat.le_of_succ_le_succ h), value_cons, Nat.succ_eq_add_one]
    ring
  | case5 i us => simp at h

theorem value_rows {y : List ℤ} (hy : y ≠ []) {i : ℕ} {x ts : List ℤ} (h : i ≤ ts.length) :
    value R (rows y i x ts) = value R ts + R ^ i * (value R x * value R y) := by
  induction x generalizing i ts with
  | nil => simp [rows]
  | cons v x ih =>
    have hlength : i + 1 ≤ (accumulate i (y.map (v * ·)) ts).length := by
      rw [length_accumulate h, List.length_map]
      exact le_max_of_le_right (Nat.add_le_add_left (List.length_pos_iff.mpr hy) i)
    rw [rows, ih hlength, value_accumulate h, value_map_mul, value_cons]
    ring

theorem value_product {x y : List ℤ} (hy : y ≠ []) :
    value R (product x y) = value R x * value R y := by
  rw [product, value_rows hy (Nat.zero_le _), value_nil, pow_zero, zero_add, one_mul]

/-- Every limb is at least 0 and at most `B`. -/
def AtMost (B : ℤ) (ts : List ℤ) : Prop :=
  ∀ t ∈ ts, 0 ≤ t ∧ t ≤ B

theorem AtMost.accumulate {B C : ℤ} {us ts : List ℤ} (hB : 0 ≤ B) (hC : 0 ≤ C) (hts : AtMost B ts)
    (hus : AtMost C us) (i : ℕ) : AtMost (B + C) (accumulate i us ts) := by
  fun_induction Radix.accumulate i us ts with
  | case1 ts => exact fun t ht => ⟨(hts t ht).1, le_add_of_le_of_nonneg (hts t ht).2 hC⟩
  | case2 us h => exact fun u hu => ⟨(hus u hu).1, le_add_of_nonneg_of_le hB (hus u hu).2⟩
  | case3 u us t ts ih =>
    rw [AtMost, List.forall_mem_cons] at hts hus ⊢
    refine ⟨⟨add_nonneg hts.1.1 hus.1.1, add_le_add hts.1.2 hus.1.2⟩, ?_⟩
    exact ih hts.2 hus.2
  | case4 i us t ts ih =>
    rw [AtMost, List.forall_mem_cons] at hts ⊢
    exact ⟨⟨hts.1.1, le_add_of_le_of_nonneg hts.1.2 hC⟩, ih hts.2 hus⟩
  | case5 i us => exact fun u hu => ⟨(hus u hu).1, le_add_of_nonneg_of_le hB (hus u hu).2⟩

theorem AtMost.rows {B C D : ℤ} {y : List ℤ} (hC : 0 ≤ C) (hD : 0 ≤ D) (hy : AtMost D y)
    {x ts : List ℤ} (hB : 0 ≤ B) (hx : AtMost C x) (hts : AtMost B ts) (i : ℕ) :
    AtMost (B + x.length * (C * D)) (rows y i x ts) := by
  induction x generalizing i ts B with
  | nil => simpa [Radix.rows] using hts
  | cons v x ih =>
    rw [AtMost, List.forall_mem_cons] at hx
    have hrow : AtMost (C * D) (y.map (v * ·)) := by
      rw [AtMost, List.forall_mem_map]
      intro u hu
      exact ⟨mul_nonneg hx.1.1 (hy u hu).1, mul_le_mul hx.1.2 (hy u hu).2 (hy u hu).1 hC⟩
    have hCD : 0 ≤ C * D := mul_nonneg hC hD
    have := ih (add_nonneg hB hCD) hx.2 (hts.accumulate hB hCD hrow i) (i + 1)
    rw [Radix.rows, List.length_cons]
    convert this using 1
    push_cast
    ring

theorem AtMost.product {C D : ℤ} {x y : List ℤ} (hC : 0 ≤ C) (hD : 0 ≤ D) (hx : AtMost C x)
    (hy : AtMost D y) : AtMost (x.length * (C * D)) (product x y) := by
  have := AtMost.rows hC hD hy le_rfl hx (List.forall_mem_nil _) 0
  rwa [zero_add] at this

end Radix
