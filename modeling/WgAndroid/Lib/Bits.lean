import Mathlib.Data.BitVec
import Mathlib.Data.Nat.Digits.Defs
import Mathlib.Data.Nat.Bitwise

/-!
# Bits

Results:
1. `testBit_ofDigits`: bit `j` of a number in digits of `b` bits is bit `j % b` of digit `j / b`.
2. `swapMasked_mask`: a swap of words under a mask, without a branch.
-/

namespace Bits

theorem testBit_ofDigits {b : ℕ} (hb : 0 < b) {ds : List ℕ} (h : ∀ d ∈ ds, d < 2 ^ b) (j : ℕ) :
    (Nat.ofDigits (2 ^ b) ds).testBit j = (ds.getD (j / b) 0).testBit (j % b) := by
  induction ds generalizing j with
  | nil => simp
  | cons d ds ih =>
    rw [List.forall_mem_cons] at h
    rw [Nat.ofDigits_cons, Nat.add_comm]
    rw [Nat.testBit_two_pow_mul_add _ h.1]
    by_cases hj : j < b
    · rw [if_pos hj, Nat.div_eq_of_lt hj, Nat.mod_eq_of_lt hj, List.getD_cons_zero]
    · have hj' : b ≤ j := Nat.le_of_not_lt hj
      rw [if_neg hj, ih h.2, Nat.mod_eq_sub_mod hj', Nat.div_eq_sub_div hb hj', List.getD_cons_succ]

/-! ## Swaps under a mask -/

/-- All bits or none. -/
def mask (w : ℕ) (b : Bool) : BitVec w :=
  if b then BitVec.allOnes w else 0

/-- Exchange the bits of `x` and `y` that are set in the mask. -/
def swapMasked {w : ℕ} (m : BitVec w) (x y : List (BitVec w)) : List (BitVec w) × List (BitVec w) :=
  (List.zipWith (fun a b => a ^^^ (m &&& (a ^^^ b))) x y,
    List.zipWith (fun a b => b ^^^ (m &&& (a ^^^ b))) x y)

theorem xor_mask {w : ℕ} (a b : BitVec w) (swap : Bool) :
    a ^^^ (mask w swap &&& (a ^^^ b)) = (if swap then b else a) ∧
      b ^^^ (mask w swap &&& (a ^^^ b)) = (if swap then a else b) := by
  cases swap with
  | false => simp [mask]
  | true =>
    have hb : b ^^^ (a ^^^ b) = a := by
      rw [BitVec.xor_comm a b, ← BitVec.xor_assoc, BitVec.xor_self, BitVec.zero_xor]
    have ha : a ^^^ (a ^^^ b) = b := by
      rw [← BitVec.xor_assoc, BitVec.xor_self, BitVec.zero_xor]
    simp [mask, ha, hb]

theorem swapMasked_mask {w : ℕ} {x y : List (BitVec w)} (h : x.length = y.length) (swap : Bool) :
    swapMasked (mask w swap) x y = if swap then (y, x) else (x, y) := by
  induction x generalizing y with
  | nil =>
    cases y with
    | nil => cases swap <;> rfl
    | cons b y => simp at h
  | cons a x ih =>
    cases y with
    | nil => simp at h
    | cons b y =>
      have hrest := ih (Nat.succ_injective h)
      simp only [swapMasked, Prod.ext_iff] at hrest ⊢
      rw [List.zipWith_cons_cons, List.zipWith_cons_cons, hrest.1, hrest.2, (xor_mask a b swap).1,
        (xor_mask a b swap).2]
      cases swap <;> exact ⟨rfl, rfl⟩

end Bits
