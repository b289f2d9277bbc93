import Mathlib.Data.BitVec
import Mathlib.Tactic.Ring

/-!
# Signed machine words

Two's complement arithmetic read over the integers: an operation whose exact result fits the word
computes it; a mask and an arithmetic shift are a remainder and a quotient by a power of two.
-/

namespace SignedWord

/-- The integer is a value of a signed word of `w` bits. -/
def Fits (w : ℕ) (z : ℤ) : Prop :=
  -2 ^ (w - 1) ≤ z ∧ z < 2 ^ (w - 1)

variable {w : ℕ}

theorem bmod_of_fits {z : ℤ} (hw : 0 < w) (h : Fits w z) : z.bmod (2 ^ w) = z := by
  rw [← BitVec.toInt_ofInt]
  exact BitVec.toInt_ofInt_eq_self hw h.1 h.2

theorem toInt_add {x y : BitVec w} (hw : 0 < w) (h : Fits w (x.toInt + y.toInt)) :
    (x + y).toInt = x.toInt + y.toInt := by
  rw [BitVec.toInt_add, bmod_of_fits hw h]

theorem toInt_sub {x y : BitVec w} (hw : 0 < w) (h : Fits w (x.toInt - y.toInt)) :
    (x - y).toInt = x.toInt - y.toInt := by
  rw [BitVec.toInt_sub, bmod_of_fits hw h]

theorem toInt_mul {x y : BitVec w} (hw : 0 < w) (h : Fits w (x.toInt * y.toInt)) :
    (x * y).toInt = x.toInt * y.toInt := by
  rw [BitVec.toInt_mul, bmod_of_fits hw h]

theorem toInt_sshiftRight (x : BitVec w) (k : ℕ) : (x.sshiftRight k).toInt = x.toInt / 2 ^ k := by
  rw [BitVec.toInt_sshiftRight, Int.shiftRight_eq_div_pow]
  norm_cast

/-- A word whose value is below `2 ^ k`, as its bits. -/
theorem toInt_of_toNat_lt {x : BitVec w} {k : ℕ} (hk : k < w) (h : x.toNat < 2 ^ k) :
    x.toInt = x.toNat := by
  apply BitVec.toInt_eq_toNat_of_lt
  calc 2 * x.toNat < 2 * 2 ^ k := by omega
    _ = 2 ^ (k + 1) := by rw [pow_succ, mul_comm]
    _ ≤ 2 ^ w := Nat.pow_le_pow_right (by omega) hk

theorem toInt_emod (x : BitVec w) {k : ℕ} (hk : k ≤ w) : x.toInt % 2 ^ k = (x.toNat : ℤ) % 2 ^ k := by
  have hdvd : (2 : ℤ) ^ k ∣ ((2 ^ w : ℕ) : ℤ) := by
    push_cast
    exact pow_dvd_pow 2 hk
  rw [BitVec.toInt_eq_toNat_bmod, ← Int.emod_emod_of_dvd _ hdvd, Int.bmod_emod,
    Int.emod_emod_of_dvd _ hdvd]

theorem toInt_and_mask {mask : BitVec w} {k : ℕ} (hk : k < w) (hmask : mask.toNat = 2 ^ k - 1)
    (x : BitVec w) : (x &&& mask).toInt = x.toInt % 2 ^ k := by
  have hbits : (x &&& mask).toNat = x.toNat % 2 ^ k := by
    rw [BitVec.toNat_and, hmask, Nat.and_two_pow_sub_one_eq_mod]
  have hlt : (x &&& mask).toNat < 2 ^ k := by
    rw [hbits]
    exact Nat.mod_lt _ (Nat.two_pow_pos k)
  rw [toInt_of_toNat_lt hk hlt, hbits, toInt_emod x hk.le]
  norm_cast

end SignedWord
