import Mathlib.FieldTheory.Finite.Basic
import WgAndroid.Lib.Lucas

/-!
# The field of Curve25519

Results:
1. `prime_fieldPrime`: `2^255 - 19` is prime, by a certificate.
2. `Field25519`: the integers modulo it, as a field, with their least residues.
-/

namespace WgAndroid

/-- `2^255 - 19` -/
def fieldPrime : ℕ := 2 ^ 255 - 19

def fieldCertificate : List Lucas.Entry :=
  [⟨2 ^ 255 - 19, 2, [2, 2, 3, 65147,
      74058212732561358302231226437062788676166966415465897661863160754340907]⟩,
    ⟨65147, 2, [2, 32573]⟩,
    ⟨32573, 2, [2, 2, 17, 479]⟩,
    ⟨479, 13, [2, 239]⟩,
    ⟨239, 7, [2, 7, 17]⟩,
    ⟨74058212732561358302231226437062788676166966415465897661863160754340907, 2,
      [2, 3, 353, 57467, 132049, 1923133, 31757755568855353, 75445702479781427272750846543864801]⟩,
    ⟨1923133, 2, [2, 2, 3, 43, 3727]⟩,
    ⟨3727, 3, [2, 3, 3, 3, 3, 23]⟩,
    ⟨57467, 2, [2, 59, 487]⟩,
    ⟨487, 3, [2, 3, 3, 3, 3, 3]⟩,
    ⟨59, 2, [2, 29]⟩,
    ⟨31757755568855353, 10, [2, 2, 2, 3, 31, 107, 223, 4153, 430751]⟩,
    ⟨223, 3, [2, 3, 37]⟩,
    ⟨37, 2, [2, 2, 3, 3]⟩,
    ⟨31, 3, [2, 3, 5]⟩,
    ⟨4153, 5, [2, 2, 2, 3, 173]⟩,
    ⟨173, 2, [2, 2, 43]⟩,
    ⟨43, 3, [2, 3, 7]⟩,
    ⟨430751, 17, [2, 5, 5, 5, 1723]⟩,
    ⟨1723, 3, [2, 3, 7, 41]⟩,
    ⟨107, 2, [2, 53]⟩,
    ⟨53, 2, [2, 2, 13]⟩,
    ⟨132049, 26, [2, 2, 2, 2, 3, 3, 7, 131]⟩,
    ⟨131, 2, [2, 5, 13]⟩,
    ⟨75445702479781427272750846543864801, 7,
      [2, 2, 2, 2, 2, 3, 3, 5, 5, 75707, 72106336199, 1919519569386763]⟩,
    ⟨75707, 2, [2, 37853]⟩,
    ⟨37853, 2, [2, 2, 9463]⟩,
    ⟨9463, 3, [2, 3, 19, 83]⟩,
    ⟨83, 2, [2, 41]⟩,
    ⟨41, 6, [2, 2, 2, 5]⟩,
    ⟨1919519569386763, 2, [2, 3, 7, 19, 47, 47, 127, 8574133]⟩,
    ⟨127, 3, [2, 3, 3, 7]⟩,
    ⟨8574133, 2, [2, 2, 3, 7, 103, 991]⟩,
    ⟨991, 6, [2, 3, 3, 5, 11]⟩,
    ⟨103, 5, [2, 3, 17]⟩,
    ⟨17, 3, [2, 2, 2, 2]⟩,
    ⟨47, 5, [2, 23]⟩,
    ⟨23, 5, [2, 11]⟩,
    ⟨72106336199, 7, [2, 13, 2773320623]⟩,
    ⟨2773320623, 5, [2, 2437, 569003]⟩,
    ⟨2437, 2, [2, 2, 3, 7, 29]⟩,
    ⟨29, 2, [2, 2, 7]⟩,
    ⟨569003, 2, [2, 7, 97, 419]⟩,
    ⟨7, 3, [2, 3]⟩,
    ⟨419, 2, [2, 11, 19]⟩,
    ⟨19, 2, [2, 3, 3]⟩,
    ⟨97, 5, [2, 2, 2, 2, 2, 3]⟩,
    ⟨13, 2, [2, 2, 3]⟩,
    ⟨353, 3, [2, 2, 2, 2, 2, 11]⟩,
    ⟨11, 2, [2, 5]⟩,
    ⟨5, 2, [2, 2]⟩,
    ⟨3, 2, [2]⟩,
    ⟨2, 1, []⟩]

theorem certified_fieldCertificate : Lucas.certified 255 fieldCertificate = true := by
  decide +kernel

theorem prime_fieldPrime : fieldPrime.Prime :=
  Lucas.prime_of_certified certified_fieldCertificate _ (List.mem_map.mpr ⟨_, List.mem_cons_self, rfl⟩)

instance : Fact fieldPrime.Prime := ⟨prime_fieldPrime⟩

theorem cast_fieldPrime : ((fieldPrime : ℕ) : ℤ) = 2 ^ 255 - 19 := by
  norm_num [fieldPrime]

/-- The integers modulo `2^255 - 19`. -/
def Field25519 : Type := ZMod fieldPrime

namespace Field25519

instance : Field Field25519 := inferInstanceAs (Field (ZMod fieldPrime))

instance : DecidableEq Field25519 := inferInstanceAs (DecidableEq (ZMod fieldPrime))

instance : CharP Field25519 fieldPrime := inferInstanceAs (CharP (ZMod fieldPrime) fieldPrime)

/-- The least residue. -/
def residue (a : Field25519) : ℕ := ZMod.val (n := fieldPrime) a

theorem residue_lt (a : Field25519) : a.residue < fieldPrime :=
  ZMod.val_lt (n := fieldPrime) a

theorem cast_residue (a : Field25519) : ((a.residue : ℕ) : Field25519) = a :=
  ZMod.natCast_zmod_val (n := fieldPrime) a

theorem cast_mod (v : ℤ) : ((v % (2 ^ 255 - 19) : ℤ) : Field25519) = (v : Field25519) := by
  rw [← cast_fieldPrime, CharP.intCast_eq_intCast Field25519 fieldPrime]
  exact Int.mod_modEq v _

theorem residue_cast {v : ℤ} (hnonneg : 0 ≤ v) (hlt : v < 2 ^ 255 - 19) :
    (((v : Field25519).residue : ℕ) : ℤ) = v := by
  have hcast := cast_residue (v : Field25519)
  have hresidue := residue_lt (v : Field25519)
  rw [← Int.cast_natCast, CharP.intCast_eq_intCast Field25519 fieldPrime, Int.ModEq,
    cast_fieldPrime] at hcast
  have hlt' : (((v : Field25519).residue : ℕ) : ℤ) < 2 ^ 255 - 19 := by
    rw [← cast_fieldPrime]
    exact_mod_cast hresidue
  rwa [Int.emod_eq_of_lt (Int.natCast_nonneg _) hlt', Int.emod_eq_of_lt hnonneg hlt] at hcast

/-- The inverse as a power. -/
theorem pow_sub_two (a : Field25519) : a ^ (fieldPrime - 2) = a⁻¹ := by
  by_cases ha : a = 0
  · rw [ha, inv_zero]
    exact zero_pow (by decide)
  · apply eq_inv_of_mul_eq_one_left
    rw [← pow_succ]
    exact ZMod.pow_card_sub_one_eq_one (p := fieldPrime) ha

theorem cast_ne_zero {n : ℕ} (hpos : 0 < n) (hlt : n < fieldPrime) : ((n : ℕ) : Field25519) ≠ 0 := by
  rw [ne_eq, CharP.cast_eq_zero_iff Field25519 fieldPrime]
  exact Nat.not_dvd_of_pos_of_lt hpos hlt

end Field25519

end WgAndroid
