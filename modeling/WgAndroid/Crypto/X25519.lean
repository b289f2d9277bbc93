import WgAndroid.Crypto.Packing
import WgAndroid.Lib.Montgomery

/-!
# Curve25519 computes multiples of a point

The evaluation of the curve in Java against the elliptic curve `y² = x³ + 486662 x² + x` over the
integers modulo `2^255 - 19`.

Results:
1. `evalCurve_denotes`: the loop over the bits of the private key runs the Montgomery ladder.
2. `reduced_publicKey_iff`: which public keys `eval` brings into the field.
3. `Key.generatePublicKey_multiple`: a public key is a multiple of the base point.
4. `Key.sharedSecret_comm`: two key pairs agree on a secret.
-/

namespace WgAndroid

namespace Curve25519

/-- The limbs are the reduced form of the field element. -/
def Denotes (x : Limbs) (a : Field25519) : Prop :=
  Reduced x ∧ ((val x : ℤ) : Field25519) = a

section Operations

variable {x y : Limbs} {a b : Field25519}

theorem Denotes.add (hx : Denotes x a) (hy : Denotes y b) : Denotes (add x y) (a + b) := by
  obtain ⟨hreduced, hval⟩ := hx.1.add hy.1
  refine ⟨hreduced, ?_⟩
  rw [hval, Field25519.cast_mod, Int.cast_add, hx.2, hy.2]

theorem Denotes.sub (hx : Denotes x a) (hy : Denotes y b) : Denotes (sub x y) (a - b) := by
  obtain ⟨hreduced, hval⟩ := hx.1.sub hy.1
  refine ⟨hreduced, ?_⟩
  rw [hval, Field25519.cast_mod, Int.cast_sub, hx.2, hy.2]

theorem Denotes.mul (hx : Denotes x a) (hy : Denotes y b) : Denotes (mul x y) (a * b) := by
  obtain ⟨hreduced, hval⟩ := hx.1.mul hy.1
  refine ⟨hreduced, ?_⟩
  rw [hval, Field25519.cast_mod, Int.cast_mul, hx.2, hy.2]

theorem Denotes.square (hx : Denotes x a) : Denotes (square x) (a ^ 2) := by
  rw [sq]
  exact hx.mul hx

theorem Denotes.mulA24 (hx : Denotes x a) : Denotes (mulA24 x) (121665 * a) := by
  obtain ⟨hreduced, hval⟩ := hx.1.mulA24
  refine ⟨hreduced, ?_⟩
  rw [hval, Field25519.cast_mod, Int.cast_mul, hx.2]
  norm_num

/-! ## The reciprocal -/

theorem Denotes.square_iterate (hx : Denotes x a) (n : ℕ) :
    Denotes (Curve25519.square^[n] x) (a ^ 2 ^ n) := by
  induction n generalizing x a with
  | zero => simpa using hx
  | succ n ih =>
    rw [Function.iterate_succ_apply, pow_succ', pow_mul]
    exact ih hx.square

/-- The arrays `A` and `result` of `pow250` are powers of `a`. -/
def Powers (a : Field25519) (p : Limbs × Limbs) (e : ℕ × ℕ) : Prop :=
  Denotes p.1 (a ^ e.1) ∧ Denotes p.2 (a ^ e.2)

/-- What a turn of the loops of `pow250` does to the exponents. -/
def exponentTurn (n : ℕ) (e : ℕ × ℕ) : ℕ × ℕ :=
  (e.1 * 2 ^ n, e.2 + e.1 * 2 ^ n)

theorem Powers.powTurn {p : Limbs × Limbs} {e : ℕ × ℕ} (h : Powers a p e) (n : ℕ) :
    Powers a (powTurn n p) (exponentTurn n e) := by
  have hA : Denotes (Curve25519.square^[n] p.1) (a ^ (e.1 * 2 ^ n)) := by
    rw [pow_mul]
    exact h.1.square_iterate n
  refine ⟨hA, ?_⟩
  rw [exponentTurn, pow_add]
  exact h.2.mul hA

theorem Powers.iterate {p : Limbs × Limbs} {e : ℕ × ℕ} (h : Powers a p e) (n k : ℕ) :
    Powers a ((Curve25519.powTurn n)^[k] p) ((exponentTurn n)^[k] e) := by
  induction k generalizing p e with
  | zero => exact h
  | succ k ih =>
    rw [Function.iterate_succ_apply, Function.iterate_succ_apply]
    exact ih (h.powTurn n)

theorem Denotes.powers_mul {A : Limbs} {e : ℕ} (hA : Denotes A (a ^ e)) (hx : Denotes x a) :
    Powers a (A, Curve25519.mul A x) (e, e + 1) := by
  refine ⟨hA, ?_⟩
  rw [pow_add, pow_one]
  exact hA.mul hx

theorem Denotes.powers_square {r : Limbs} {e : ℕ} (hr : Denotes r (a ^ e)) :
    Powers a (Curve25519.square r, Curve25519.mul r (Curve25519.square r)) (e * 2, e + e * 2) := by
  have hsquare : Denotes (Curve25519.square r) (a ^ (e * 2)) := by
    rw [pow_mul]
    exact hr.square
  refine ⟨hsquare, ?_⟩
  rw [pow_add]
  exact hr.mul hsquare

theorem Denotes.pow250 (hx : Denotes x a) : Denotes (pow250 x) (a ^ (2 ^ 250 - 1)) := by
  have hA : Denotes (Curve25519.square^[9] (Curve25519.square x)) (a ^ 2 ^ 10) := by
    rw [← Function.iterate_succ_apply]
    exact hx.square_iterate 10
  have hrepeated := (hA.powers_mul hx).iterate 10 23
  have hpattern : ((exponentTurn 10)^[23] (2 ^ 10, 2 ^ 10 + 1)).2 = (2 ^ 250 - 1) / 1023 := by
    decide +kernel
  have hr := hrepeated.2
  rw [hpattern] at hr
  have hfilled := hr.powers_square.iterate 1 8
  have hexponent : ((exponentTurn 1)^[8] ((2 ^ 250 - 1) / 1023 * 2,
      (2 ^ 250 - 1) / 1023 + (2 ^ 250 - 1) / 1023 * 2)).2 = 2 ^ 250 - 1 := by
    decide +kernel
  rw [← hexponent]
  exact hfilled.2

theorem Denotes.recip (hx : Denotes x a) : Denotes (recip x) a⁻¹ := by
  have hresult := ((hx.pow250.square.square.mul hx).square.square.mul hx).square.mul hx
  have hexponent : (((((a ^ (2 ^ 250 - 1)) ^ 2) ^ 2 * a) ^ 2) ^ 2 * a) ^ 2 * a = a⁻¹ := by
    have hsum : 32 * (2 ^ 250 - 1) + 11 = fieldPrime - 2 := by norm_num [fieldPrime]
    rw [← Field25519.pow_sub_two, ← hsum]
    generalize 2 ^ 250 - 1 = e
    ring
  rw [← hexponent]
  exact hresult

end Operations

/-! ## The ladder -/

/-- A bit as an `int`. -/
def bitWord (b : Bool) : BitVec 32 :=
  if b then 1 else 0

theorem cswap_bitWord {x y : Limbs} (h : x.length = y.length) (b : Bool) :
    cswap (bitWord b) x y = if b then (y, x) else (x, y) := by
  have hmask : -bitWord b = Bits.mask 32 b := by cases b <;> rfl
  rw [← Bits.swapMasked_mask h, ← hmask]
  rfl

/-- The arrays of a turn are the reduced forms of the coordinates. -/
structure State.Denotes (s : State) (t : Montgomery.Pair Field25519) : Prop where
  x_2 : Curve25519.Denotes s.x_2 t.x₂
  z_2 : Curve25519.Denotes s.z_2 t.z₂
  x_3 : Curve25519.Denotes s.x_3 t.x₃
  z_3 : Curve25519.Denotes s.z_3 t.z₃

theorem State.Denotes.cswap {s : State} {t : Montgomery.Pair Field25519} (h : s.Denotes t)
    (b : Bool) : (s.cswap (bitWord b)).Denotes (t.cswap b) := by
  rw [State.cswap, cswap_bitWord (by rw [h.x_2.1.length, h.x_3.1.length]),
    cswap_bitWord (by rw [h.z_2.1.length, h.z_3.1.length])]
  cases b with
  | false => exact h
  | true => exact ⟨h.x_3, h.z_3, h.x_2, h.z_2⟩

theorem State.Denotes.step {s : State} {t : Montgomery.Pair Field25519} (h : s.Denotes t)
    {x_1 : Limbs} {x₁ : Field25519} (hx_1 : Curve25519.Denotes x_1 x₁) :
    (s.step x_1).Denotes (t.step 121665 x₁) := by
  have hA := h.x_2.add h.z_2
  have hB := h.x_2.sub h.z_2
  have hE := hA.square.sub hB.square
  have hDA := (h.x_3.sub h.z_3).mul hA
  have hCB := (h.x_3.add h.z_3).mul hB
  have hform : ∀ e aa : Field25519, (121665 * e + aa) * e = e * (aa + 121665 * e) := by
    intro e aa
    ring
  have hx_2 := hA.square.mul hB.square
  have hz_2 := (hE.mulA24.add hA.square).mul hE
  rw [hform] at hz_2
  have hx_3 := (hDA.add hCB).square
  have hz_3 := (hDA.sub hCB).square.mul hx_1
  rw [mul_comm _ x₁] at hz_3
  refine ⟨?_, ?_, ?_, ?_⟩ <;> simp only [State.step, Montgomery.Pair.step]
  · exact hx_2
  · exact hz_2
  · exact hx_3
  · exact hz_3

/-! ## The bits of the private key -/

/-- The three assignments of `Key.generatePrivateKey` that clamp random bytes. -/
def clamp (privateKey : List UInt8) : List UInt8 :=
  ((privateKey.modify 0 (· &&& 248)).modify 31 (· &&& 127)).modify 31 (· ||| 64)

/-- The number by which a private key multiplies. -/
def scalar (privateKey : List UInt8) : ℕ :=
  littleEndian (clamp privateKey)

/-- What `evalCurve` loads into `svalue` for byte `sposn`. -/
def loaded (s : List UInt8) : ℕ → BitVec 32
  | 0 => Key.int (s.getD 0 0) &&& 0xF8
  | sposn + 1 =>
    if sposn + 1 = 31 then Key.int (s.getD 31 0) ||| 0x40 else Key.int (s.getD (sposn + 1) 0)

theorem getD_clamp {s : List UInt8} (hs : s.length = 32) {i : ℕ} (hi : i < 32) :
    (clamp s).getD i 0 = if i = 0 then s.getD 0 0 &&& 248
      else if i = 31 then (s.getD 31 0 &&& 127) ||| 64 else s.getD i 0 := by
  rw [clamp, getD_modify (by rw [List.length_modify, List.length_modify, hs]; exact hi),
    getD_modify (by rw [List.length_modify, hs]; exact hi), getD_modify (by rw [hs]; exact hi)]
  rcases eq_or_ne i 0 with rfl | h₀
  · rfl
  rcases eq_or_ne i 31 with rfl | h₃₁
  · rfl
  rw [if_neg h₃₁.symm, if_neg h₃₁.symm, if_neg h₀.symm, if_neg h₀, if_neg h₃₁]

theorem length_clamp (s : List UInt8) : (clamp s).length = s.length := by
  rw [clamp, List.length_modify, List.length_modify, List.length_modify]

theorem clamp_clamp {s : List UInt8} (hs : s.length = 32) : clamp (clamp s) = clamp s := by
  have hclamp : (clamp s).length = 32 := by rw [length_clamp, hs]
  have htop : ∀ b : UInt8, ((b &&& 127 ||| 64) &&& 127 ||| 64) = b &&& 127 ||| 64 := by
    intro b
    apply UInt8.toBitVec_inj.mp
    apply BitVec.eq_of_getLsbD_eq
    intro i _
    simp only [UInt8.toBitVec_and, UInt8.toBitVec_or, BitVec.getLsbD_and, BitVec.getLsbD_or]
    cases b.toBitVec.getLsbD i <;> cases (127 : UInt8).toBitVec.getLsbD i <;>
      cases (64 : UInt8).toBitVec.getLsbD i <;> rfl
  apply List.ext_getElem (length_clamp _)
  intro i hi hi'
  rw [← List.getD_eq_getElem _ 0 hi, ← List.getD_eq_getElem _ 0 hi']
  rw [hclamp] at hi'
  rw [getD_clamp hclamp hi', getD_clamp hs hi']
  split_ifs with h₀ h₃₁
  · rw [getD_clamp hs (by norm_num), if_pos rfl, UInt8.and_assoc]
    rfl
  · rw [getD_clamp hs (by norm_num), if_neg (by norm_num), if_pos rfl, htop]
  · rfl

/-- A bit of a byte as an `int`. -/
theorem getLsbD_int (b : UInt8) {j : ℕ} (hj : j < 8) : (Key.int b).getLsbD j = b.toNat.testBit j := by
  have hword : j < 32 := by omega
  rw [Key.int, BitVec.getLsbD_signExtend]
  simp only [hword, hj, decide_true, Bool.true_and, if_true]
  rfl

theorem getLsbD_loaded {s : List UInt8} (hs : s.length = 32) {sposn j : ℕ} (hj : j < 8)
    (hbit : 8 * sposn + j < 255) :
    (loaded s sposn).getLsbD j = (scalar s).testBit (8 * sposn + j) := by
  have hbyte : (scalar s).testBit (8 * sposn + j) = ((clamp s).getD sposn 0).toNat.testBit j := by
    rw [scalar, testBit_littleEndian, Nat.mul_add_div (by norm_num), Nat.div_eq_of_lt hj, add_zero,
      Nat.mul_add_mod, Nat.mod_eq_of_lt hj]
  rw [hbyte, getD_clamp hs (by omega)]
  cases sposn with
  | zero =>
    rw [if_pos rfl, loaded, BitVec.getLsbD_and, getLsbD_int _ hj, UInt8.toNat_and, Nat.testBit_and]
    rfl
  | succ sposn =>
    rw [if_neg (Nat.succ_ne_zero sposn), loaded]
    split_ifs with htop
    · rw [BitVec.getLsbD_or, getLsbD_int _ hj, UInt8.toNat_or, Nat.testBit_or, UInt8.toNat_and,
        Nat.testBit_and]
      have hlow : (127 : UInt8).toNat.testBit j = true := by
        have : j < 7 := by omega
        exact (Nat.testBit_two_pow_sub_one 7 j).trans (decide_eq_true this)
      rw [hlow, Bool.and_true]
      rfl
    · rw [getLsbD_int _ hj]

/-- The lowest bit of a shifted word. -/
theorem sshiftRight_and_one (v : BitVec 32) {k : ℕ} (hk : k < 32) :
    v.sshiftRight k &&& 0x01 = bitWord (v.getLsbD k) := by
  apply BitVec.eq_of_getLsbD_eq
  intro i hi
  have hone : (0x01 : BitVec 32).getLsbD i = decide (i < 1) := Nat.testBit_two_pow_sub_one 1 i
  have hword : (bitWord (v.getLsbD k)).getLsbD i = (v.getLsbD k && decide (i < 1)) := by
    cases v.getLsbD k with
    | false => exact BitVec.getLsbD_zero
    | true => exact hone
  rw [BitVec.getLsbD_and, BitVec.getLsbD_sshiftRight, hone, hword]
  by_cases h : i < 1
  · obtain rfl : i = 0 := by omega
    simp [hk]
  · simp [h]

theorem bitWord_xor (p q : Bool) : bitWord p ^^^ bitWord q = bitWord (p ^^ q) := by
  cases p <;> cases q <;> rfl

/-- The bits below `m + 1`, from the highest one. -/
theorem testBits_succ (n m : ℕ) : (List.range (m + 1)).reverse.map n.testBit =
    n.testBit m :: (List.range m).reverse.map n.testBit := by
  rw [List.range_succ, List.reverse_append, List.reverse_singleton, List.singleton_append,
    List.map_cons]

theorem evalLoop_denotes {s : List UInt8} (hs : s.length = 32) {x_1 : Limbs} {x₁ : Field25519}
    (hx_1 : Denotes x_1 x₁) {m : ℕ} (sposn sbit : ℕ) (hm : 8 * sposn + sbit = m) (hsbit : sbit < 8)
    (hlt : m < 255) {state : State} {t : Montgomery.Pair Field25519} (h : state.Denotes t)
    (swap : Bool) :
    let bits := (List.range (m + 1)).reverse.map (scalar s).testBit
    let result := evalLoop s x_1 sposn sbit (loaded s sposn) (bitWord swap) state
    let ladder := bits.foldl (Montgomery.lazyStep 121665 x₁) (t, swap)
    result.1.Denotes ladder.1 ∧ result.2 = bitWord ladder.2 := by
  dsimp only
  induction m generalizing sposn sbit state t swap with
  | zero =>
    obtain ⟨rfl, rfl⟩ : sposn = 0 ∧ sbit = 0 := by omega
    have hselect : (loaded s 0).sshiftRight 0 &&& 0x01 = bitWord ((scalar s).testBit 0) := by
      rw [sshiftRight_and_one _ (by norm_num), getLsbD_loaded hs (by norm_num) (by norm_num)]
    rw [testBits_succ, List.range_zero, evalLoop, hselect, bitWord_xor]
    exact ⟨(h.cswap _).step hx_1, rfl⟩
  | succ m ih =>
    have hselect : (loaded s sposn).sshiftRight sbit &&& 0x01 =
        bitWord ((scalar s).testBit (m + 1)) := by
      rw [sshiftRight_and_one _ (by omega), getLsbD_loaded hs hsbit (by omega), hm]
    have hturn := (h.cswap (swap ^^ (scalar s).testBit (m + 1))).step hx_1
    rw [testBits_succ, List.foldl_cons]
    cases sbit with
    | succ sbit =>
      rw [evalLoop, hselect, bitWord_xor]
      exact ih _ _ (by omega) (by omega) (by omega) hturn _
    | zero =>
      obtain _ | _ | sposn := sposn
      · omega
      · rw [evalLoop, hselect, bitWord_xor]
        exact ih 0 _ (by omega) (by omega) (by omega) hturn _
      · have hload : loaded s (sposn + 1) = Key.int (s.getD (sposn + 1) 0) := by
          rw [loaded, if_neg (by omega)]
        rw [evalLoop, hselect, bitWord_xor, ← hload]
        exact ih _ _ (by omega) (by omega) (by omega) hturn _

/-! ## The evaluation -/

theorem denotes_small {n : BitVec 32} {m : ℕ} (hn : n.toInt = m) (hm : m < 2 ^ 26) :
    Denotes (small n) (m : Field25519) := by
  have hints : ints (small n) = n.toInt :: List.replicate 9 0 := rfl
  have hval : val (small n) = m := by
    rw [val, hints, hn]
    simp [List.replicate]
  refine ⟨⟨⟨rfl, ?_⟩, ?_⟩, by rw [hval, Int.cast_natCast]⟩
  · rw [hints, Radix.Digits, List.forall_mem_cons, hn]
    refine ⟨by omega, fun t ht => ?_⟩
    rw [(List.mem_replicate.mp ht).2]
    norm_num
  · rw [hval]
    omega

/-- The bits of the scalar, as the loop of `evalCurve` reads them. -/
def scalarBits (privateKey : List UInt8) : List Bool :=
  (List.range 255).reverse.map (scalar privateKey).testBit

theorem evalCurve_denotes {s : List UInt8} (hs : s.length = 32) {x_1 : Limbs} {x₁ : Field25519}
    (hx_1 : Denotes x_1 x₁) :
    (evalCurve s x_1 ⟨small 1, List.replicate 10 0, x_1, small 1⟩).Denotes
      (Montgomery.ladder 121665 x₁ (scalarBits s)) := by
  have hone : Denotes (small 1) 1 := by
    rw [← Nat.cast_one]
    exact denotes_small rfl (by norm_num)
  have hzero : Denotes (List.replicate 10 0) 0 := by
    rw [← Nat.cast_zero]
    exact denotes_small (n := 0) rfl (by norm_num)
  have hstart : State.Denotes ⟨small 1, List.replicate 10 0, x_1, small 1⟩ ⟨1, 0, x₁, 1⟩ :=
    ⟨hone, hzero, hx_1, hone⟩
  have hladder := Montgomery.foldl_lazyStep 121665 x₁ (scalarBits s) (⟨1, 0, x₁, 1⟩, false)
  have hloop :
      let result := evalLoop s x_1 31 6 (Key.int (s.getD 31 0) ||| 0x40) 0
        ⟨small 1, List.replicate 10 0, x_1, small 1⟩
      let ladder := (scalarBits s).foldl (Montgomery.lazyStep 121665 x₁) (⟨1, 0, x₁, 1⟩, false)
      result.1.Denotes ladder.1 ∧ result.2 = bitWord ladder.2 :=
    evalLoop_denotes hs hx_1 (m := 254) 31 6 rfl (by norm_num) (by norm_num)
      hstart false
  dsimp only at hloop
  rw [evalCurve, hloop.2]
  have hresult := hloop.1.cswap
    ((scalarBits s).foldl (Montgomery.lazyStep 121665 x₁) (⟨1, 0, x₁, 1⟩, false)).2
  rw [hladder] at hresult
  exact hresult

/-- The public key, as a field element, that `eval` starts from. -/
def basePublic : Option Key → Field25519
  | some publicKey => (littleEndian publicKey.bytes : Field25519)
  | none => 9

theorem denotes_publicKey {publicKey : Key} (h : littleEndian publicKey.bytes < 2 ^ 256 - 19) :
    Denotes (reduceQuick (reduceQuick (unpack publicKey.bytes)))
      (littleEndian publicKey.bytes : Field25519) := by
  obtain ⟨htidy, hval⟩ := val_unpack publicKey.length_eq
  generalize unpack publicKey.bytes = x at htidy hval
  obtain ⟨hfirst, hfirstVal⟩ := htidy.reduceQuick_eq (by rw [hval]; omega)
  have hmod : val (reduceQuick x) % (2 ^ 255 - 19) = val x % (2 ^ 255 - 19) := by
    rw [hfirstVal]
    split_ifs <;> omega
  obtain ⟨hreduced, hresult⟩ := hfirst.reduced_reduceQuick (by
    rw [hfirstVal, hval]
    split_ifs <;> omega)
  refine ⟨hreduced, ?_⟩
  rw [hresult, hmod, Field25519.cast_mod, hval, Int.cast_natCast]

/-- `reduceQuick` leaves the numbers from `2^256 - 19` up to `2^256` alone: they lose bit 255 when 19
is added. -/
theorem Tidy.reduceQuick_of_le {x : Limbs} (h : Tidy x) (hle : 2 * 2 ^ 255 - 19 ≤ val x)
    (hlt : val x < 2 * 2 ^ 255) :
    Tidy (reduceQuick x) ∧ val (Curve25519.reduceQuick x) = val x := by
  obtain ⟨htidy, hval⟩ := h.reduceQuick_eq (by omega)
  have hbit : (val x + 19) / 2 ^ 255 % 2 = 0 := by omega
  rw [if_neg (by omega)] at hval
  exact ⟨htidy, hval⟩

/-- The two trial subtractions bring a public key into the field if and only if it is below
`2^256 - 19`. -/
theorem reduced_publicKey_iff (publicKey : Key) :
    Reduced (reduceQuick (reduceQuick (unpack publicKey.bytes))) ↔
      littleEndian publicKey.bytes < 2 ^ 256 - 19 := by
  constructor
  · intro hreduced
    by_contra hle
    obtain ⟨htidy, hval⟩ := val_unpack publicKey.length_eq
    have hbytes := littleEndian_lt publicKey.bytes
    rw [publicKey.length_eq] at hbytes
    obtain ⟨hfirst, hfirstVal⟩ := htidy.reduceQuick_of_le (by rw [hval]; omega) (by rw [hval]; omega)
    obtain ⟨-, hsecondVal⟩ := hfirst.reduceQuick_of_le (by rw [hfirstVal, hval]; omega)
      (by rw [hfirstVal, hval]; omega)
    have hlt := hreduced.lt
    rw [hsecondVal, hfirstVal, hval] at hlt
    omega
  · intro hlt
    exact (denotes_publicKey hlt).1

/-- Either no public key, or one that the two trial subtractions bring into the field. -/
def InRange : Option Key → Prop
  | some publicKey => littleEndian publicKey.bytes < 2 ^ 256 - 19
  | none => True

/-- `eval` runs the ladder over the bits of the clamped private key. -/
theorem littleEndian_eval (privateKey : Key) {publicKey : Option Key} (h : InRange publicKey) :
    littleEndian (eval privateKey publicKey) = (Montgomery.multiple 121665 (basePublic publicKey)
      (scalarBits privateKey.bytes)).residue := by
  obtain ⟨x_1, hx_1, heval⟩ : ∃ x_1, Denotes x_1 (basePublic publicKey) ∧
      eval privateKey publicKey =
        let state := evalCurve privateKey.bytes x_1 ⟨small 1, List.replicate 10 0, x_1, small 1⟩
        (List.range 32).map (packByte (mul state.x_2 (recip state.z_2))) := by
    cases publicKey with
    | none =>
      refine ⟨small 9, ?_, rfl⟩
      exact denotes_small (m := 9) rfl (by norm_num)
    | some publicKey => exact ⟨_, denotes_publicKey h, rfl⟩
  have hstate := evalCurve_denotes privateKey.length_eq hx_1
  obtain ⟨hreduced, hvalue⟩ := hstate.x_2.mul hstate.z_2.recip
  have hlt := hreduced.lt
  have hnonneg := hreduced.val_nonneg
  rw [heval]
  dsimp only
  rw [hreduced.littleEndian_pack (by omega), Montgomery.multiple, ← hvalue]
  have := Field25519.residue_cast hnonneg hlt
  omega

end Curve25519

/-! ## The curve -/

/-- The points of `y² = x³ + 486662 x² + x`. -/
abbrev Point25519 := (Montgomery.curve (486662 : Field25519)).Point

theorem two_ne_zero_field : (2 : Field25519) ≠ 0 := by
  have := Field25519.cast_ne_zero (n := 2) (by norm_num) (by norm_num [fieldPrime])
  exact_mod_cast this

theorem a_sq_ne_four : (486662 : Field25519) ^ 2 ≠ 4 := by
  have := Field25519.cast_ne_zero (n := 486662 ^ 2 - 4) (by norm_num) (by norm_num [fieldPrime])
  intro h
  apply this
  rw [Nat.cast_sub (by norm_num), Nat.cast_pow, Nat.cast_ofNat, h, Nat.cast_ofNat, sub_self]

theorem four_mul_a24 : 4 * (121665 : Field25519) = 486662 - 2 := by
  norm_num

/-- The y-coordinate of the base point. -/
def baseY : ℕ := 14781619447589544791020593568409986887264606134616475288964881837755586237401

theorem baseY_sq : (baseY : Field25519) ^ 2 = 9 ^ 3 + 486662 * 9 ^ 2 + 9 := by
  have hmod : ((baseY ^ 2 : ℕ) : Field25519) = ((9 ^ 3 + 486662 * 9 ^ 2 + 9 : ℕ) : Field25519) := by
    rw [CharP.natCast_eq_natCast Field25519 fieldPrime, Nat.ModEq]
    norm_num [baseY, fieldPrime]
  push_cast at hmod
  exact hmod

/-- The base point, with x-coordinate 9. -/
def basePoint : Point25519 :=
  .some 9 baseY (Montgomery.nonsingular_of_sq two_ne_zero_field a_sq_ne_four baseY_sq)

namespace Curve25519

/-- Clamping clears the highest bit of the scalar. -/
theorem scalar_lt {s : List UInt8} (hs : s.length = 32) : scalar s < 2 ^ 255 := by
  apply Nat.lt_pow_two_of_testBit
  intro j hj
  have hlength : (clamp s).length = 32 := by rw [length_clamp, hs]
  rw [scalar, testBit_littleEndian]
  rcases Nat.eq_or_lt_of_le hj with rfl | hj
  · rw [getD_clamp hs (by norm_num), if_neg (by norm_num), if_pos (by norm_num), UInt8.toNat_or,
      UInt8.toNat_and, Nat.testBit_or, Nat.testBit_and]
    exact Bool.or_eq_false_iff.mpr ⟨Bool.and_eq_false_imp.mpr fun _ => rfl, rfl⟩
  · rw [List.getD_eq_default _ _ (by rw [hlength]; omega)]
    exact Nat.zero_testBit _

theorem ofBits_scalarBits {s : List UInt8} (hs : s.length = 32) :
    Montgomery.ofBits (scalarBits s) = scalar s := by
  rw [scalarBits, Montgomery.ofBits_testBits, Nat.mod_eq_of_lt (scalar_lt hs)]

/-- `eval` at a public key that is the x-coordinate of a point of the curve. -/
theorem littleEndian_eval_point (privateKey : Key) (publicKey : Option Key) (h : InRange publicKey)
    {P : Point25519} (hP : basePublic publicKey = Montgomery.xCoord P) :
    littleEndian (eval privateKey publicKey) =
      (Montgomery.xCoord (scalar privateKey.bytes • P)).residue := by
  rw [littleEndian_eval privateKey h, hP,
    Montgomery.multiple_eq two_ne_zero_field a_sq_ne_four four_mul_a24,
    ofBits_scalarBits privateKey.length_eq]

end Curve25519

/-! ## Key pairs -/

namespace Key

/-- `generatePrivateKey`, from the bytes of the random number generator. -/
def generatePrivateKey (random : Key) : Key where
  bytes := Curve25519.clamp random.bytes
  length_eq := by
    rw [Curve25519.length_clamp, random.length_eq]

/-- `generatePublicKey`, the public half of a `KeyPair`. -/
def generatePublicKey (privateKey : Key) : Key where
  bytes := Curve25519.eval privateKey none
  length_eq := by
    rw [Curve25519.eval, List.length_map, List.length_range]

/-- A generated public key is the x-coordinate of a multiple of the base point. -/
theorem generatePublicKey_multiple (privateKey : Key) :
    littleEndian privateKey.generatePublicKey.bytes =
      (Montgomery.xCoord (Curve25519.scalar privateKey.bytes • basePoint)).residue :=
  Curve25519.littleEndian_eval_point privateKey none trivial rfl

/-- The scalar of a generated private key is the number of its own bytes. -/
theorem scalar_generatePrivateKey (random : Key) :
    Curve25519.scalar random.generatePrivateKey.bytes =
      littleEndian random.generatePrivateKey.bytes := by
  rw [Curve25519.scalar, generatePrivateKey, Curve25519.clamp_clamp random.length_eq]

theorem basePublic_generatePublicKey (privateKey : Key) :
    Curve25519.InRange (some privateKey.generatePublicKey) ∧
      Curve25519.basePublic (some privateKey.generatePublicKey) =
        Montgomery.xCoord (Curve25519.scalar privateKey.bytes • basePoint) := by
  have hpublic := Curve25519.littleEndian_eval_point privateKey none (P := basePoint) trivial
    rfl
  refine ⟨?_, ?_⟩
  · change littleEndian (Curve25519.eval privateKey none) < _
    rw [hpublic]
    exact (Field25519.residue_lt _).trans (by norm_num [fieldPrime])
  · change ((littleEndian (Curve25519.eval privateKey none) : ℕ) : Field25519) = _
    rw [hpublic, Field25519.cast_residue]

/-- Both sides of an exchange evaluate the curve to the same secret. -/
theorem sharedSecret_comm (a b : Key) :
    Curve25519.eval a (some b.generatePublicKey) = Curve25519.eval b (some a.generatePublicKey) := by
  apply littleEndian_inj
  · rw [Curve25519.eval, Curve25519.eval, List.length_map, List.length_map]
  · rw [Curve25519.littleEndian_eval_point a _ (basePublic_generatePublicKey b).1
        (basePublic_generatePublicKey b).2,
      Curve25519.littleEndian_eval_point b _ (basePublic_generatePublicKey a).1
        (basePublic_generatePublicKey a).2, smul_comm]

end Key

end WgAndroid
