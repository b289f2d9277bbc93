import Mathlib.Data.Nat.Digits.Defs
import WgAndroid.Crypto.Key

/-!
# Curve25519 in the native tools

`curve25519-hacl64.h` and `curve25519.c`: numbers modulo `2^255 - 19` in five words of 51 bits, which
may hold more, and the evaluation of the curve. A `u64` is a word of 64 bits and a `u128` one of 128
bits, unsigned; the arrays of the source are lists of five of them, and the two halves of a point's
array are a pair.
-/

namespace WgAndroid.Hacl64

/-- Five `u64`. -/
abbrev Felem := List (BitVec 64)

/-- Five `u128`. -/
abbrev Wide := List (BitVec 128)

/-- `(u128) x * s` -/
def mulWide (x s : BitVec 64) : BitVec 128 :=
  x.setWidth 128 * s.setWidth 128

def u64EqMask (a b : BitVec 64) : BitVec 64 :=
  let x := a ^^^ b
  let minusX := ~~~x + 1
  let xOrMinusX := x ||| minusX
  let xnx := xOrMinusX >>> 63
  xnx - 1

def u64GteMask (a b : BitVec 64) : BitVec 64 :=
  let xXorY := a ^^^ b
  let xSubY := a - b
  let xSubYXorY := xSubY ^^^ b
  let q := xXorY ||| xSubYXorY
  let xXorQ := a ^^^ q
  let xXorQ' := xXorQ >>> 63
  xXorQ' - 1

def moduloCarryTop : Felem → Felem
  | [b0, b1, b2, b3, b4] =>
    [b0 + 19 * (b4 >>> 51), b1, b2, b3, b4 &&& 0x7ffffffffffff]
  | b => b

def fproductSumScalarMultiplication (output : Wide) (input : Felem) (s : BitVec 64) : Wide :=
  List.zipWith (fun o x => o + mulWide x s) output input

/-- A run of carries of 51 bits that leaves the last word whole. -/
def carryRun {w : ℕ} (low : BitVec w → BitVec w) (carry : BitVec w) : List (BitVec w) → List (BitVec w)
  | [] => []
  | [t] => [t + carry]
  | t :: ts => low (t + carry) :: carryRun low ((t + carry) >>> 51) ts

def fproductCarryWide (tmp : Wide) : Wide :=
  carryRun (fun t => (t.setWidth 64 &&& 0x7ffffffffffff).setWidth 128) 0 tmp

def fmulShiftReduce : Felem → Felem
  | [o0, o1, o2, o3, o4] => [19 * o4, o0, o1, o2, o3]
  | output => output

/-- `fmul_mul_shift_reduce_`: the last word of `input21` is multiplied without a shift after it. -/
def fmulMulShiftReduce (output : Wide) (input : Felem) : Felem → Wide
  | [] => output
  | [s] => fproductSumScalarMultiplication output input s
  | s :: input21 =>
    fmulMulShiftReduce (fproductSumScalarMultiplication output input s) (fmulShiftReduce input)
      input21

/-- The end that `fmul_fmul`, `fsquare_fsquare_` and `fscalar` share: carry, fold the bits above the
highest word, and copy to words of 64 bits. -/
def foldWide (t : Wide) : Felem :=
  match fproductCarryWide t with
  | [b0, t1, t2, t3, b4] =>
    [(b0 + 19 * ((b4 >>> 51).setWidth 64).setWidth 128).setWidth 64, t1.setWidth 64, t2.setWidth 64,
      t3.setWidth 64, (b4 &&& 0x7ffffffffffff).setWidth 64]
  | t => t.map (·.setWidth 64)

/-- The carry out of the first word at the end of `fmul_fmul` and `fsquare_fsquare_`. -/
def carryFirst : Felem → Felem
  | i0 :: i1 :: rest => (i0 &&& 0x7ffffffffffff) :: (i1 + i0 >>> 51) :: rest
  | output => output

def fmul (input input21 : Felem) : Felem :=
  carryFirst (foldWide (fmulMulShiftReduce (List.replicate 5 0) input input21))

/-- `fsquare_fsquare__` -/
def squareWide : Felem → Wide
  | [r0, r1, r2, r3, r4] =>
    let d0 := r0 * 2
    let d1 := r1 * 2
    let d2 := r2 * 2 * 19
    let d419 := r4 * 19
    let d4 := d419 * 2
    [mulWide r0 r0 + mulWide d4 r1 + mulWide d2 r3,
      mulWide d0 r1 + mulWide d4 r2 + mulWide (r3 * 19) r3,
      mulWide d0 r2 + mulWide r1 r1 + mulWide d4 r3,
      mulWide d0 r3 + mulWide d1 r2 + mulWide r4 d419,
      mulWide d0 r4 + mulWide d1 r3 + mulWide r2 r2]
  | _ => []

/-- `fsquare_fsquare_` -/
def fsquare (output : Felem) : Felem :=
  carryFirst (foldWide (squareWide output))

/-- `fsquare_fsquare_times`: the first squaring is outside the loop over the others. -/
def fsquareTimes (input : Felem) (count1 : ℕ) : Felem :=
  fsquare^[count1 - 1] (fsquare input)

def crecip (z : Felem) : Felem :=
  let a0 := fsquareTimes z 1
  let t00 := fsquareTimes a0 2
  let b0 := fmul t00 z
  let a0 := fmul b0 a0
  let t00 := fsquareTimes a0 1
  let b0 := fmul t00 b0
  let t00 := fsquareTimes b0 5
  let b1 := fmul t00 b0
  let t01 := fsquareTimes b1 10
  let c0 := fmul t01 b1
  let t01 := fsquareTimes c0 20
  let t01 := fmul t01 c0
  let t01 := fsquareTimes t01 10
  let b1 := fmul t01 b1
  let t01 := fsquareTimes b1 50
  let c := fmul t01 b1
  let t0 := fsquareTimes c 100
  let t0 := fmul t0 c
  let t0 := fsquareTimes t0 50
  let t0 := fmul t0 b1
  let t0 := fsquareTimes t0 5
  fmul t0 a0

def fsum (a b : Felem) : Felem :=
  List.zipWith (· + ·) a b

/-- `fdifference`, which leaves `b - a` in `a`: eight times the prime is added to `b` first. -/
def fdifference (a b : Felem) : Felem :=
  let tmp := List.zipWith (· + ·) b [0x3fffffffffff68, 0x3ffffffffffff8, 0x3ffffffffffff8,
    0x3ffffffffffff8, 0x3ffffffffffff8]
  List.zipWith (fun xi yi => yi - xi) a tmp

def fscalar (b : Felem) (s : BitVec 64) : Felem :=
  foldWide (b.map (mulWide · s))

/-- A point's array: its first five words and the others. -/
structure Point where
  x : Felem
  z : Felem

def pointSwapConditional5 (a b : Felem) (swap1 : BitVec 64) : Felem × Felem :=
  (List.zipWith (fun ai bi => ai ^^^ (swap1 &&& (ai ^^^ bi))) a b,
    List.zipWith (fun ai bi => bi ^^^ (swap1 &&& (ai ^^^ bi))) a b)

def pointSwapConditional (a b : Point) (iswap : BitVec 64) : Point × Point :=
  let swap1 := 0 - iswap
  let x := pointSwapConditional5 a.x b.x swap1
  let z := pointSwapConditional5 a.z b.z swap1
  (⟨x.1, z.1⟩, ⟨x.2, z.2⟩)

/-- `addanddouble_fmonty`: the new `pp` and `ppq`. -/
def addanddoubleFmonty (p pq : Point) (qx : Felem) : Point × Point :=
  let origx := p.x
  let x := fsum p.x p.z
  let z := fdifference p.z origx
  let origxprime := pq.x
  let xprime := fsum pq.x pq.z
  let zprime := fdifference pq.z origxprime
  let xxprime := fmul xprime z
  let zzprime := fmul x zprime
  let origxprime := xxprime
  let xxprime := fsum xxprime zzprime
  let zzprime := fdifference zzprime origxprime
  let x3 := fsquareTimes xxprime 1
  let zzzprime := fsquareTimes zzprime 1
  let z3 := fmul zzzprime qx
  let xx := fsquareTimes x 1
  let zz := fsquareTimes z 1
  let x2 := fmul xx zz
  let zz := fdifference zz xx
  let zzz := fscalar zz 121665
  let zzz := fsum zzz xx
  let z2 := fmul zzz zz
  (⟨x2, z2⟩, ⟨x3, z3⟩)

/-- `ladder_smallloop_cmult_small_loop_step`, for the highest bit of `byt`. -/
def smallLoopStep (q : Felem) (nq : Point × Point) (byt : BitVec 8) : Point × Point :=
  let bit := (byt >>> 7).setWidth 64
  let nq := pointSwapConditional nq.1 nq.2 bit
  let nq2 := addanddoubleFmonty nq.1 nq.2 q
  pointSwapConditional nq2.1 nq2.2 bit

/-- `ladder_smallloop_cmult_small_loop`: two bits a turn. -/
def smallLoop (q : Felem) (nq : Point × Point) (byt : BitVec 8) : ℕ → Point × Point
  | 0 => nq
  | i + 1 =>
    let nq := smallLoopStep q nq byt
    let nq := smallLoopStep q nq (byt <<< 1)
    smallLoop q nq (byt <<< 2) i

/-- `ladder_bigloop_cmult_big_loop`: the bytes of the scalar from the highest one. -/
def bigLoop (n1 : List UInt8) (q : Felem) (nq : Point × Point) (i : ℕ) : Point × Point :=
  (List.range i).reverse.foldl (fun nq i => smallLoop q nq (n1.getD i 0).toBitVec 4) nq

def ladderCmult (n1 : List UInt8) (q : Point) : Point :=
  (bigLoop n1 q.x (⟨1 :: List.replicate 4 0, List.replicate 5 0⟩, q) 32).1

/-- `get_unaligned_le64` at a position of the bytes. -/
def getUnalignedLe64 (input : List UInt8) (position : ℕ) : BitVec 64 :=
  BitVec.ofNat 64 (Nat.ofDigits 256 (((input.drop position).take 8).map UInt8.toNat))

def formatFexpand (input : List UInt8) : Felem :=
  [getUnalignedLe64 input 0 &&& 0x7ffffffffffff,
    getUnalignedLe64 input 6 >>> 3 &&& 0x7ffffffffffff,
    getUnalignedLe64 input 12 >>> 6 &&& 0x7ffffffffffff,
    getUnalignedLe64 input 19 >>> 1 &&& 0x7ffffffffffff,
    getUnalignedLe64 input 24 >>> 12 &&& 0x7ffffffffffff]

def formatFcontractFirstCarryPass (input : Felem) : Felem :=
  carryRun (· &&& 0x7ffffffffffff) 0 input

def formatFcontractFirstCarryFull (input : Felem) : Felem :=
  moduloCarryTop (formatFcontractFirstCarryPass input)

def formatFcontractSecondCarryPass (input : Felem) : Felem :=
  carryRun (· &&& 0x7ffffffffffff) 0 input

def formatFcontractSecondCarryFull (input : Felem) : Felem :=
  carryFirst (moduloCarryTop (formatFcontractSecondCarryPass input))

def formatFcontractTrim : Felem → Felem
  | [a0, a1, a2, a3, a4] =>
    let mask0 := u64GteMask a0 0x7ffffffffffed
    let mask1 := u64EqMask a1 0x7ffffffffffff
    let mask2 := u64EqMask a2 0x7ffffffffffff
    let mask3 := u64EqMask a3 0x7ffffffffffff
    let mask4 := u64EqMask a4 0x7ffffffffffff
    let mask := mask0 &&& mask1 &&& mask2 &&& mask3 &&& mask4
    [a0 - (0x7ffffffffffed &&& mask), a1 - (0x7ffffffffffff &&& mask),
      a2 - (0x7ffffffffffff &&& mask), a3 - (0x7ffffffffffff &&& mask),
      a4 - (0x7ffffffffffff &&& mask)]
  | input => input

/-- `put_unaligned_le64` -/
def putUnalignedLe64 (s : BitVec 64) : List UInt8 :=
  (List.range 8).map fun i => UInt8.ofBitVec ((s >>> (8 * i)).setWidth 8)

def formatFcontractStore : Felem → List UInt8
  | [t0, t1, t2, t3, t4] =>
    putUnalignedLe64 (t1 <<< 51 ||| t0) ++ putUnalignedLe64 (t2 <<< 38 ||| t1 >>> 13) ++
      putUnalignedLe64 (t3 <<< 25 ||| t2 >>> 26) ++ putUnalignedLe64 (t4 <<< 12 ||| t3 >>> 39)
  | _ => []

def formatFcontract (input : Felem) : List UInt8 :=
  formatFcontractStore (formatFcontractTrim (formatFcontractSecondCarryFull
    (formatFcontractFirstCarryFull input)))

def formatScalarOfPoint (point : Point) : List UInt8 :=
  formatFcontract (fmul point.x (crecip point.z))

def curve25519ClampSecret (secret : List UInt8) : List UInt8 :=
  (secret.modify 0 (· &&& 248)).modify 31 fun b => b &&& 127 ||| 64

/-- `curve25519_generic`, which is `curve25519` where the compiler has 128-bit integers. -/
def curve25519 (secret basepoint : List UInt8) : List UInt8 :=
  let q : Point := ⟨formatFexpand basepoint, 1 :: List.replicate 4 0⟩
  formatScalarOfPoint (ladderCmult (curve25519ClampSecret secret) q)

def curve25519GeneratePublic (secret : List UInt8) : List UInt8 :=
  curve25519 secret (9 :: List.replicate 31 0)

end WgAndroid.Hacl64
