import WgAndroid.Crypto.Key
import WgAndroid.Lib.Radix

/-!
# Curve25519 in Java

`com.wireguard.crypto.Curve25519`: numbers modulo `2^255 - 19` in ten words of 26 bits, and the
evaluation of the curve at a private key. An `int[]` is a list of 32-bit words and a `long[]` one of
64-bit words, in two's complement as in Java. The scratch arrays of the source are written before
they are read, so that its methods are functions of their operands; only `t1[19]` is read and never
written, and stays 0.
-/

namespace WgAndroid.Curve25519

/-- An `int[]` of `NUM_LIMBS_255BIT` or `NUM_LIMBS_510BIT` words. -/
abbrev Limbs := List (BitVec 32)

/-- The loops `carry += x[index]; out[index] = carry & 0x03FFFFFF; carry >>= 26`. -/
def propagate (carry : BitVec 32) : Limbs → Limbs
  | [] => []
  | x :: xs =>
    let carry := carry + x
    (carry &&& 0x03FFFFFF) :: propagate (carry.sshiftRight 26) xs

/-- The digits and the last carry of the loops that narrow a `long` to limbs:
`t2[i] = ((int) v) & 0x03FFFFFF` and `v >> 26`. -/
def narrow (v : BitVec 64) : List (BitVec 64) → Limbs × BitVec 64
  | [] => ([], v)
  | t :: ts =>
    let v := v + t
    let rest := narrow (v.sshiftRight 26) ts
    ((v.setWidth 32 &&& 0x03FFFFFF) :: rest.1, rest.2)

def reduceQuick (x : Limbs) : Limbs :=
  let t2 := propagate 19 x
  let mask := -((t2.getD 9 0).sshiftRight 21 &&& 0x01)
  let nmask := ~~~mask
  let t2 := t2.modify 9 (· &&& 0x001FFFFF)
  List.zipWith (fun x t => (x &&& nmask) ||| (t &&& mask)) x t2

/-- The first two loops of `reduce`, over the high and the low limbs. When the high ones are used up
the carry goes through the rest of the low ones. -/
def fold (limb carry : BitVec 32) : Limbs → Limbs → Limbs
  | h :: high, x :: low =>
    let limb := limb + h <<< 5
    let carry := carry + ((limb &&& 0x03FFFFFF) * 19 + x)
    (carry &&& 0x03FFFFFF) :: fold (limb.sshiftRight 26) (carry.sshiftRight 26) high low
  | _, low => propagate carry low

/-- `reduce`, with `size` limbs above the ten low ones. -/
def reduce (x : Limbs) (size : ℕ) : Limbs :=
  let limb := (x.getD 9 0).sshiftRight 21
  let x := x.modify 9 (· &&& 0x001FFFFF)
  let x := fold limb 0 ((x.drop 10).take size) (x.take 10)
  let carry := (x.getD 9 0).sshiftRight 21 * 19
  let x := x.modify 9 (· &&& 0x001FFFFF)
  reduceQuick (propagate carry x)

/-- The first loop of `add`. -/
def addLimbs (carry : BitVec 32) : Limbs → Limbs → Limbs
  | x :: xs, y :: ys =>
    let carry := carry + x + y
    (carry &&& 0x03FFFFFF) :: addLimbs (carry.sshiftRight 26) xs ys
  | _, _ => []

def add (x y : Limbs) : Limbs :=
  reduceQuick (addLimbs 0 x y)

/-- `(borrow >> 26) & 0x01` -/
def borrowBit (borrow : BitVec 32) : BitVec 32 :=
  borrow.sshiftRight 26 &&& 0x01

/-- The first loop of `sub`, with the borrow that it leaves. -/
def subLimbs (bit : BitVec 32) : Limbs → Limbs → Limbs × BitVec 32
  | x :: xs, y :: ys =>
    let borrow := x - y - bit
    let rest := subLimbs (borrowBit borrow) xs ys
    ((borrow &&& 0x03FFFFFF) :: rest.1, rest.2)
  | _, _ => ([], bit)

/-- The second loop of `sub`: take `amount` away from the lowest limb. -/
def borrowLimbs (amount : BitVec 32) : Limbs → Limbs
  | [] => []
  | x :: xs =>
    let borrow := x - amount
    (borrow &&& 0x03FFFFFF) :: borrowLimbs (borrowBit borrow) xs

def sub (x y : Limbs) : Limbs :=
  let result := subLimbs 0 x y
  (borrowLimbs (-result.2 &&& 19) result.1).modify 9 (· &&& 0x001FFFFF)

def mul (x y : Limbs) : Limbs :=
  let t1 := Radix.product (x.map (·.signExtend 64)) (y.map (·.signExtend 64))
  reduce (narrow 0 (t1 ++ [0])).1 10

def square (x : Limbs) : Limbs :=
  mul x x

def mulA24 (x : Limbs) : Limbs :=
  let t2 := narrow 0 (x.map fun x => 121665 * x.signExtend 64)
  reduce (t2.1 ++ [t2.2.setWidth 32 &&& 0x03FFFFFF]) 1

/-- A turn of the loops of `pow250` on the arrays `A` and `result`: square `A` `n` times, and multiply
`result` by it. -/
def powTurn (n : ℕ) (p : Limbs × Limbs) : Limbs × Limbs :=
  let A := square^[n] p.1
  (A, mul p.2 A)

/-- Raise `x` to the power of `2^250 - 1`. -/
def pow250 (x : Limbs) : Limbs :=
  let A := square^[9] (square x)
  let p := (powTurn 10)^[23] (A, mul A x)
  let A := square p.2
  let p := (powTurn 1)^[8] (A, mul p.2 A)
  p.2

def recip (x : Limbs) : Limbs :=
  let result := pow250 x
  let result := mul (square (square result)) x
  let result := mul (square (square result)) x
  mul (square result) x

/-- `cswap`, for the two arrays. -/
def cswap (select : BitVec 32) (x y : Limbs) : Limbs × Limbs :=
  let select := -select
  (List.zipWith (fun x y => x ^^^ (select &&& (x ^^^ y))) x y,
    List.zipWith (fun x y => y ^^^ (select &&& (x ^^^ y))) x y)

/-- The arrays that a turn of the loop of `evalCurve` carries over to the next one. -/
structure State where
  x_2 : Limbs
  z_2 : Limbs
  x_3 : Limbs
  z_3 : Limbs

/-- The two conditional swaps of a turn. -/
def State.cswap (select : BitVec 32) (s : State) : State :=
  let x := Curve25519.cswap select s.x_2 s.x_3
  let z := Curve25519.cswap select s.z_2 s.z_3
  ⟨x.1, z.1, x.2, z.2⟩

/-- Evaluate the curve for one bit. -/
def State.step (x_1 : Limbs) (s : State) : State :=
  let A := add s.x_2 s.z_2
  let AA := square A
  let B := sub s.x_2 s.z_2
  let BB := square B
  let E := sub AA BB
  let C := add s.x_3 s.z_3
  let D := sub s.x_3 s.z_3
  let DA := mul D A
  let CB := mul C B
  let x_3 := square (add DA CB)
  let z_3 := mul (square (sub DA CB)) x_1
  let x_2 := mul AA BB
  let z_2 := mul (add (mulA24 E) AA) E
  ⟨x_2, z_2, x_3, z_3⟩

/-- The loop of `evalCurve`: the arrays and the pending swap with which it ends. -/
def evalLoop (s : List UInt8) (x_1 : Limbs) (sposn sbit : ℕ) (svalue swap : BitVec 32)
    (state : State) : State × BitVec 32 :=
  let select := svalue.sshiftRight sbit &&& 0x01
  let state := (state.cswap (swap ^^^ select)).step x_1
  match sbit, sposn with
  | sbit + 1, sposn => evalLoop s x_1 sposn sbit svalue select state
  | 0, 0 => (state, select)
  | 0, 1 => evalLoop s x_1 0 7 (Key.int (s.getD 0 0) &&& 0xF8) select state
  | 0, sposn + 2 => evalLoop s x_1 (sposn + 1) 7 (Key.int (s.getD (sposn + 1) 0)) select state
termination_by (sposn, sbit)

def evalCurve (s : List UInt8) (x_1 : Limbs) (state : State) : State :=
  let result := evalLoop s x_1 31 6 (Key.int (s.getD 31 0) ||| 0x40) 0 state
  result.1.cswap result.2

/-- One byte of the public key goes into the 26-bit limbs. -/
def unpackByte (x_1 : Limbs) (index : ℕ) (b : UInt8) : Limbs :=
  let bit := (index * 8) % 26
  let word := (index * 8) / 26
  let value := Key.int b &&& 0xFF
  if bit ≤ 26 - 8 then
    x_1.modify word (· ||| value <<< bit)
  else
    (x_1.modify word fun x => (x ||| value <<< bit) &&& 0x03FFFFFF).modify (word + 1)
      (· ||| value.sshiftRight (26 - bit))

def unpack (publicKey : List UInt8) : Limbs :=
  (List.range 32).foldl (fun x_1 index => unpackByte x_1 index (publicKey.getD index 0))
    (List.replicate 10 0)

/-- One byte of the result. -/
def packByte (x_2 : Limbs) (index : ℕ) : UInt8 :=
  let bit := (index * 8) % 26
  let word := (index * 8) / 26
  if bit ≤ 26 - 8 then
    UInt8.ofBitVec (((x_2.getD word 0).sshiftRight bit).setWidth 8)
  else
    UInt8.ofBitVec (((x_2.getD word 0).sshiftRight bit |||
      (x_2.getD (word + 1) 0) <<< (26 - bit)).setWidth 8)

/-- The limbs of a small number. -/
def small (n : BitVec 32) : Limbs :=
  n :: List.replicate 9 0

/-- The 32 bytes that `eval` writes. -/
def eval (privateKey : Key) (publicKey : Option Key) : List UInt8 :=
  let x_1 := match publicKey with
    | some publicKey => reduceQuick (reduceQuick (unpack publicKey.bytes))
    | none => small 9
  let state := evalCurve privateKey.bytes x_1 ⟨small 1, List.replicate 10 0, x_1, small 1⟩
  let x_2 := mul state.x_2 (recip state.z_2)
  (List.range 32).map (packByte x_2)

end WgAndroid.Curve25519
