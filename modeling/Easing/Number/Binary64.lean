import Easing.Number.Scalar

/-! # Doubles

A double is read once into its sign, an integer significand and a power of two;
integer parts are then exact integer arithmetic. The last section makes doubles
an instance of the numbers that curves compute with.
-/

namespace Easing

/-- What the 64 bits of a double stand for. -/
inductive Binary64 where
  | nan
  | infinite (negative : Bool)
  /-- The number `significand * 2 ^ exponent`, negated if so marked. -/
  | finite (negative : Bool) (significand : Nat) (exponent : Int)
deriving DecidableEq, Repr

namespace Binary64

/-- The leading bit of a normal significand, which is not stored: `2 ^ 52`. -/
def hiddenBit : Nat := 0x10000000000000

/-- The least natural number that is too large for a double. It lies halfway
between the greatest double and the power of two above it, `2 ^ 1024`, and a half
is rounded to the even neighbour, which is that power. -/
def tooLarge : Nat := 1 <<< 1024 - 1 <<< 970

/-- Reads the sign bit, the eleven exponent bits and the 52 fraction bits. -/
def ofBits (bits : UInt64) : Binary64 :=
  let negative := bits.toNat >>> 63 == 1
  let biased : Nat := (bits.toNat >>> 52) % 2048
  let fraction : Nat := bits.toNat % hiddenBit
  if biased = 2047 then
    if fraction = 0 then .infinite negative else .nan
  else if biased = 0 then .finite negative fraction (-1074)
  else .finite negative (hiddenBit + fraction) (biased - 1075)

/-- What a double stands for. -/
def ofFloat (x : Float) : Binary64 := ofBits x.toBits

/-- The integer part, rounded towards zero. -/
def truncate : Binary64 → Except EvalFault Int
  | .nan => .error .integerOfNaN
  | .infinite _ => .error .integerOfInfinity
  | .finite negative significand exponent =>
    let magnitude : Nat := significand <<< exponent.toNat >>> (-exponent).toNat
    .ok (if negative then -(magnitude : Int) else magnitude)

/-- Whether it is neither an infinity nor undefined. -/
def isFinite : Binary64 → Bool
  | .finite .. => true
  | _ => false

def isInfinite : Binary64 → Bool
  | .infinite _ => true
  | _ => false

end Binary64

namespace Float64

/-- The sine or cosine of a double, which an infinite angle does not have. -/
def angular (f : Float → Float) (x : Float) : Except EvalFault Float :=
  if (Binary64.ofFloat x).isInfinite then .error .infiniteAngle else .ok (f x)

/-- A power of doubles. A finite negative power of zero is a division, and any other
infinite power of finite operands is too large. -/
def pow (x y : Float) : Except EvalFault Float :=
  let power := Float.pow x y
  if (Binary64.ofFloat power).isInfinite && (Binary64.ofFloat x).isFinite
      && (Binary64.ofFloat y).isFinite then
    if x == 0 && y < 0 then .error .divisionByZero else .error .powerTooLarge
  else .ok power

/-- The double next to the length of half the unit circle. -/
def pi : Float := Float.ofBits 0x400921FB54442D18

end Float64

instance : Scalar Float where
  zero := 0.0
  one := 1.0
  natCast := Float.ofNat
  intCast := Float.ofInt
  decideLT := Float.decLt
  decideLE := Float.decLe
  abs := Float.abs
  isFinite x := (Binary64.ofFloat x).isFinite
  pi := Float64.pi
  truncate x := (Binary64.ofFloat x).truncate
  sin := Float64.angular Float.sin
  cos := Float64.angular Float.cos
  pow := Float64.pow

end Easing
