import Easing.Number.Fault

/-! # The numbers that curves compute with

Every curve, range and table is written once, over a type of numbers. Doubles
are one such type; an ordered field with a floor is another, and laws that hold
only in exact arithmetic are stated there. The class asks for the operations
alone and for none of their laws, because doubles satisfy few of them.
-/

namespace Easing

/-- Numbers with the operations that curves use. Division by `/` never faults;
`Scalar.divide` is the one that refuses a zero divisor. -/
class Scalar (α : Type) extends Zero α, One α, NatCast α, IntCast α,
    Add α, Sub α, Mul α, Div α, Neg α, LT α, LE α, BEq α where
  decideLT (x y : α) : Decidable (x < y)
  decideLE (x y : α) : Decidable (x ≤ y)
  /-- The magnitude; the magnitude of a zero is the positive zero. -/
  abs : α → α
  isFinite : α → Bool
  /-- Half the length of the unit circle. -/
  pi : α
  /-- The integer part, rounded towards zero. -/
  truncate : α → Except EvalFault Int
  sin : α → Except EvalFault α
  cos : α → Except EvalFault α
  pow : α → α → Except EvalFault α

-- Where a type has arithmetic of its own, that arithmetic is found first.
attribute [instance (50)] Scalar.toZero Scalar.toOne Scalar.toNatCast Scalar.toIntCast
  Scalar.toAdd Scalar.toSub Scalar.toMul Scalar.toDiv Scalar.toNeg Scalar.toLT Scalar.toLE
  Scalar.toBEq

namespace Scalar

variable {α : Type} [Scalar α]

instance (priority := 50) instDecidableLT (x y : α) : Decidable (x < y) := decideLT x y

instance (priority := 50) instDecidableLE (x y : α) : Decidable (x ≤ y) := decideLE x y

def two : α := ((2 : Nat) : α)

def half : α := 1 / two

/-- The quotient, which exists unless the divisor is zero. -/
def divide (x y : α) : Except EvalFault α :=
  if y == 0 then .error .divisionByZero else .ok (x / y)

/-- The first of two numbers unless the second is below it. -/
def smaller (x y : α) : α := if y < x then y else x

/-- The first of two numbers unless the second is above it. -/
def larger (x y : α) : α := if x < y then y else x

/-- Whether a number is undefined: only such a number differs from itself. -/
def isNaN (x : α) : Bool := !(x == x)

/-- The sum from left to right, starting from zero. -/
def sum (xs : List α) : α := xs.foldl (· + ·) 0

/-- The part of a number behind the point, counted upwards from the integer
below, so never negative. It is undefined where there is no integer part. -/
def fract (x : α) : α :=
  match truncate x with
  | .error _ => x - x
  | .ok n =>
    let rest := x - (n : α)
    if rest == 0 then 0 else if rest < 0 then rest + 1 else rest

/-- The least integer that is not below a number. -/
def ceiling (x : α) : Except EvalFault Int := do
  let n ← truncate x
  return if (n : α) < x then n + 1 else n

/-- The nearest number between zero and one. -/
def clampUnit (x : α) : α := smaller (larger x 0) 1

end Scalar

end Easing
