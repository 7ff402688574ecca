import Easing.Samples
import Easing.Transform.Basic

/-! # Values of transforms

A transform computes with parameters, which need not be the arguments that a
step was written with: an inward bend is an outward one with the negated
exponent, and the random transforms compute with break points drawn for them.
Evaluation is defined for all numbers, inside the unit interval or not, and for
all parameters, accepted by a step or not. Parameters are read by position when
the value depends on them: reading one that is missing is a fault, and those
beyond the last one that is read do not matter.
-/

namespace Easing.Transform

variable {α : Type} [Scalar α]

open Scalar (divide half two)

/-- A power of the magnitude. A negative exponent reflects number and value in
the centre of the unit interval. -/
def power (e x : α) : Except EvalFault α := do
  let x := if e < 0 then 1 - x else x
  let y ← if e == 1 then pure x else Scalar.pow (Scalar.abs x) (Scalar.abs e)
  return if e < 0 then 1 - y else y

/-- A power of the distance from the centre, which is moved to zero and back. -/
def bent (e x : α) : Except EvalFault α := do
  let x := x * two - 1
  let y ← power e (Scalar.abs x)
  let y := if x < 0 then -y else y
  return (y + 1) / two

/-- Slopes of equal steepness on either side of a peak; the longer one ends at
zero. -/
def peaked (p x : α) : Except EvalFault α := do
  if p < half then return 1 - (← divide (Scalar.abs (x - p)) (1 - p))
  else return 1 - (← divide (Scalar.abs (p - x)) p)

/-- Slopes from the ends of the unit interval to a peak. -/
def pointed (p x : α) : Except EvalFault α := if x < p then divide x p else divide (1 - x) (1 - p)

/-- Twice the distance of a multiple from the nearest integer. -/
def reflected (count x : α) : α :=
  let y := Scalar.fract (x * count)
  if y < half then two * y else (1 - y) * two

/-- Straight lines between evenly spaced points, of which the last is spare. -/
def segments (points : Array α) (x : α) : Except EvalFault α := do
  let along := Scalar.clampUnit x * (((points.size : Int) - 2 : Int) : α)
  Samples.line points (← Scalar.truncate along) along

/-- Evenly spaced plateaus, of which the last is used at the right end alone. -/
def plateaus (points : Array α) (x : α) : Except EvalFault α := do
  let along := Scalar.clampUnit x * (((points.size : Int) - 1 : Int) : α)
  Samples.get points (← Scalar.truncate along)

def eval (t : Transform) (parameters : Array α) (x : α) : Except EvalFault α :=
  match t with
  | identity => return x
  | invert => return 1 - x
  | constant => Samples.get parameters 0
  | narrow => do
    let low ← Samples.get parameters 0
    if x < low then return 0
    else
      let high ← Samples.get parameters 1
      if high < x then return 1 else divide (x - low) (high - low)
  | exp => do power (← Samples.get parameters 0) x
  | outward | inward => do bent (← Samples.get parameters 0) x
  | peak => do peaked (← Samples.get parameters 0) x
  | triangle => do pointed (← Samples.get parameters 0) x
  | trapez => do
    let low ← Samples.get parameters 0
    if x < low then if low == 0 then return 0 else divide x low
    else
      let high ← Samples.get parameters 1
      if high < x then if high == 1 then return 0 else divide (1 - x) (1 - high)
      else return 1
  | sin => Scalar.sin (Scalar.pi * x)
  | fullSin => return half + (← Scalar.sin (two * Scalar.pi * x)) / two
  | cos => return half + (← Scalar.cos (Scalar.pi * x)) / two
  | fullCos => return half + (← Scalar.cos (two * Scalar.pi * x)) / two
  | random => segments parameters x
  | squareRandom => plateaus parameters x
  | cycle => return Scalar.fract (x * (← Samples.get parameters 0))
  | mirror => return reflected (← Samples.get parameters 0) x
  | weight => return x * (← Samples.get parameters 0)

end Easing.Transform
