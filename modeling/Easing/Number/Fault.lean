/-! # Why a number has no value

Arithmetic on finite and infinite numbers always answers, except in the cases
listed here. Reading a number at a position that an array does not have is
listed with them, so that it is observable rather than silently given a default.
-/

namespace Easing

/-- The reasons for which evaluating a curve or a range gives no number. -/
inductive EvalFault where
  /-- A divisor was zero, of either sign. -/
  | divisionByZero
  /-- A power of finite operands is beyond the largest finite number. -/
  | powerTooLarge
  | infiniteAngle
  | integerOfNaN
  | integerOfInfinity
  | positionOutOfRange
deriving DecidableEq, Repr

def EvalFault.message : EvalFault → String
  | .divisionByZero => "float division by zero"
  | .powerTooLarge => "(34, 'Numerical result out of range')"
  | .infiniteAngle => "math domain error"
  | .integerOfNaN => "cannot convert float NaN to integer"
  | .integerOfInfinity => "cannot convert float infinity to integer"
  | .positionOutOfRange => "tuple index out of range"

end Easing
