import Easing.Capacity
import Easing.Notice

/-! # Faults

Why an operation has no result. A fault keeps the values it is about; its
wording is made here and nowhere else.
-/

namespace Easing

/-- The reasons for which an operation has no result. -/
inductive Fault (α : Type) where
  /-- A number could not be computed. -/
  | evaluation (cause : EvalFault)
  | unknownTransform (name : String)
  | argumentNotNumber (token : String) (transform : Transform)
  | argumentRejected (value : α) (transform : Transform)
  | noStep
  | weightNotLast (chain : String)
  | noChain
  | weightsSumToZero (definition : String)
  | boundsNotFinite (start stop : α)
  | boundsEqual (start stop : α)
  | exceeded (value start stop : α)
  | resolutionNotPositive (resolution : Int)
  | negativePointCount (count : Int)
  | capacity (cause : CapacityFault)
  /-- There is no mapping of this name with so many targets behind it. -/
  | noSuchMapping (name : String) (depth : Nat)
deriving DecidableEq, Repr

namespace Fault

variable {α : Type} [Numeral α]

/-- The two bounds of a range in parentheses. -/
def pair (start stop : α) : String :=
  "(" ++ Numeral.text start ++ ", " ++ Numeral.text stop ++ ")"

def message : Fault α → String
  | evaluation cause => cause.message
  | unknownTransform name => "'" ++ name ++ "' is not a valid operation for a map."
  | argumentNotNumber token transform =>
    "Parameter '" ++ token ++ "' for step '" ++ transform.name
      ++ "' could not be converted into a float value."
  | argumentRejected value transform =>
    "Wrong parameter '" ++ Numeral.text value ++ "' for step '" ++ transform.name ++ "'."
  | noStep => "A chain needs at least one step"
  | weightNotLast chain => "Weight must be the last step of a chain: '" ++ chain ++ "'"
  | noChain => "An expression needs at least one chain"
  | weightsSumToZero definition => "Chain weights of '" ++ definition ++ "' sum to zero"
  | boundsNotFinite start stop => "Range bounds must be finite, got " ++ pair start stop
  | boundsEqual start stop => "Range start and end must differ, got " ++ pair start stop
  | exceeded value start stop => describeOutside value start stop
  | resolutionNotPositive resolution =>
    "Approximation resolution must be positive, got " ++ toString resolution
  | negativePointCount count =>
    "Number of samples, " ++ toString count ++ ", must be non-negative."
  | capacity cause => cause.message
  | noSuchMapping name depth =>
    "There is no mapping '" ++ name ++ "' with " ++ toString depth ++ " targets"

end Fault

end Easing
