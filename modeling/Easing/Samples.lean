import Easing.Number.Scalar

/-! # Numbers at positions

The parameters of a transform, the break points of a random curve and the
samples of a table stand at the positions 0, 1, 2, … of an array. They are read
at a position, or between two neighbouring ones as if joined by a straight line.
-/

namespace Easing.Samples

variable {α : Type}

/-- The number at a position, which has to be one that the array has. Negative
positions count back from the end: the last number is also at -1. -/
def get (samples : Array α) (position : Int) : Except EvalFault α :=
  match if position < 0 then position + samples.size else position with
  | .ofNat i => if h : i < samples.size then .ok samples[i] else .error .positionOutOfRange
  | .negSucc _ => .error .positionOutOfRange

/-- A position below the size holds a number. -/
theorem get_natCast {samples : Array α} {i : Nat} (h : i < samples.size) :
    get samples i = .ok samples[i] := by
  have hi : ¬ ((i : Int) < 0) := by omega
  simp only [get, hi, ↓reduceIte]
  exact dif_pos h

variable [Scalar α]

/-- The value on the line through the numbers at a position and the next one,
as far along as the given number says. -/
def line (samples : Array α) (position : Int) (along : α) : Except EvalFault α := do
  let left ← get samples position
  let right ← get samples (position + 1)
  return left + (along - (position : α)) * (right - left)

end Easing.Samples
