import Easing.Build
import Easing.Transform.Eval

/-! # From arguments to parameters

The arguments of a step are checked against the rule of its transform and then
resolved into the parameters that it computes with. Only the random transforms
draw anything: their argument is a count, and their parameters are that many
random heights and the padding that evaluation needs.
-/

namespace Easing.Transform

variable {α : Type} [Scalar α]

/-- The most break points that a random transform may be given. -/
def maxBreakPoints : Nat := 10000

/-- The argument that a transform does not accept, if there is one. Arguments
beyond those that the rule is about do not matter, and it is a fault if one of
those is missing. -/
def rejected? : Transform → List α → Except EvalFault (Option α)
  | exp, e :: _ | outward, e :: _ | inward, e :: _ => return if e == 0 then some e else none
  | peak, p :: _ | triangle, p :: _ => return if 0 < p ∧ p < 1 then none else some p
  | narrow, low :: high :: _ => return if low == high then some high else none
  | random, count :: _ | squareRandom, count :: _ =>
    return if Scalar.isFinite count ∧ 1 ≤ count ∧ count ≤ (maxBreakPoints : α) then none
      else some count
  | cycle, count :: _ => return if count == 1 then some count else none
  | exp, _ | outward, _ | inward, _ | peak, _ | triangle, _ | narrow, _ | random, _
  | squareRandom, _ | cycle, _ => .error .positionOutOfRange
  | _, _ => return none

/-- The break points of straight segments: one for either end of each segment,
and a spare one. -/
def segmentPoints (count : Nat) : Build α (Array α) := do
  return (← Build.draw (Generator.units (count + 2))).toArray

/-- The heights of plateaus; the right end has the height of the last one. -/
def plateauPoints (count : Nat) : Build α (Array α) := do
  let heights ← Build.draw (Generator.units count)
  return (heights ++ heights.getLast?.toList).toArray

/-- The parameters for accepted arguments. -/
def resolveAccepted : Transform → List α → Build α (Array α)
  | inward, e :: rest => return (-e :: rest).toArray
  | random, count :: _ => do
    segmentPoints (← Build.ofOutcome (.ofEval (Scalar.truncate count))).toNat
  | squareRandom, count :: _ => do
    plateauPoints (← Build.ofOutcome (.ofEval (Scalar.truncate count))).toNat
  | _, arguments => return arguments.toArray

/-- The parameters for given arguments, if the transform accepts them. -/
def resolve (t : Transform) (arguments : List α) : Build α (Array α) := do
  match ← Build.ofOutcome (.ofEval (rejected? t arguments)) with
  | some value => Build.fault (.argumentRejected value t)
  | none => resolveAccepted t arguments

end Easing.Transform
