import Easing.Mapping.Basic

/-! # Reports about a mapping

A mapping can be tabulated over its input range, compared with its target at
the tabulated points, and run repeatedly to see what it costs.
-/

namespace Easing

variable {α : Type} [Scalar α]

/-- So many points at equal distances from a start to a stop. The last point of
several is the stop itself. -/
def points (start stop : α) : Nat → List α
  | 0 => []
  | 1 => [0 * (stop - start) + start]
  | steps + 1 =>
    let length := stop - start
    let step := length / (steps : α)
    let point (k : Nat) : α :=
      if step == 0 then (k : α) / (steps : α) * length + start else (k : α) * step + start
    (List.range steps).map point ++ [stop]

/-- The points from a start to a stop, one more than the number of steps between
them, if they can be held. -/
def grid (start stop : α) (steps : Int) : Except (Fault α) (List α) :=
  match steps + 1 with
  | .negSucc n => .error (.negativePointCount (.negSucc n))
  | .ofNat count =>
    match Capacity.gridFault? count with
    | some cause => .error (.capacity cause)
    | none => .ok (points start stop count)

/-- The values of a mapping and its target at points of the input range. -/
structure Tabulation (α : Type) where
  inputs : List α
  outputs : List α
  targets : Option (List α)

/-- How far a mapping is from its target. -/
structure Deviation (α : Type) where
  /-- The average distance, in widths of the output range. -/
  average : α
  /-- The greatest distance, in widths of the output range. -/
  maximum : α
  /-- The number of steps between the points of comparison. -/
  samples : Int
  available : Bool

/-- The remark on a deviation without a target. -/
def Deviation.remark (d : Deviation α) : Option String :=
  if d.available then none else some describeNoTarget

def Deviation.text [Numeral α] (d : Deviation α) : String :=
  if d.available then describeDeviation d.average d.maximum else describeNoTarget

namespace Average

/-- Adds numbers block by block, eight running sums at a time, and the numbers
that do not fill a block at the end. -/
def blockwise (xs : List α) : α :=
  let blocks := xs.length / 8
  let sums := (List.range blocks).tail.foldl
    (fun sums block => List.zipWith (· + ·) sums ((xs.drop (8 * block)).take 8)) (xs.take 8)
  match sums with
  | [a, b, c, d, e, f, g, h] =>
    (xs.drop (8 * blocks)).foldl (· + ·) (((a + b) + (c + d)) + ((e + f) + (g + h)))
  | _ => Scalar.sum xs

/-- Adds numbers with little loss of precision: long lists are halved, at a
multiple of eight, and the sums of the halves added. -/
def pairwise (xs : List α) : α :=
  if xs.length < 8 then Scalar.sum xs
  else if xs.length ≤ 128 then blockwise xs
  else
    let half := xs.length / 2 / 8 * 8
    pairwise (xs.take half) + pairwise (xs.drop half)
termination_by xs.length
decreasing_by
  · simp only [List.length_take]; omega
  · simp only [List.length_drop]; omega

/-- The average of the numbers in a list that are defined. -/
def mean (xs : List α) : α :=
  let count := xs.countP fun x => !Scalar.isNaN x
  pairwise (xs.map fun x => if Scalar.isNaN x then 0 else x) / (count : α)

/-- The greatest of the numbers in a list that are defined. -/
def greatest (xs : List α) : α :=
  match xs.filter fun x => !Scalar.isNaN x with
  | [] => 0 / 0
  | x :: rest => rest.foldl Scalar.larger x

end Average

namespace Mapping

/-- The values at some points of the input range, those of the mapping first. -/
def tabulateAt (m : Mapping α) (inputs : List α) : Outcome α (Tabulation α) := do
  let outputs ← inputs.mapM m.eval
  let targets ←
    match m.target? with
    | none => pure none
    | some target => some <$> inputs.mapM target.eval
  return ⟨inputs, outputs, targets⟩

/-- The values at points across the input range, if those can be held. -/
def tabulate (m : Mapping α) (samples : Int) : Outcome α (Tabulation α) := do
  m.tabulateAt (← .ofResult (grid m.head.input.start m.head.input.stop samples))

/-- The distances between two lists of values in widths of the output range. -/
def distances (m : Mapping α) (outputs targets : List α) : List α :=
  List.zipWith (fun y z => Scalar.abs (z - y) / Scalar.abs m.head.output.span) outputs targets

/-- How far the mapping is from its target at some points of the input range. -/
def deviationAt (m : Mapping α) (inputs : List α) : Outcome α (Deviation α) := do
  let table ← m.tabulateAt inputs
  let distances := m.distances table.outputs (table.targets.getD [])
  let report : Deviation α :=
    ⟨Average.mean distances, Average.greatest distances, (inputs.length : Int) - 1, true⟩
  .notify (.deviation report.samples report.average report.maximum)
  return report

/-- How far the mapping is from its target at points across the input range, if
those can be held. -/
def deviation (m : Mapping α) (samples : Int) : Outcome α (Deviation α) :=
  match m.target? with
  | none => do
    .notify .noTarget
    return ⟨0 / 0, 0 / 0, samples, false⟩
  | some _ => do
    m.deviationAt (← .ofResult (grid m.head.input.start m.head.input.stop samples))

/-- Runs an operation a number of times for its notices. -/
def rerun {β : Type} (operation : Outcome α β) : Nat → Outcome α Unit
  | 0 => pure ()
  | times + 1 => do
    let _ ← operation
    rerun operation times

/-- Maps the middle of the input range by the mapping and then by its target,
one time more often than asked for. The answer is whether there is a target. -/
def exercise (m : Mapping α) (iterations : Int) : Outcome α Bool := do
  let middle := m.head.input.midpoint
  rerun (m.eval middle) (iterations + 1).toNat
  match m.target? with
  | none => return false
  | some target => do
    rerun (target.eval middle) (iterations + 1).toNat
    return true

end Mapping

end Easing
