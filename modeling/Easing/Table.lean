import Easing.Range.Basic
import Easing.Samples

/-! # Lookup tables

A table holds the samples of a function at evenly spaced places of the unit
interval, in the units of an output range, and one more copy of the last sample
so that the place one can be looked up like any other. Lookups follow the
straight line between neighbouring samples.
-/

namespace Easing

/-- The samples of a function. -/
structure Table (α : Type) where
  /-- The number of cells between the places zero and one. -/
  resolution : Nat
  /-- The sample at the left of each cell, then the last one twice. -/
  samples : Array α
deriving DecidableEq, Repr

namespace Table

variable {α : Type} [Scalar α]

def place (resolution k : Nat) : α := (k : α) / (resolution : α)

/-- The samples of a function, the last one twice. -/
def sample (f : α → Except EvalFault α) (resolution : Nat) : Except EvalFault (List α) := do
  let values ← (List.range (resolution + 1)).mapM fun k => f (place resolution k)
  return values ++ values.getLast?.toList

/-- The table of a function in the units of an output range, if there is one,
however many samples that takes. -/
def ofFunction (f : α → Except EvalFault α) (resolution : Nat) (output : Option (Range α)) :
    Except EvalFault (Table α) := do
  let samples ← sample f resolution
  let units :=
    match output with
    | none => samples
    | some range => samples.map range.fromUnit
  return ⟨resolution, units.toArray⟩

/-- The table of a function, unless it has no cell or too many samples to hold. -/
def make (f : α → Except EvalFault α) (resolution : Int) (output : Option (Range α)) :
    Outcome α (Table α) :=
  if resolution < 1 then .fault (.resolutionNotPositive resolution)
  else
    match Capacity.tableFault? (resolution.toNat + 1) with
    | some cause => .fault (.capacity cause)
    | none => .ofEval (ofFunction f resolution.toNat output)

/-- The value at a place. Places outside the unit interval are read on the line
through the nearest cell. -/
def eval (table : Table α) (x : α) : Except EvalFault α := do
  let along := x * (table.resolution : α)
  let position ← Scalar.truncate along
  Samples.line table.samples (min (max position 0) table.resolution) along

/-- The table in the units of another range. -/
def rescale (table : Table α) (old new : Range α) : Table α :=
  { table with samples := table.samples.map fun y => new.fromUnit (old.toUnit y) }

/-- The sample that a choice between two prefers over all others, or an
undefined sample if there is one. Of equal samples, such as the two zeros, it is
the last. -/
def extreme (prefer : α → α → α) (table : Table α) : α :=
  match table.samples.toList with
  | [] => 0
  | first :: rest =>
    rest.foldl (fun best y => if Scalar.isNaN best then best else if Scalar.isNaN y then y
      else prefer y best) first

def minimum (table : Table α) : α := table.extreme Scalar.smaller

def maximum (table : Table α) : α := table.extreme Scalar.larger

/-- The text that shows resolution, least and greatest sample. -/
def text [Numeral α] (table : Table α) : String :=
  "Approximation(resolution=" ++ toString table.resolution ++ ", min="
    ++ Numeral.brief table.minimum ++ ", max=" ++ Numeral.brief table.maximum ++ ")"

end Table

end Easing
