import Easing.Outcome
import Easing.Range.Policy

/-! # Ranges

A range has two different finite bounds in either order. Numbers outside it are
reported, then wrapped around by whole multiples of its width on the sides that
its policy names and held at the bound on the others. A number in the range has
a place in the unit interval, counted from the start.
-/

namespace Easing

/-- Two bounds and the policies for numbers outside them. -/
structure Range (α : Type) where
  /-- The bound that has the place zero. -/
  start : α
  /-- The bound that has the place one. -/
  stop : α
  /-- The sides on which numbers outside are wrapped around. -/
  repeats : RepeatPolicy
  /-- How numbers outside are reported. -/
  onExceed : ExceedAction
deriving DecidableEq, Repr

namespace Range

variable {α : Type}

section Text

variable [Numeral α]

def describe (r : Range α) : String := describeRange r.start r.stop

/-- The text that shows bounds and repeat policy. -/
def text (r : Range α) : String :=
  "BoundedRange(" ++ Numeral.text r.start ++ ", " ++ Numeral.text r.stop ++ ", repeat="
    ++ r.repeats.name ++ ")"

end Text

variable [Scalar α]

/-- Accepts two bounds if they are finite and differ. -/
def checkBounds (start stop : α) : Except (Fault α) Unit :=
  if !(Scalar.isFinite start && Scalar.isFinite stop) then .error (.boundsNotFinite start stop)
  else if start == stop then .error (.boundsEqual start stop)
  else .ok ()

def make (start stop : α) (repeats : RepeatPolicy) (onExceed : ExceedAction) :
    Except (Fault α) (Range α) := do
  checkBounds start stop
  return ⟨start, stop, repeats, onExceed⟩

/-- The range with other bounds and the same policies. -/
def withBounds (r : Range α) (start stop : α) : Except (Fault α) (Range α) :=
  make start stop r.repeats r.onExceed

def unit (repeats : RepeatPolicy) (onExceed : ExceedAction) : Range α := ⟨0, 1, repeats, onExceed⟩

/-- The way from start to stop. -/
def span (r : Range α) : α := r.stop - r.start

def low (r : Range α) : α := Scalar.smaller r.start r.stop

def high (r : Range α) : α := Scalar.larger r.start r.stop

def midpoint (r : Range α) : α := r.start + r.span / Scalar.two

def hasBounds (r : Range α) (start stop : α) : Bool := r.start == start && r.stop == stop

def contains (r : Range α) (x : α) : Bool := decide (r.low ≤ x) && decide (x ≤ r.high)

/-- Reports a number outside the range, as the range's action says. -/
def report (r : Range α) (x : α) : Outcome α Unit :=
  match r.onExceed with
  | .silent => pure ()
  | .warn => .notify (.outside x r.start r.stop)
  | .fail => .fault (.exceeded x r.start r.stop)

/-- How many widths cover a distance. -/
def turns (r : Range α) (distance : α) : Except EvalFault Int := do
  Scalar.ceiling (← Scalar.divide distance (r.high - r.low))

/-- Brings a number into the range. -/
def check (r : Range α) (x : α) : Outcome α α :=
  if x < r.low then do
    r.report x
    if r.repeats.wrapsBelow then
      let turns ← .ofEval (r.turns (r.low - x))
      return x + (turns : α) * (r.high - r.low)
    else return r.low
  else if r.high < x then do
    r.report x
    if r.repeats.wrapsAbove then
      let turns ← .ofEval (r.turns (x - r.high))
      return x - (turns : α) * (r.high - r.low)
    else return r.high
  else return x

/-- The place of a number in the unit interval, after bringing it into the range. -/
def normalize (r : Range α) (x : α) : Outcome α α := do
  let inside ← r.check x
  .ofEval (Scalar.divide (inside - r.start) r.span)

/-- The number at a place of the unit interval, brought into the range. -/
def denormalize (r : Range α) (place : α) : Outcome α α := r.check (r.start + place * r.span)

/-- The place of a number, whether it is in the range or not. -/
def toUnit (r : Range α) (x : α) : α := (x - r.start) / r.span

/-- The number at a place, whether the place is in the unit interval or not. -/
def fromUnit (r : Range α) (place : α) : α := r.start + place * r.span

end Range

end Easing
