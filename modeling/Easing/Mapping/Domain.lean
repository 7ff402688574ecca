import Easing.Mapping.Basic

/-! # Changing the ranges of a mapping

All links of a mapping share their input and output bounds. New bounds are
accepted before any link is changed, and a table moves with its output range.
-/

namespace Easing

/-- The bounds of an input and an output range. -/
structure Domain (α : Type) where
  inputStart : α
  inputStop : α
  outputStart : α
  outputStop : α
deriving DecidableEq, Repr

/-- Accepts the bounds of a domain, those of the input range first. -/
def Domain.check {α : Type} [Scalar α] (d : Domain α) : Except (Fault α) Unit := do
  Range.checkBounds d.inputStart d.inputStop
  Range.checkBounds d.outputStart d.outputStop

namespace Link

variable {α : Type}

def domain (link : Link α) : Domain α :=
  ⟨link.input.start, link.input.stop, link.output.start, link.output.stop⟩

/-- The link with other bounds, and another repeat policy for the input range
if one is given. -/
def withDomain [Scalar α] (link : Link α) (d : Domain α) (repeats : Option RepeatPolicy) :
    Link α :=
  let input : Range α :=
    ⟨d.inputStart, d.inputStop, repeats.getD link.input.repeats, link.input.onExceed⟩
  let output : Range α :=
    ⟨d.outputStart, d.outputStop, link.output.repeats, link.output.onExceed⟩
  { link with
    input := input
    output := output
    table := link.table.map fun table => table.rescale link.output output }

end Link

namespace Mapping

variable {α : Type} [Scalar α]

/-- The mapping with other bounds along all its links. -/
def setRange (m : Mapping α) (d : Domain α) (repeats : Option RepeatPolicy) :
    Except (Fault α) (Mapping α) := do
  d.check
  return ⟨m.head.withDomain d repeats, m.targets.map fun link => link.withDomain d repeats⟩

def setBlendRange (m : Mapping α) (start stop : α) : Except (Fault α) (Mapping α) := do
  let blend ← m.head.blend.withBounds start stop
  return { m with head := { m.head with blend := blend } }

/-- The mapping with a target that has no target of its own. The target takes
over the mapping's bounds and the repeat policy of its input range. -/
def withTarget (m : Mapping α) (target : Link α) : Mapping α :=
  { m with targets := [target.withDomain m.head.domain (some m.head.input.repeats)] }

end Mapping

end Easing
