import Easing.Source.Random

/-! # Repeated definitions

A source that gives out a list of definitions in order and then starts again.
-/

namespace Easing

/-- A source of given definitions. -/
structure CyclingSource where
  definitions : List String
  /-- How many have been given out in the present round. -/
  position : Nat
deriving DecidableEq, Repr

namespace CyclingSource

/-- A source of definitions, of which there has to be one. -/
def make (definitions : List String) : Except SourceFault CyclingSource :=
  if definitions.isEmpty then .error .noDefinitions else .ok ⟨definitions, 0⟩

def next (s : CyclingSource) : String × CyclingSource :=
  (s.definitions.getD s.position "",
    { s with position := (s.position + 1) % s.definitions.length })

def take (s : CyclingSource) : Nat → List String
  | 0 => []
  | count + 1 =>
    let (definition, s) := s.next
    definition :: s.take count

end CyclingSource

end Easing
