import Easing.Number.Binary64
import Easing.Random.Generator
import Easing.Transform.Basic

/-! # Random definitions

A source of definitions that strings together transforms with their default
arguments: from one to a largest number of steps, each drawn from the transforms
that are not excluded, with separators of either kind between them. Numbers of
steps are drawn with 63 bits and separators with doubles; limits beyond these are
accepted until something has to be drawn within them.
-/

namespace Easing

/-- Why there is no source of definitions or no definition from it. -/
inductive SourceFault where
  /-- The largest number of steps is not positive. -/
  | noSteps
  /-- The odds of a chain separator are not positive. -/
  | noOdds
  /-- Every transform is excluded. -/
  | noTransforms
  | seed (cause : SeedFault)
  /-- There is no definition to repeat. -/
  | noDefinitions
  /-- The largest number of steps has more than 63 bits. -/
  | tooManySteps
  /-- The odds of a chain separator are too large for a double. -/
  | oddsTooLarge
deriving DecidableEq, Repr

def SourceFault.message : SourceFault → String
  | noSteps => "max_steps must be at least 1"
  | noOdds => "chain_odds must be at least 1"
  | noTransforms => "Every transform is excluded"
  | seed cause => cause.message
  | noDefinitions => "At least one definition is required"
  | tooManySteps => "high is out of bounds for int64"
  | oddsTooLarge => "int too large to convert to float"

/-- A source of random definitions. -/
structure RandomSource where
  /-- The transforms that are drawn from, in the order of the catalogue. -/
  transforms : List Transform
  maxSteps : Nat
  /-- One separator in so many, on average, divides chains. -/
  chainOdds : Nat
  generator : Generator
deriving DecidableEq, Repr

namespace RandomSource

def defaultExcluded : List Transform := [.constant, .random, .squareRandom, .weight, .identity]

/-- A source of definitions without the transforms of the excluded names. Without
a seed it draws from the generator that is given. -/
def make (maxSteps chainOdds : Int) (excluded : List String) (seed : Option Int)
    (unseeded : Generator := .ofSeed 0) : Except SourceFault RandomSource :=
  let transforms := Transform.all.filter fun t => !excluded.contains t.name
  if maxSteps < 1 then .error .noSteps
  else if chainOdds < 1 then .error .noOdds
  else if transforms.isEmpty then .error .noTransforms
  else do
    let generator ← (Generator.make seed unseeded).mapError SourceFault.seed
    return ⟨transforms, maxSteps.toNat, chainOdds.toNat, generator⟩

/-- Draws one of the transforms. -/
def drawName (transforms : List Transform) (g : Generator) : String × Generator :=
  let (i, g) := g.below transforms.length
  (((transforms[i]?).map Transform.name).getD "", g)

/-- Draws a separator. A draw is a multiple of `2 ^ -53`, so that the product
with the odds is below one exactly if that of the naturals is below `2 ^ 53`. -/
def drawSeparator (chainOdds : Nat) (g : Generator) : Except SourceFault (String × Generator) :=
  if Binary64.tooLarge ≤ chainOdds then .error .oddsTooLarge
  else
    let (k, g) := g.next53
    .ok (if k * chainOdds < Generator.unitCount then " & " else " > ", g)

/-- Draws a number of separators, each with a name after it. -/
def drawTail (s : RandomSource) : Nat → Generator → Except SourceFault (List String × Generator)
  | 0, g => .ok ([], g)
  | more + 1, g => do
    let (separator, g) ← drawSeparator s.chainOdds g
    let (name, g) := drawName s.transforms g
    let (tail, g) ← s.drawTail more g
    return (separator :: name :: tail, g)

/-- The greatest number of steps that can be drawn, `2 ^ 63 - 1`. -/
def stepLimit : Nat := 0x7FFFFFFFFFFFFFFF

/-- The next definition. The number of steps is drawn before them. -/
def next (s : RandomSource) : Except SourceFault (String × RandomSource) :=
  if stepLimit < s.maxSteps then .error .tooManySteps
  else do
    let (more, g) := s.generator.below s.maxSteps
    let (name, g) := drawName s.transforms g
    let (tail, g) ← s.drawTail more g
    return (String.join (name :: tail), { s with generator := g })

def take (s : RandomSource) : Nat → Except SourceFault (List String)
  | 0 => .ok []
  | count + 1 => do
    let (definition, s) ← s.next
    let definitions ← s.take count
    return definition :: definitions

end RandomSource

end Easing
