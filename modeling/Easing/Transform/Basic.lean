import Easing.Number.Scalar

/-! # The catalogue of transforms

A step names one of nineteen transforms. Each has default arguments, one for
every parameter, and a hint whether evaluating it is cheap.
-/

namespace Easing

structure Signature (α : Type) where
  name : String
  defaults : List α
  /-- Whether evaluation takes only elementary arithmetic. -/
  isCheap : Bool

namespace Signature

/-- A declaration whose number of parameters is not the number of its defaults. -/
structure Mismatch where
  name : String
  parameterCount : Int
  defaultCount : Nat
deriving DecidableEq, Repr

def Mismatch.message (m : Mismatch) : String :=
  "Transform '" ++ m.name ++ "' declares " ++ toString m.parameterCount ++ " parameters but "
    ++ toString m.defaultCount ++ " defaults"

def parameterCount {α : Type} (s : Signature α) : Nat := s.defaults.length

/-- Declares a transform with a stated number of parameters. -/
def declare {α : Type} (name : String) (parameterCount : Int) (defaults : List α)
    (isCheap : Bool) : Except Mismatch (Signature α) :=
  if parameterCount = defaults.length then .ok ⟨name, defaults, isCheap⟩
  else .error ⟨name, parameterCount, defaults.length⟩

end Signature

/-- The transforms that a step can name. -/
inductive Transform where
  /-- Leaves a number as it is. -/
  | identity
  /-- The distance from one. -/
  | invert
  /-- The same number for all. -/
  | constant
  /-- Stretches a part of the unit interval over all of it. -/
  | narrow
  /-- A power, or for a negative exponent its point reflection. -/
  | exp
  /-- A power on either side of the centre, bending away from it. -/
  | outward
  /-- A power on either side of the centre, bending towards it. -/
  | inward
  /-- Two slopes of equal steepness on either side of a peak. -/
  | peak
  /-- Two slopes from the ends up to a peak. -/
  | triangle
  /-- A rise, a plateau and a fall. -/
  | trapez
  /-- Half a period of the sine. -/
  | sin
  /-- A full period of the sine, moved into the unit interval. -/
  | fullSin
  /-- Half a period of the cosine, moved into the unit interval. -/
  | cos
  /-- A full period of the cosine, moved into the unit interval. -/
  | fullCos
  /-- Straight lines between random break points. -/
  | random
  /-- Steps of random heights. -/
  | squareRandom
  /-- Several copies one after another. -/
  | cycle
  /-- Several copies, each forwards and then backwards. -/
  | mirror
  /-- Scales a chain and weights it among parallel chains. -/
  | weight
deriving DecidableEq, Repr

namespace Transform

/-- All transforms, in the order of the catalogue. -/
def all : List Transform :=
  [.identity, .invert, .constant, .narrow, .exp, .outward, .inward, .peak, .triangle, .trapez,
    .sin, .fullSin, .cos, .fullCos, .random, .squareRandom, .cycle, .mirror, .weight]

def name : Transform → String
  | identity => "x"
  | invert => "invert"
  | constant => "constant"
  | narrow => "narrow"
  | exp => "exp"
  | outward => "outward"
  | inward => "inward"
  | peak => "peak"
  | triangle => "triangle"
  | trapez => "trapez"
  | sin => "sin"
  | fullSin => "fullsin"
  | cos => "cos"
  | fullCos => "fullcos"
  | random => "random"
  | squareRandom => "squarerandom"
  | cycle => "repeat"
  | mirror => "mirror"
  | weight => "weight"

def ofName? (name : String) : Option Transform := all.find? (·.name == name)

/-- No two transforms have the same name. -/
@[simp] theorem ofName?_name (t : Transform) : ofName? t.name = some t := by
  cases t <;> rfl

/-- A number of tenths. -/
def tenths {α : Type} [Scalar α] (n : Nat) : α := (n : α) / ((10 : Nat) : α)

/-- The default arguments, one for every parameter. -/
def defaults {α : Type} [Scalar α] : Transform → List α
  | identity | invert | sin | fullSin | cos | fullCos => []
  | constant | triangle => [Scalar.half]
  | narrow => [tenths 2, tenths 8]
  | exp | outward | inward | cycle => [Scalar.two]
  | peak => [tenths 8]
  | trapez => [tenths 3, tenths 7]
  | random | squareRandom => [((6 : Nat) : α)]
  | mirror | weight => [1]

/-- Whether evaluation takes neither powers nor angles. -/
def isCheap : Transform → Bool
  | exp | outward | inward | sin | fullSin | cos | fullCos => false
  | _ => true

def signature {α : Type} [Scalar α] (t : Transform) : Signature α :=
  ⟨t.name, t.defaults, t.isCheap⟩

def parameterCount : Transform → Nat
  | identity | invert | sin | fullSin | cos | fullCos => 0
  | narrow | trapez => 2
  | _ => 1

/-- There is a default for every parameter. -/
theorem length_defaults {α : Type} [Scalar α] (t : Transform) :
    (t.defaults : List α).length = t.parameterCount := by
  cases t <;> rfl

end Transform

end Easing
