import Easing.Expression.Chain

/-! # Expressions

An expression is the weighted average of parallel chains. It is read from the
normal form of a definition, and its own definition, when read again, gives the
same expression.
-/

namespace Easing

/-- The weighted average of parallel chains. -/
structure Expression (α : Type) where
  chains : List (Chain α)
deriving DecidableEq

namespace Expression

variable {α : Type}

def steps (e : Expression α) : List (Step α) := e.chains.flatMap Chain.steps

def stepCount (e : Expression α) : Nat := e.steps.length

/-- The number of steps that are cheap to evaluate. -/
def cheapStepCount (e : Expression α) : Nat := e.steps.countP Step.isCheap

/-- Whether evaluating the expression is at least as fast as looking it up. -/
def isFast (e : Expression α) : Bool :=
  e.stepCount ≤ 3 && e.stepCount == e.cheapStepCount

/-- The precision for an expression: the one asked for, or else the highest for
a fast expression and the given one for others. -/
def selectPrecision (e : Expression α) (requested : Option Precision) (fallback : Precision) :
    Precision :=
  match requested with
  | some precision => precision
  | none => if e.isFast then .highest else fallback

/-- The sum of the weights of all chains. -/
def totalWeight [Scalar α] (e : Expression α) : α := Scalar.sum (e.chains.map Chain.weight)

/-- The value of an expression at a number. Chains already scale their values
by their weights. -/
def eval [Scalar α] (e : Expression α) (x : α) : Except EvalFault α := do
  let values ← e.chains.mapM (·.eval x)
  Scalar.divide (Scalar.sum values) e.totalWeight

def definition [Numeral α] (e : Expression α) : String :=
  " & ".intercalate (e.chains.map Chain.text)

variable [Scalar α] [Numeral α]

/-- An expression of chains, of which there has to be one and whose weights may
not add up to zero. -/
def ofChains (chains : List (Chain α)) : Except (Fault α) (Expression α) :=
  let e : Expression α := ⟨chains⟩
  if chains.isEmpty then .error .noChain
  else if e.totalWeight == 0 then .error (.weightsSumToZero e.definition)
  else .ok e

/-- Reads an expression of chains, each with a function. All chains are read
before their weights are judged. -/
def ofTexts {ι : Type} (read : ι → Build α (Chain α)) (texts : List ι) :
    Build α (Expression α) := do
  let chains ← texts.mapM read
  Build.ofOutcome (.ofResult (ofChains chains))

def parse (text : String) : Build α (Expression α) :=
  ofTexts Chain.parse (Definition.chains (Definition.normalize text.toList))

end Expression

end Easing
