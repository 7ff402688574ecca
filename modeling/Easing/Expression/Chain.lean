import Easing.Expression.Step

/-! # Chains

A chain applies steps one after another. A weight may only be its last step; it
scales the value there and also weights the chain among parallel ones.
-/

namespace Easing

/-- Steps that are applied one after another. -/
structure Chain (α : Type) where
  steps : List (Step α)
deriving DecidableEq

namespace Chain

variable {α : Type}

def eval [Scalar α] (chain : Chain α) (x : α) : Except EvalFault α :=
  chain.steps.foldlM (fun x step => step.eval x) x

/-- The weight of a chain among parallel ones: that of its last step, or one. -/
def weight [Scalar α] (chain : Chain α) : α :=
  match chain.steps.getLast? with
  | some ⟨.weight, _, parameters⟩ => parameters.getD 0 1
  | _ => 1

def text [Numeral α] (chain : Chain α) : String :=
  " > ".intercalate (chain.steps.map Step.text)

variable [Numeral α]

/-- A chain of steps, of which there has to be one and only the last may be a
weight. -/
def ofSteps (steps : List (Step α)) : Except (Fault α) (Chain α) :=
  if steps.isEmpty then .error .noStep
  else if steps.dropLast.any (·.transform == .weight) then
    .error (.weightNotLast (text ⟨steps⟩))
  else .ok ⟨steps⟩

variable [Scalar α]

/-- Reads a chain of steps, each with a function. All steps are read before
their order is judged. -/
def ofTexts {ι : Type} (read : ι → Build α (Step α)) (texts : List ι) : Build α (Chain α) := do
  let steps ← texts.mapM read
  Build.ofOutcome (.ofResult (ofSteps steps))

def parse (text : List Char) : Build α (Chain α) := ofTexts Step.parse (Definition.steps text)

end Chain

end Easing
