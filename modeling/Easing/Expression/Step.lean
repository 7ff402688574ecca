import Easing.Definition.Grammar
import Easing.Transform.Resolve

/-! # Steps

A step applies one transform. It keeps the arguments it was written with beside
the parameters they resolve to, so that its text, when read again, draws the
same break points.
-/

namespace Easing

/-- One transform with its arguments. -/
structure Step (α : Type) where
  transform : Transform
  /-- The arguments as written, missing ones filled in. -/
  arguments : List α
  /-- The parameters that the arguments resolve to. -/
  parameters : Array α
deriving DecidableEq

namespace Step

variable {α : Type}

def eval [Scalar α] (step : Step α) (x : α) : Except EvalFault α :=
  step.transform.eval step.parameters x

/-- The text of a step: its name, then all arguments. -/
def text [Numeral α] (step : Step α) : String :=
  match step.arguments with
  | [] => step.transform.name
  | arguments =>
    step.transform.name ++ " " ++ ", ".intercalate (arguments.map Numeral.text)

def isCheap (step : Step α) : Bool := step.transform.isCheap

variable [Numeral α]

/-- The arguments of a transform, given its defaults and the tokens of a step:
a token for each parameter, and the default where there is no token. Tokens
beyond the parameters are not read. -/
def readArguments (transform : Transform) : List α → List String → Except (Fault α) (List α)
  | [], _ => .ok []
  | defaults, [] => .ok defaults
  | _ :: defaults, token :: tokens =>
    match Numeral.read? token with
    | none => .error (.argumentNotNumber token transform)
    | some value => do
      let rest ← readArguments transform defaults tokens
      return value :: rest

variable [Scalar α]

/-- Reads a step from its tokens, of which the first names the transform. -/
def ofTokens (name : String) (tokens : List String) : Build α (Step α) :=
  match Transform.ofName? name with
  | none => Build.fault (.unknownTransform name)
  | some transform => do
    if transform.parameterCount < tokens.length then
      Build.ofOutcome (.notify (.tooManyArguments transform tokens.length))
    let arguments ← Build.ofOutcome (.ofResult (readArguments transform transform.defaults tokens))
    let parameters ← transform.resolve arguments
    return ⟨transform, arguments, parameters⟩

def parse (text : List Char) : Build α (Step α) :=
  match (Definition.tokens text).map String.ofList with
  | [] => ofTokens "" []
  | name :: tokens => ofTokens name tokens

end Step

end Easing
