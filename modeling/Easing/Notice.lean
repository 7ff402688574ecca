import Easing.Number.Numeral
import Easing.Precision
import Easing.Transform.Basic

/-! # Notices

An operation may tell its caller more than its result. Notices keep the facts
they report; their wording is made here and nowhere else.
-/

namespace Easing

/-- How urgent a notice is. -/
inductive Level where
  | debug
  | info
  | warning
deriving DecidableEq, Repr

def Level.name : Level → String
  | debug => "DEBUG"
  | info => "INFO"
  | warning => "WARNING"

/-- What an operation tells besides its result. -/
inductive Notice (α : Type) where
  | tooManyArguments (transform : Transform) (given : Nat)
  /-- A number outside a range was brought back into it. -/
  | outside (value start stop : α)
  | ratioIgnored (ratio : α)
  | compiled (definition : String) (steps cheap : Nat) (precision : Precision)
  | noTarget
  | deviation (samples : Int) (average maximum : α)
deriving DecidableEq, Repr

def describeRange {α : Type} [Numeral α] (start stop : α) : String :=
  "range from '" ++ Numeral.text start ++ "' to '" ++ Numeral.text stop ++ "'"

/-- The statement that a number is outside a range. -/
def describeOutside {α : Type} [Numeral α] (value start stop : α) : String :=
  "Value '" ++ Numeral.text value ++ "' is outside " ++ describeRange start stop ++ "."

/-- The statement of the average and the maximum of a deviation. -/
def describeDeviation {α : Type} [Numeral α] (average maximum : α) : String :=
  "average deviation = " ++ Numeral.text average ++ "; max deviation = " ++ Numeral.text maximum

/-- The statement that there is nothing to deviate from. -/
def describeNoTarget : String := "A target map is necessary to calculate the deviation."

namespace Notice

variable {α : Type}

/-- How urgent a notice is. -/
def level : Notice α → Level
  | tooManyArguments .. | outside .. | ratioIgnored .. => .warning
  | compiled .. => .debug
  | noTarget | deviation .. => .info

def message [Numeral α] : Notice α → String
  | tooManyArguments transform given =>
    "Too many parameters: step '" ++ transform.name ++ "' needs "
      ++ toString transform.parameterCount ++ " parameter(s), but " ++ toString given
      ++ " are given."
  | outside value start stop => describeOutside value start stop
  | ratioIgnored ratio => "No target map defined, ratio " ++ Numeral.text ratio ++ " is ignored."
  | compiled definition steps cheap precision =>
    "Compiled '" ++ definition ++ "' (" ++ toString steps ++ " steps, " ++ toString cheap
      ++ " cheap) with precision " ++ precision.name
  | noTarget => describeNoTarget
  | deviation samples average maximum =>
    "Deviation over " ++ toString samples ++ " samples: " ++ describeDeviation average maximum

/-- A notice with its level, on one line. -/
def line [Numeral α] (notice : Notice α) : String := notice.level.name ++ ": " ++ notice.message

end Notice

end Easing
