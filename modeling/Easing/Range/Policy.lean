/-! # Policies for numbers outside a range

A number outside a range is first reported and then brought back. The action
decides how it is reported, the repeat policy on which sides it is wrapped
around rather than held at the bound.
-/

namespace Easing

/-- What a range does about a number outside it, besides bringing it back. -/
inductive ExceedAction where
  /-- Nothing. -/
  | silent
  /-- Gives notice. -/
  | warn
  /-- Refuses the number. -/
  | fail
deriving DecidableEq, Repr

namespace ExceedAction

def all : List ExceedAction := [.silent, .warn, .fail]

def name : ExceedAction → String
  | silent => "SILENT"
  | warn => "WARN"
  | fail => "FAIL"

/-- The word for an action in settings. -/
def word : ExceedAction → String
  | silent => "silent"
  | warn => "warn"
  | fail => "fail"

def ofWord? (word : String) : Option ExceedAction := all.find? (·.word == word)

/-- No two actions have the same word. -/
@[simp] theorem ofWord?_word (a : ExceedAction) : ofWord? a.word = some a := by
  cases a <;> rfl

end ExceedAction

/-- The sides on which a number outside a range is wrapped around. -/
inductive RepeatPolicy where
  | none
  | belowMin
  | aboveMax
  | both
deriving DecidableEq, Repr

namespace RepeatPolicy

def all : List RepeatPolicy := [.none, .belowMin, .aboveMax, .both]

def name : RepeatPolicy → String
  | none => "NONE"
  | belowMin => "BELOW_MIN"
  | aboveMax => "ABOVE_MAX"
  | both => "BOTH"

def word : RepeatPolicy → String
  | none => "none"
  | belowMin => "below_min"
  | aboveMax => "above_max"
  | both => "both"

def wrapsBelow (p : RepeatPolicy) : Bool := p == belowMin || p == both

def wrapsAbove (p : RepeatPolicy) : Bool := p == aboveMax || p == both

end RepeatPolicy

end Easing
