/-! # Precision

How finely the table of an expression is sampled. The highest precision takes
no samples and evaluates the expression itself.
-/

namespace Easing

/-- The precisions, coarsest first. -/
inductive Precision where
  /-- Ten cells. -/
  | low
  /-- A hundred cells. -/
  | normal
  /-- Two hundred cells. -/
  | high
  /-- A thousand cells. -/
  | veryHigh
  /-- The expression itself. -/
  | highest
deriving DecidableEq, Repr

namespace Precision

def all : List Precision := [.low, .normal, .high, .veryHigh, .highest]

def name : Precision → String
  | low => "LOW"
  | normal => "NORMAL"
  | high => "HIGH"
  | veryHigh => "VERY_HIGH"
  | highest => "HIGHEST"

/-- The number of cells of a table, which is zero where there is none. -/
def resolution : Precision → Nat
  | low => 10
  | normal => 100
  | high => 200
  | veryHigh => 1000
  | highest => 0

/-- Whether the expression itself is evaluated. -/
def isExact (p : Precision) : Bool := p == highest

def ofName? (name : String) : Option Precision := all.find? (·.name == name)

/-- No two precisions have the same name. -/
@[simp] theorem ofName?_name (p : Precision) : ofName? p.name = some p := by
  cases p <;> rfl

end Precision

end Easing
