import Easing.Expression.Basic
import Easing.Table

/-! # Mappings

A mapping takes numbers of an input range to numbers of an output range along
the curve of an expression, which is either evaluated or looked up. It may have
a target to blend towards; targets are mappings with targets of their own, so a
mapping is a first link and the links behind it.
-/

namespace Easing

/-- One curve with its ranges. -/
structure Link (α : Type) where
  expression : Expression α
  precision : Precision
  input : Range α
  output : Range α
  /-- The ratios between this link alone and its target alone. -/
  blend : Range α
  /-- The samples of the curve in the units of the output range, unless the
  expression itself is evaluated. -/
  table : Option (Table α)

namespace Link

variable {α : Type}

/-- The word for the way a curve is evaluated. -/
def strategy (link : Link α) : String :=
  match link.table with
  | none => "exact"
  | some _ => "approximate"

/-- The number of cells of the table. -/
def resolution (link : Link α) : Option Nat := link.table.map Table.resolution

variable [Scalar α]

/-- The link of an expression from the unit interval to itself. Numbers outside
the input range are wrapped around, those outside the others held. -/
def make (expression : Expression α) (precision : Precision) (onExceed : ExceedAction) :
    Outcome α (Link α) := do
  let input := Range.unit .both onExceed
  let output := Range.unit .none onExceed
  let table ←
    if precision.isExact then pure none
    else some <$> Table.make expression.eval precision.resolution (some output)
  return ⟨expression, precision, input, output, output, table⟩

/-- The number that a number is mapped to. -/
def eval (link : Link α) (x : α) : Outcome α α := do
  let place ← link.input.normalize x
  match link.table with
  | some table => link.output.check (← .ofEval (table.eval place))
  | none => link.output.denormalize (← .ofEval (link.expression.eval place))

end Link

/-- A link and the links of its target, nearest first. -/
structure Mapping (α : Type) where
  head : Link α
  /-- The target, its target, and so on. -/
  targets : List (Link α)

namespace Mapping

variable {α : Type}

/-- All links, nearest first. -/
def links (m : Mapping α) : List (Link α) := m.head :: m.targets

def target? (m : Mapping α) : Option (Mapping α) :=
  match m.targets with
  | [] => none
  | next :: more => some ⟨next, more⟩

/-- The target a number of links away; the mapping itself is none away. -/
def atDepth? : Nat → Mapping α → Option (Mapping α)
  | 0, m => some m
  | depth + 1, m => m.target?.bind (atDepth? depth)

/-- Puts another mapping in the place of the target a number of links away. -/
def replaceAt (other : Mapping α) : Nat → Mapping α → Mapping α
  | 0, _ => other
  | depth + 1, m =>
    match m.target? with
    | none => m
    | some target => ⟨m.head, (replaceAt other depth target).links⟩

/-- The text that shows definition, strategy and ranges. -/
def text [Numeral α] (m : Mapping α) : String :=
  "MappingFunction('" ++ m.head.expression.definition ++ "', strategy=" ++ m.head.strategy
    ++ ", input=" ++ m.head.input.text ++ ", output=" ++ m.head.output.text ++ ")"

variable [Scalar α]

/-- The number that a number is mapped to, without regard to the target. -/
def eval (m : Mapping α) (x : α) : Outcome α α := m.head.eval x

/-- The number between the values of a mapping and its target, as far towards
the target as the place of the ratio in the blend range. -/
def blend (m : Mapping α) (x ratio : α) : Outcome α α := do
  let y ← m.eval x
  match m.target? with
  | none => do
    .notify (.ratioIgnored ratio)
    return y
  | some target => do
    let share ← m.head.blend.normalize ratio
    let z ← target.eval x
    return y + share * (z - y)

/-- The number that a number is mapped to, blended if there is a ratio. -/
def map (m : Mapping α) (x : α) : Option α → Outcome α α
  | none => m.eval x
  | some ratio => m.blend x ratio

end Mapping

end Easing
