import Easing.Expression.Basic
import Mathlib.Data.List.TakeWhile

/-! # What reading a definition looks at

Reading passes through stages, each a test or a notice, and ends at the first test
that fails. The stages of a text are listed here in their order and without regard
to how reading goes about them: a test says by itself whether it is passed, also
where reading never comes to it. Of a step, the tokens are looked at up to the
number of parameters and no further.
-/

namespace Easing

/-- A test that has to be passed, or a notice. -/
inductive Stage (α : Type) where
  | test (passed : Bool) (fault : Fault α)
  | notice (notice : Notice α)

namespace Stage

variable {α : Type}

/-- Whether reading ends here. -/
def fails : Stage α → Bool
  | test passed _ => !passed
  | notice _ => false

def fault? : Stage α → Option (Fault α)
  | test _ fault => some fault
  | notice _ => none

def notice? : Stage α → Option (Notice α)
  | test .. => none
  | .notice given => some given

/-- The fault of the first test that fails. -/
def firstFault (stages : List (Stage α)) : Option (Fault α) := (stages.find? fails).bind fault?

/-- The notices before the first test that fails. -/
def noticesBefore (stages : List (Stage α)) : List (Notice α) :=
  (stages.takeWhile (!·.fails)).filterMap notice?

theorem firstFault_eq_none_iff {stages : List (Stage α)} :
    firstFault stages = none ↔ ∀ stage ∈ stages, stage.fails = false := by
  rw [firstFault, Option.bind_eq_none_iff]
  constructor
  · intro h stage hstage
    -- What fails is a test, and a test has a fault.
    cases hfind : stages.find? fails with
    | none => simpa using List.find?_eq_none.mp hfind stage hstage
    | some found =>
        have hfails := List.find?_some hfind
        have hnone := h found hfind
        cases found with
        | test passed fault => cases hnone
        | notice _ => cases hfails
  · intro h stage hfind
    have hfails := List.find?_some hfind
    rw [h stage (List.mem_of_find?_eq_some hfind)] at hfails
    cases hfails

theorem firstFault_append (first second : List (Stage α)) :
    firstFault (first ++ second) = (firstFault first).or (firstFault second) := by
  induction first with
  | nil => rfl
  | cons stage rest ih =>
      cases hfails : stage.fails with
      | true =>
          cases stage with
          | test passed fault => simp [firstFault, fault?, hfails]
          | notice _ => cases hfails
      | false => simpa [firstFault, hfails] using ih

/-- Stages without a fault hand over to those after them. -/
theorem noticesBefore_append_of_none {first : List (Stage α)} (h : firstFault first = none)
    (second : List (Stage α)) :
    noticesBefore (first ++ second) = noticesBefore first ++ noticesBefore second := by
  have hpass : ∀ stage ∈ first, (!stage.fails) = true := by
    intro stage hstage
    rw [firstFault_eq_none_iff.mp h stage hstage]
    rfl
  have hall : first.takeWhile (!·.fails) = first :=
    List.takeWhile_eq_self_iff.mpr hpass
  rw [noticesBefore, noticesBefore, noticesBefore, List.takeWhile_append_of_pos hpass, hall,
    List.filterMap_append]

/-- After a fault nothing comes. -/
theorem noticesBefore_append_of_some {first : List (Stage α)} {fault : Fault α}
    (h : firstFault first = some fault) (second : List (Stage α)) :
    noticesBefore (first ++ second) = noticesBefore first := by
  induction first with
  | nil => cases h
  | cons stage rest ih =>
      cases hfails : stage.fails with
      | true => simp [noticesBefore, hfails]
      | false =>
          have hrest : firstFault rest = some fault := by
            simpa [firstFault, hfails] using h
          have htail := ih hrest
          simp only [noticesBefore, List.cons_append, List.takeWhile_cons, hfails, Bool.not_false,
            ↓reduceIte, List.filterMap_cons] at htail ⊢
          rw [htail]

end Stage

/-! ## The stages of a step -/

variable {α : Type}

/-- The argument to which the rule of a transform objects, by its position. -/
def Transform.judged : Transform → Nat
  | narrow => 1
  | _ => 0

/-- Whether a transform accepts its arguments, given by their positions. -/
def Transform.accepts [Scalar α] (t : Transform) (argument : Nat → α) : Bool :=
  match t with
  | exp | outward | inward => !(argument 0 == 0)
  | peak | triangle => decide (0 < argument 0) && decide (argument 0 < 1)
  | narrow => !(argument 0 == argument 1)
  | random | squareRandom =>
    Scalar.isFinite (argument 0) && decide (1 ≤ argument 0)
      && decide (argument 0 ≤ (maxBreakPoints : α))
  | cycle => !(argument 0 == 1)
  | _ => true

/-- A step as it is written. -/
structure Phrase where
  name : String
  /-- What stands behind the name. -/
  tokens : List String

namespace Phrase

def ofText (text : List Char) : Phrase :=
  match (Definition.tokens text).map String.ofList with
  | [] => ⟨"", []⟩
  | name :: tokens => ⟨name, tokens⟩

def transform? (p : Phrase) : Option Transform := Transform.ofName? p.name

variable [Scalar α] [Numeral α]

/-- The argument at a position: the number that the token there spells, or the
default where there is no token. Where a token spells no number, any will do. -/
def argument (p : Phrase) (t : Transform) (position : Nat) : α :=
  match p.tokens[position]? with
  | some token => (Numeral.read? token).getD 0
  | none => t.defaults.getD position 0

/-- The arguments of all parameters. -/
def arguments (p : Phrase) (t : Transform) : List α :=
  (List.range t.parameterCount).map (p.argument t)

/-- The text that a step is printed as. -/
def text (α : Type) [Scalar α] [Numeral α] (p : Phrase) : String :=
  match p.transform? with
  | none => p.name
  | some t => Step.text (⟨t, p.arguments t, #[]⟩ : Step α)

/-- A notice if there are more tokens than parameters. -/
def surplus (p : Phrase) (t : Transform) : List (Stage α) :=
  if t.parameterCount < p.tokens.length then
    [.notice (.tooManyArguments t p.tokens.length)]
  else []

/-- A test for each token that stands for a parameter. -/
def numbers (p : Phrase) (t : Transform) : List (Stage α) :=
  (p.tokens.take t.parameterCount).map fun token =>
    .test (Numeral.read? token : Option α).isSome (.argumentNotNumber token t)

/-- The test of the arguments by the rule of the transform. -/
def rule (p : Phrase) (t : Transform) : Stage α :=
  .test (t.accepts (α := α) (p.argument t)) (.argumentRejected (p.argument t t.judged) t)

def stages (p : Phrase) : List (Stage α) :=
  match p.transform? with
  | none => [.test false (.unknownTransform p.name)]
  | some t => p.surplus t ++ p.numbers t ++ [p.rule t]

end Phrase

/-! ## The stages of chains and definitions -/

/-- The steps of a chain as they are written. -/
abbrev Phrases := List Phrase

namespace Phrases

def ofText (text : List Char) : Phrases := (Definition.steps text).map Phrase.ofText

variable [Scalar α] [Numeral α]

def text (α : Type) [Scalar α] [Numeral α] (ps : Phrases) : String :=
  " > ".intercalate (ps.map (Phrase.text α))

/-- The weight that the last step gives a chain. -/
def weight (ps : Phrases) : α :=
  match ps.getLast? with
  | some p => if p.transform? = some .weight then p.argument .weight 0 else 1
  | none => 1

/-- After the stages of all steps, no step but the last may be a weight. -/
def stages (ps : Phrases) : List (Stage α) :=
  ps.flatMap Phrase.stages ++
    [.test (!ps.dropLast.any (·.transform? == some .weight)) (.weightNotLast (ps.text α))]

end Phrases

/-- The chains of a definition as they are written. -/
def Definition.phrases (text : String) : List Phrases :=
  (Definition.chains (Definition.normalize text.toList)).map Phrases.ofText

/-- After the stages of all chains, their weights may not add up to zero. -/
def Definition.stages [Scalar α] [Numeral α] (text : String) : List (Stage α) :=
  (Definition.phrases text).flatMap Phrases.stages ++
    [.test (!(Scalar.sum ((Definition.phrases text).map (Phrases.weight (α := α))) == 0))
      (.weightsSumToZero (" & ".intercalate ((Definition.phrases text).map (Phrases.text α))))]

end Easing
