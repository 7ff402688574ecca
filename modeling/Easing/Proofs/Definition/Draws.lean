import Easing.Compiler
import Easing.Proofs.Sequence
import Mathlib.Logic.Function.Iterate

/-! # What reading does to a generator

Only random break points are drawn, each by one step of the generator. Whether it
has a result or ends with a fault, an operation that reads texts has taken the
generator some steps further and changed nothing else about it.
-/

namespace Easing

namespace Generator

variable {α : Type} [Scalar α]

theorem unit_snd (g : Generator) : (unit g : α × Generator).2 = g.step := by
  simp only [unit, next53, next64]

theorem units_succ_snd (count : Nat) (g : Generator) :
    (units (count + 1) g : List α × Generator).2 = (units count g.step : List α × Generator).2 := by
  rw [← unit_snd (α := α) g, units]

theorem units_snd (count : Nat) (g : Generator) :
    (units count g : List α × Generator).2 = step^[count] g := by
  induction count generalizing g with
  | zero => rw [units, Function.iterate_zero_apply]
  | succ count ih => rw [units_succ_snd, ih, Function.iterate_succ_apply]

end Generator

namespace Build

variable {α β γ ι : Type}

/-- An operation that takes the generator some steps further, whatever comes of it. -/
def Advances (operation : Build α β) : Prop :=
  ∀ g, ∃ count, (operation g).2 = Generator.step^[count] g

namespace Advances

theorem ofOutcome (outcome : Outcome α β) : Advances (ofOutcome outcome) := fun _ => ⟨0, rfl⟩

theorem pure (b : β) : Advances (Pure.pure b : Build α β) := .ofOutcome _

theorem units [Scalar α] (count : Nat) :
    Advances (draw (Generator.units count) : Build α (List α)) :=
  fun g => ⟨count, Generator.units_snd count g⟩

theorem bind {first : Build α β} {second : β → Build α γ} (hfirst : Advances first)
    (hsecond : ∀ b, Advances (second b)) : Advances (first >>= second) := by
  intro g
  obtain ⟨count, hcount⟩ := hfirst g
  rcases h : first g with ⟨⟨notices, f | b⟩, g'⟩
  · rw [h] at hcount
    rw [bind_apply_error h]
    exact ⟨count, hcount⟩
  · rw [h] at hcount
    obtain ⟨more, hmore⟩ := hsecond b g'
    rw [bind_apply_ok h]
    refine ⟨more + count, ?_⟩
    rw [hmore, Function.iterate_add_apply, ← hcount]

theorem mapM {read : ι → Build α β} (h : ∀ x, Advances (read x)) (xs : List ι) :
    Advances (xs.mapM read) := by
  induction xs with
  | nil => exact .pure _
  | cons x xs ih =>
      rw [List.mapM_cons]
      exact .bind (h x) fun y => .bind ih fun ys => .pure _

end Advances

end Build

open Build (Advances)

variable {α : Type} [Scalar α]

theorem Transform.advances_resolveAccepted (t : Transform) (arguments : List α) :
    Advances (t.resolveAccepted arguments) := by
  unfold resolveAccepted
  split
  · exact .pure _
  · refine .bind (.ofOutcome _) fun count => ?_
    exact .bind (.units _) fun points => .pure _
  · refine .bind (.ofOutcome _) fun count => ?_
    exact .bind (.units _) fun heights => .pure _
  · exact .pure _

theorem Transform.advances_resolve (t : Transform) (arguments : List α) :
    Advances (t.resolve arguments) := by
  refine .bind (.ofOutcome _) fun rejected => ?_
  cases rejected with
  | some value => exact .ofOutcome _
  | none => exact t.advances_resolveAccepted arguments

variable [Numeral α]

theorem Step.advances_ofTokens (name : String) (tokens : List String) :
    Advances (ofTokens name tokens : Build α (Step α)) := by
  unfold ofTokens
  split
  next => exact .ofOutcome _
  next transform _ =>
    have hread : Advances (do
        let arguments ← Build.ofOutcome
          (.ofResult (readArguments transform transform.defaults tokens))
        let parameters ← transform.resolve arguments
        return (⟨transform, arguments, parameters⟩ : Step α)) :=
      .bind (.ofOutcome _) fun arguments =>
        .bind (transform.advances_resolve arguments) fun parameters => .pure _
    dsimp only
    split
    next => exact .bind (.ofOutcome _) fun _ => hread
    next => exact hread

theorem Step.advances_parse (text : List Char) : Advances (parse text : Build α (Step α)) := by
  unfold parse
  split <;> exact advances_ofTokens _ _

theorem Chain.advances_parse (text : List Char) : Advances (parse text : Build α (Chain α)) :=
  .bind (.mapM Step.advances_parse _) fun _ => .ofOutcome _

/-- Reading a definition. -/
theorem Expression.advances_parse (text : String) :
    Advances (parse text : Build α (Expression α)) :=
  .bind (.mapM Chain.advances_parse _) fun _ => .ofOutcome _

namespace Compiler.Config

variable (config : Config)

theorem advances_compile (text : String) (requested : Option Precision) :
    Advances (config.compile text requested : Build α (Link α)) :=
  .bind (Expression.advances_parse text) fun _ => .ofOutcome _

theorem advances_attach (m : Mapping α) (text : String) (requested : Option Precision) :
    Advances (config.attach m text requested) :=
  .bind (config.advances_compile text requested) fun _ => .pure _

theorem advances_build (request : Request α) : Advances (config.build request) := by
  refine .bind (config.advances_compile _ _) fun head => .bind (.ofOutcome _) fun m => ?_
  split
  next => exact .pure _
  next text _ => exact config.advances_attach m text _

end Compiler.Config

end Easing
