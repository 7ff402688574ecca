import Easing.Proofs.Mapping.Faults
import Easing.Proofs.Session.Containment

/-! # Each fault of an evaluation has one cause

Expressions are evaluated without dividing by zero and without missing a position, for all
doubles and whatever their arguments are, and so are mappings in every state of a session.
-/

namespace Easing

/-- No parameter is read at a position that is counted from the end. -/
def Step.ReadsForward {α : Type} [Scalar α] (step : Step α) : Prop :=
  ∀ x, step.transform.evalBy Samples.forward step.parameters x = step.eval x

/-- No sample is read at a position that is counted from the end. -/
def Table.ReadsForward {α : Type} [Scalar α] (table : Table α) : Prop :=
  ∀ x, table.evalBy Samples.forward x = table.eval x

theorem Expression.Fits.readsForward {α : Type} [Scalar α] [Scalar.Guarded α] {e : Expression α}
    (h : e.Fits) : ∀ step ∈ e.steps, step.ReadsForward :=
  fun step hstep x => (h.steps step hstep).evalBy_forward x

/-- The transforms that a fault can come from. -/
theorem Transform.mem_of_fault? {t : Transform} {f : EvalFault} (h : t.fault? = some f) :
    (f = .powerTooLarge ∧ t ∈ [.exp, .outward, .inward]) ∨
      (f = .infiniteAngle ∧ t ∈ [.sin, .fullSin, .cos, .fullCos]) ∨
        (f = .integerOfNaN ∧ t ∈ [.random, .squareRandom]) := by
  cases t <;> cases h <;> simp

/-- The table after it was moved from range to range. -/
def Table.moved {α : Type} [Scalar α] (table : Table α) (moves : List (Range α × Range α)) :
    Table α :=
  moves.foldl (fun table move => table.rescale move.1 move.2) table

theorem Table.Filled.moved {α : Type} [Scalar α] {table : Table α} (h : table.Filled)
    (moves : List (Range α × Range α)) : (table.moved moves).Filled := by
  induction moves generalizing table with
  | nil => exact h
  | cons move moves ih => exact ih (h.rescale move.1 move.2)

namespace Session

/-- Expressions that were read fail for one of three reasons, each of which takes a step of
a few transforms. Neither they nor tables nor mappings in any state divide by zero or read
a parameter or a sample at a position that is not there or is negative. -/
theorem faults_have_one_cause :
    (∀ (text : String) (g : Generator) (e : Expression Float),
      (Expression.parse text g).1.result = .ok e →
        (∀ (x : Float) (f : EvalFault), e.eval x = .error f →
          (f = .powerTooLarge ∧ ∃ step ∈ e.steps, step.transform ∈ [.exp, .outward, .inward]) ∨
          (f = .infiniteAngle ∧
            ∃ step ∈ e.steps, step.transform ∈ [.sin, .fullSin, .cos, .fullCos]) ∨
          (f = .integerOfNaN ∧ ∃ step ∈ e.steps, step.transform ∈ [.random, .squareRandom])) ∧
        ∀ step ∈ e.steps, step.ReadsForward) ∧
    (∀ (curve : Float → Except EvalFault Float) (resolution : Int) (output : Option (Range Float))
        (table : Table Float) (moves : List (Range Float × Range Float)),
      (Table.make curve resolution output).result = .ok table →
        (table.moved moves).ReadsForward ∧
        ∀ (x : Float) (f : EvalFault), (table.moved moves).eval x = .error f →
          f ≠ .divisionByZero ∧ f ≠ .positionOutOfRange) ∧
    ∀ (s : Session Float) (place : Place) (entry : Entry Float) (m : Mapping Float),
      s.Reachable → s.find? place = some (entry, m) →
        (∀ (x : Float) (ratio : Option Float),
          (m.map x ratio).result ≠ .error (.evaluation .divisionByZero) ∧
            (m.map x ratio).result ≠ .error (.evaluation .positionOutOfRange)) ∧
        ∀ link ∈ m.links, (∀ step ∈ link.expression.steps, step.ReadsForward) ∧
          ∀ table, link.table = some table → table.ReadsForward ∧
            ∀ (x : Float) (f : EvalFault), table.eval x = .error f →
              f ≠ .divisionByZero ∧ f ≠ .positionOutOfRange := by
  refine ⟨?_, ?_, ?_⟩
  · intro text g e hparse
    have hfits := Expression.fits_of_parse hparse
    refine ⟨?_, hfits.readsForward⟩
    intro x f hvalue
    obtain ⟨step, hstep, hfault⟩ := hfits.exists_of_eval_eq_error hvalue
    rcases Transform.mem_of_fault? hfault with ⟨hf, ht⟩ | ⟨hf, ht⟩ | ⟨hf, ht⟩
    · exact .inl ⟨hf, step, hstep, ht⟩
    · exact .inr (.inl ⟨hf, step, hstep, ht⟩)
    · exact .inr (.inr ⟨hf, step, hstep, ht⟩)
  · intro curve resolution output table moves hmake
    refine ⟨Table.evalBy_forward _, ?_⟩
    intro x f hvalue
    exact not_or.mp (((Table.filled_of_make hmake).moved moves).not_avoidable_of_eval hvalue)
  · intro s place entry m hs hfind
    have hlinks : ∀ link ∈ m.links, link.Sound Link.Fits := fun link hlink =>
      hs.sound Link.fits_invariant entry (mem_entries_of_find? hfind) link
        (links_subset_of_find? hfind hlink)
    constructor
    · intro x ratio
      have hsafe := Mapping.safe_map hlinks x ratio
      exact ⟨fun h => hsafe _ h (.inl rfl), fun h => hsafe _ h (.inr rfl)⟩
    · intro link hlink
      have hfits := (hlinks link hlink).1
      refine ⟨hfits.expression.readsForward, ?_⟩
      intro table htable
      refine ⟨table.evalBy_forward, ?_⟩
      intro x f hvalue
      exact not_or.mp ((hfits.table table htable).not_avoidable_of_eval hvalue)

/-- A mapping with a reversed range, and a target to blend towards. -/
def sloped : List (Action Float) :=
  [.compile .own "ramp" "trapez 0, 1 > narrow 0.75, 0.25" (some .low),
    .change ⟨"ramp", 0⟩ (.setRange ⟨10, 0, 4, -4⟩ none),
    .change ⟨"ramp", 0⟩ (.setTarget "constant nan > random 3" none),
    .change ⟨"ramp", 0⟩ (.setBlendRange 0.5 (-0.5))]

/-- An undefined place among break points is the fault of the step that has them. What is
infinite cannot be wrapped around, and what is undefined not be looked up, and that is all. -/
theorem faults_have_one_cause_undefined :
    (∃ e : Expression Float,
      (Expression.parse "constant nan > random 3" (.ofSeed 7)).1.result = .ok e ∧
        e.eval 0.25 = .error .integerOfNaN ∧
        ∃ step ∈ e.steps, step.transform ∈ [.random, .squareRandom]) ∧
    (∃ table : Table Float,
      (Table.make pure 4 (some ⟨0, 8, .none, .silent⟩)).result = .ok table ∧
        (table.moved [(⟨0, 8, .none, .silent⟩, ⟨1, -1, .none, .silent⟩)]).eval (0 / 0) =
          .error .integerOfNaN ∧
        (table.moved [(⟨0, 8, .none, .silent⟩, ⟨1, -1, .none, .silent⟩)]).ReadsForward) ∧
    ∃ (s : Session Float) (entry : Entry Float) (m : Mapping Float), s.Reachable ∧
      s.find? ⟨"ramp", 0⟩ = some (entry, m) ∧
      (m.map (1 / 0) (some 0.1)).result = .error (.evaluation .integerOfInfinity) ∧
      (m.map 12 (some 0.1)).result = .error (.evaluation .integerOfNaN) ∧
      (m.map 12 none).result ≠ .error (.evaluation .divisionByZero) ∧
      ∀ link ∈ m.links, ∀ step ∈ link.expression.steps, step.ReadsForward := by
  obtain ⟨hexpressions, htables, hsessions⟩ := faults_have_one_cause
  refine ⟨?_, ?_, ?_⟩
  · have hvalue : (Expression.parse "constant nan > random 3" (.ofSeed 7)).1.result.toOption.map
        (fun e : Expression Float => e.eval 0.25) = some (.error .integerOfNaN) := by
      decide +kernel
    obtain ⟨e, he, hfault⟩ := Option.map_eq_some_iff.mp hvalue
    have hparse := Except.eq_ok_of_toOption he
    refine ⟨e, hparse, hfault, ?_⟩
    rcases (hexpressions _ _ e hparse).1 _ _ hfault with ⟨h, _⟩ | ⟨h, _⟩ | ⟨_, hcause⟩
    · cases h
    · cases h
    · exact hcause
  · have hvalue : (Table.make pure 4 (some ⟨0, 8, .none, .silent⟩)).result.toOption.map
        (fun table : Table Float =>
          (table.moved [(⟨0, 8, .none, .silent⟩, ⟨1, -1, .none, .silent⟩)]).eval (0 / 0)) =
            some (.error .integerOfNaN) := by
      decide +kernel
    obtain ⟨table, htable, hfault⟩ := Option.map_eq_some_iff.mp hvalue
    have hmake := Except.eq_ok_of_toOption htable
    exact ⟨table, hmake, hfault, (htables _ _ _ table _ hmake).1⟩
  · have hvalue : (((start ⟨.standard, .ofSeed 0⟩ ⟨.standard, .ofSeed 0⟩ : Session Float).after
        sloped).find? ⟨"ramp", 0⟩).map (fun found => ((found.2.map (1 / 0) (some 0.1)).result,
          (found.2.map 12 (some 0.1)).result)) =
        some (.error (.evaluation .integerOfInfinity), .error (.evaluation .integerOfNaN)) := by
      decide +kernel
    obtain ⟨⟨entry, m⟩, hfind, hresults⟩ := Option.map_eq_some_iff.mp hvalue
    obtain ⟨hinfinity, hnan⟩ := Prod.mk.inj hresults
    have hs : ((start ⟨.standard, .ofSeed 0⟩ ⟨.standard, .ofSeed 0⟩ : Session Float).after
        sloped).Reachable := ⟨_, _, _, rfl⟩
    obtain ⟨hmap, hlinks⟩ := hsessions _ _ entry m hs hfind
    exact ⟨_, entry, m, hs, hfind, hinfinity, hnan, (hmap 12 none).1,
      fun link hlink => (hlinks link hlink).1⟩

end Session

end Easing
