import Easing.Proofs.Number.Order
import Easing.Proofs.Session.Links

/-! # Values stay in the output range

The output range of a link holds the numbers that overshoot and never wraps them
around, and no action changes that. Its bounds are finite after every action, so
a number that was held, or was not outside, lies between them. Only an undefined
number is neither below nor above a range without being in it.
-/

namespace Easing

namespace Range

variable {α : Type} [Scalar α]

/-- Accepted bounds are defined numbers. -/
theorem isNaN_of_checkBounds [Scalar.Ordered α] {start stop : α}
    (h : checkBounds start stop = .ok ()) :
    Scalar.isNaN start = false ∧ Scalar.isNaN stop = false := by
  unfold checkBounds at h
  split at h
  next => cases h
  next hfinite =>
    rw [Bool.not_eq_true', Bool.not_eq_false, Bool.and_eq_true] at hfinite
    exact ⟨Scalar.Ordered.isNaN_of_isFinite hfinite.1, Scalar.Ordered.isNaN_of_isFinite hfinite.2⟩

/-- The bounds of a range, in order. -/
def Within (r : Range α) (y : α) : Prop := r.low ≤ y ∧ y ≤ r.high

variable [Scalar.Ordered α]

theorem le_refl_of_isNaN {x : α} (hx : Scalar.isNaN x = false) : x ≤ x :=
  Scalar.Ordered.le_of_not_lt hx hx fun h => Scalar.Ordered.lt_asymm h h

variable {r : Range α}

/-- The lower bound is at most the upper bound, whichever of them comes first. -/
theorem low_le_high (h : checkBounds r.start r.stop = .ok ()) : r.low ≤ r.high := by
  obtain ⟨hstart, hstop⟩ := isNaN_of_checkBounds h
  unfold low high Scalar.smaller Scalar.larger
  split
  next hlt =>
    rw [if_neg (Scalar.Ordered.lt_asymm hlt)]
    exact Scalar.Ordered.le_of_lt hlt
  next hnot =>
    split
    next hlt => exact Scalar.Ordered.le_of_lt hlt
    next => exact le_refl_of_isNaN hstart

theorem isNaN_low_high (h : checkBounds r.start r.stop = .ok ()) :
    Scalar.isNaN r.low = false ∧ Scalar.isNaN r.high = false := by
  obtain ⟨hstart, hstop⟩ := isNaN_of_checkBounds h
  unfold low high Scalar.smaller Scalar.larger
  constructor <;> split <;> assumption

/-- A range that does not wrap answers with a number between its bounds, or with
an undefined number. -/
theorem within_of_check (hrepeats : r.repeats = .none)
    (hbounds : checkBounds r.start r.stop = .ok ()) {x y : α} (h : (r.check x).result = .ok y) :
    Scalar.isNaN y = true ∨ r.Within y := by
  obtain ⟨hlow, hhigh⟩ := isNaN_low_high hbounds
  have hle := low_le_high hbounds
  have hbelow : r.repeats.wrapsBelow = false := by rw [hrepeats]; rfl
  have habove : r.repeats.wrapsAbove = false := by rw [hrepeats]; rfl
  unfold check at h
  split at h
  next =>
    rw [hbelow, Outcome.result_bind_eq_ok_iff] at h
    obtain ⟨_, _, hy⟩ := h
    cases hy
    exact .inr ⟨le_refl_of_isNaN hlow, hle⟩
  next hnotBelow =>
    split at h
    next =>
      rw [habove, Outcome.result_bind_eq_ok_iff] at h
      obtain ⟨_, _, hy⟩ := h
      cases hy
      exact .inr ⟨hle, le_refl_of_isNaN hhigh⟩
    next hnotAbove =>
      cases h
      cases hx : Scalar.isNaN x with
      | true => exact .inl rfl
      | false =>
          exact .inr ⟨Scalar.Ordered.le_of_not_lt hx hlow hnotBelow,
            Scalar.Ordered.le_of_not_lt hhigh hx hnotAbove⟩

end Range

section Held

variable {α : Type} [Scalar α]

/-- A link whose output range holds the numbers outside it on both sides. -/
def Link.Holds (link : Link α) : Prop := link.output.repeats = .none

/-- Links are made so, and no change of ranges touches the policy. -/
theorem Link.holds_invariant [Numeral α] : Link.Invariant (α := α) Link.Holds where
  compiled h := by
    obtain ⟨_, _, _, _, _, _, hmake⟩ := h.exists_make
    obtain ⟨_, _, rfl⟩ := Link.result_make_eq_ok_iff.mp hmake
    rfl
  withDomain _ h _ _ := h
  withBlend h _ := h

/-- The value of a link comes out of its output range, whether it is looked up
or evaluated. -/
theorem Link.within_of_eval [Scalar.Ordered α] {link : Link α} (h : link.Sound Link.Holds)
    {x y : α} (hy : (link.eval x).result = .ok y) :
    Scalar.isNaN y = true ∨ link.output.Within y := by
  obtain ⟨hholds, hdomain⟩ := h
  have hbounds : Range.checkBounds link.output.start link.output.stop = .ok () :=
    (Domain.check_eq_ok_iff.mp hdomain).2
  unfold Link.eval at hy
  rw [Outcome.result_bind_eq_ok_iff] at hy
  obtain ⟨place, _, hy⟩ := hy
  split at hy
  all_goals
    rw [Outcome.result_bind_eq_ok_iff] at hy
    obtain ⟨_, _, hcheck⟩ := hy
    exact Range.within_of_check hholds hbounds hcheck

end Held

instance : Scalar.HasUnit Float where
  checkBounds_zero_one := by decide +kernel

namespace Session

/-- After any actions, failing ones included, every mapping and every target of
it holds its output range, so that each value without a ratio is undefined or
lies between the output bounds. -/
theorem output_contains_values {s : Session Float} (hs : s.Reachable) {place : Place}
    {entry : Entry Float} {m : Mapping Float} (hfind : s.find? place = some (entry, m)) :
    m.head.output.repeats = .none ∧
      ∀ x y, (m.map x none).result = .ok y →
        Scalar.isNaN y = true ∨ (m.head.output.low ≤ y ∧ y ≤ m.head.output.high) := by
  have hsound := hs.sound_head Link.holds_invariant hfind
  refine ⟨hsound.1, ?_⟩
  intro x y hy
  exact Link.within_of_eval hsound hy

/-- A target that goes far below a reversed output range is held at its lower
bound, after a refused change of range. -/
theorem output_contains_values_overshoot :
    ∃ (s : Session Float) (entry : Entry Float) (m : Mapping Float),
      s.Reachable ∧ s.find? ⟨"ramp", 1⟩ = some (entry, m) ∧ (m.map 2.5 none).result = .ok (-5) ∧
        m.head.output.repeats = .none ∧
        (Scalar.isNaN (-5 : Float) = true ∨
          (m.head.output.low ≤ -5 ∧ -5 ≤ m.head.output.high)) := by
  let s : Session Float := (start ⟨.standard, .ofSeed 0⟩ ⟨.standard, .ofSeed 0⟩).after
    [.compile .own "ramp" "x" none,
      .change ⟨"ramp", 0⟩ (.setRange ⟨0, 10, 5, -5⟩ none),
      .change ⟨"ramp", 0⟩ (.setTarget "constant 3" (some .low)),
      .change ⟨"ramp", 1⟩ (.setRange ⟨0, 10, 5, 5⟩ none)]
  have hs : s.Reachable := ⟨_, _, _, rfl⟩
  have hvalue : (s.find? ⟨"ramp", 1⟩).map (fun found => (found.2.map 2.5 none).result) =
      some (.ok (-5)) := by
    decide +kernel
  obtain ⟨⟨entry, m⟩, hfind, hm⟩ := Option.map_eq_some_iff.mp hvalue
  obtain ⟨hrepeats, hvalues⟩ := output_contains_values hs hfind
  exact ⟨s, entry, m, hs, hfind, hm, hrepeats, hvalues _ _ hm⟩

end Session

end Easing
