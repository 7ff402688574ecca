import Easing.Proofs.Expression.Faults
import Easing.Proofs.Mapping.Chain
import Easing.Proofs.Mapping.Refusal
import Easing.Proofs.Mapping.Tabulated

/-! # Faults that tests rule out

Accepted bounds differ, so no width and no span that is divided by is zero; a table has one
sample more than places, so a line can be followed in its last cell. Links keep what is
needed for that through all changes of their ranges.
-/

namespace Easing

variable {α β γ : Type}

/-- The faults that a test elsewhere is meant to rule out. -/
def EvalFault.Avoidable (f : EvalFault) : Prop := f = .divisionByZero ∨ f = .positionOutOfRange

theorem Transform.not_avoidable_of_fault? {t : Transform} {f : EvalFault}
    (h : t.fault? = some f) : ¬ f.Avoidable := by
  rintro (rfl | rfl) <;> cases t <;> cases h

namespace Outcome

/-- An outcome that has not failed with a fault that tests rule out. -/
def Safe (outcome : Outcome α β) : Prop :=
  ∀ f : EvalFault, outcome.result = .error (.evaluation f) → ¬ f.Avoidable

theorem Safe.pure (b : β) : (pure b : Outcome α β).Safe := by
  intro f h
  cases h

theorem Safe.notify (notice : Notice α) : (notify notice).Safe := by
  intro f h
  cases h

theorem Safe.ofEval {value : Except EvalFault β}
    (h : ∀ f, value = .error f → ¬ f.Avoidable) : (ofEval value : Outcome α β).Safe := by
  intro f hresult
  cases value with
  | error f' =>
      cases hresult
      exact h f rfl
  | ok b => cases hresult

theorem Safe.bind {first : Outcome α β} {second : β → Outcome α γ} (hfirst : first.Safe)
    (hsecond : ∀ b, (second b).Safe) : (first >>= second).Safe := by
  obtain ⟨notices, f | b⟩ := first
  · intro f' h
    rw [bind_mk_error] at h
    apply hfirst f'
    cases h
    rfl
  · exact hsecond b

end Outcome

section Ranges

variable [Scalar α] [Scalar.Guarded α]

theorem Scalar.not_avoidable_of_truncate {x : α} {f : EvalFault} (h : truncate x = .error f) :
    ¬ f.Avoidable := by
  rcases Guarded.truncate_error h with rfl | rfl <;> rintro (h | h) <;> cases h

namespace Range

variable {r : Range α}

omit [Scalar.Guarded α] in
theorem bounds_of_check {start stop : α} (h : checkBounds start stop = .ok ()) :
    Scalar.isFinite start = true ∧ Scalar.isFinite stop = true ∧ (start == stop) = false := by
  rw [checkBounds_eq_ok_iff, exists_refuses_iff, not_or, not_or] at h
  simpa using h

/-- The bound above differs from the one below. -/
theorem high_beq_low (h : checkBounds r.start r.stop = .ok ()) : (r.high == r.low) = false := by
  obtain ⟨hstart, hstop, hne⟩ := bounds_of_check h
  unfold high low Scalar.larger Scalar.smaller
  by_cases hascending : r.start < r.stop
  · rw [if_pos hascending, if_neg (Scalar.Ordered.lt_asymm hascending),
      Scalar.Guarded.beq_comm]
    exact hne
  · rw [if_neg hascending]
    by_cases hdescending : r.stop < r.start
    · rw [if_pos hdescending]
      exact hne
    · have hequal := Scalar.Guarded.beq_of_not_lt (Scalar.Ordered.isNaN_of_isFinite hstart)
        (Scalar.Ordered.isNaN_of_isFinite hstop) hascending hdescending
      rw [hne] at hequal
      cases hequal

theorem width_beq_zero (h : checkBounds r.start r.stop = .ok ()) :
    (r.high - r.low == 0) = false :=
  Scalar.sub_beq_zero (high_beq_low h)

theorem span_beq_zero (h : checkBounds r.start r.stop = .ok ()) : (r.span == 0) = false := by
  obtain ⟨_, _, hne⟩ := bounds_of_check h
  apply Scalar.sub_beq_zero
  rwa [Scalar.Guarded.beq_comm]

theorem safe_turns (h : checkBounds r.start r.stop = .ok ()) (distance : α) :
    (Outcome.ofEval (r.turns distance) : Outcome α Int).Safe := by
  apply Outcome.Safe.ofEval
  intro f hturns
  unfold turns at hturns
  rw [Scalar.divide_eq_ok (width_beq_zero h)] at hturns
  change Scalar.ceiling _ = _ at hturns
  unfold Scalar.ceiling at hturns
  exact Scalar.not_avoidable_of_truncate (Except.eq_error_of_bind_pure hturns)

omit [Scalar α] [Scalar.Guarded α] in
theorem safe_report (r : Range α) (x : α) : (r.report x).Safe := by
  unfold report
  cases r.onExceed with
  | silent => exact .pure ()
  | warn => exact .notify _
  | fail =>
      intro f h
      cases h

/-- Bringing a number into an accepted range divides by the width of the range alone. -/
theorem safe_check (h : checkBounds r.start r.stop = .ok ()) (x : α) : (r.check x).Safe := by
  unfold check
  split
  · refine (safe_report r x).bind fun _ => ?_
    split
    · exact (safe_turns h _).bind fun _ => .pure _
    · exact .pure _
  · split
    · refine (safe_report r x).bind fun _ => ?_
      split
      · exact (safe_turns h _).bind fun _ => .pure _
      · exact .pure _
    · exact .pure _

theorem safe_normalize (h : checkBounds r.start r.stop = .ok ()) (x : α) :
    (r.normalize x).Safe := by
  refine (safe_check h x).bind fun inside => ?_
  rw [Scalar.divide_eq_ok (span_beq_zero h)]
  apply Outcome.Safe.ofEval
  intro f hvalue
  cases hvalue

end Range

end Ranges

/-! ## Tables -/

namespace Table

variable [Scalar α]

/-- There is one sample more than places. -/
def Filled (table : Table α) : Prop := table.samples.size = table.resolution + 2

theorem filled_of_make {f : α → Except EvalFault α} {resolution : Int}
    {output : Option (Range α)} {table : Table α}
    (h : (make f resolution output).result = .ok table) : table.Filled := by
  obtain ⟨_, _, h⟩ := result_make_eq_ok_iff.mp h
  obtain ⟨samples, hsamples, htable⟩ := Except.bind_eq_ok_iff.mp h
  have hlength := (sample_spec hsamples).1
  cases htable
  cases output <;> simp [Filled, hlength]

theorem Filled.rescale {table : Table α} (h : table.Filled) (old new : Range α) :
    (table.rescale old new).Filled := by
  unfold Filled Table.rescale
  rw [Array.size_map]
  exact h

/-- The value at a place, with any way of reading samples. -/
def evalBy (read : Array α → Int → Except EvalFault α) (table : Table α) (x : α) :
    Except EvalFault α := do
  let along := x * (table.resolution : α)
  let position ← Scalar.truncate along
  Samples.lineBy read table.samples (min (max position 0) table.resolution) along

theorem evalBy_get (table : Table α) (x : α) : table.evalBy Samples.get x = table.eval x := rfl

/-- No position is counted from the end. -/
theorem evalBy_forward (table : Table α) (x : α) :
    table.evalBy Samples.forward x = table.eval x := by
  unfold evalBy eval
  apply bind_congr
  intro position
  exact Samples.lineBy_forward (by omega) table.samples _

theorem Filled.exists_line {table : Table α} (h : table.Filled) (position : Int) (along : α) :
    ∃ y, Samples.line table.samples (min (max position 0) table.resolution) along = .ok y := by
  unfold Filled at h
  obtain ⟨i, hi, hle⟩ : ∃ i : Nat, min (max position 0) table.resolution = (i : Int) ∧
      i ≤ table.resolution := ⟨(min (max position 0) table.resolution).toNat, by omega, by omega⟩
  have hnext : Samples.get table.samples ((i : Int) + 1) = .ok table.samples[i + 1] :=
    Samples.get_natCast (i := i + 1) (by omega)
  rw [hi, Samples.line, Samples.get_natCast (by omega), hnext]
  exact ⟨_, rfl⟩

/-- A place is looked up unless it has no integer part. -/
theorem Filled.not_avoidable_of_eval [Scalar.Guarded α] {table : Table α} (h : table.Filled)
    {x : α} {f : EvalFault} (hvalue : table.eval x = .error f) : ¬ f.Avoidable := by
  unfold eval at hvalue
  rcases Except.bind_eq_error_iff.mp hvalue with hvalue | ⟨position, _, hvalue⟩
  · exact Scalar.not_avoidable_of_truncate hvalue
  · obtain ⟨y, hy⟩ := h.exists_line position (x * (table.resolution : α))
    cases hy.symm.trans hvalue

end Table

/-! ## Links and mappings -/

/-- What evaluating a link relies on, besides the bounds of its domain. -/
structure Link.Fits [Scalar α] (link : Link α) : Prop where
  expression : link.expression.Fits
  blend : Range.checkBounds link.blend.start link.blend.stop = .ok ()
  table : ∀ table, link.table = some table → table.Filled

section Links

variable [Scalar α] [Scalar.Guarded α]

/-- Links are made so, and accepted bounds keep them so. -/
theorem Link.fits_invariant [Numeral α] [Scalar.HasIntegerPart α] [Scalar.HasUnit α] :
    Link.Invariant (α := α) Link.Fits where
  compiled h := by
    obtain ⟨_, _, _, _, _, hparse, hmake⟩ := h.exists_make
    obtain ⟨_, htable, rfl⟩ := Link.result_make_eq_ok_iff.mp hmake
    refine ⟨Expression.fits_of_parse hparse, Scalar.HasUnit.checkBounds_zero_one, ?_⟩
    intro table hsome
    cases htable with
    | exact _ => cases hsome
    | approximate _ hsampled =>
        cases hsome
        exact Table.filled_of_make hsampled
  withDomain {link d} repeats h _ _ := by
    refine ⟨h.expression, h.blend, ?_⟩
    intro table hsome
    obtain ⟨earlier, hearlier, rfl⟩ := Option.map_eq_some_iff.mp hsome
    exact (h.table earlier hearlier).rescale _ _
  withBlend {link start stop blend} h hblend := by
    refine ⟨h.expression, ?_, h.table⟩
    unfold Range.withBounds Range.make at hblend
    obtain ⟨_, hcheck, hblend⟩ := Except.bind_eq_ok_iff.mp hblend
    cases hblend
    exact hcheck

theorem Link.Sound.safe_eval {link : Link α} (h : link.Sound Link.Fits) (x : α) :
    (link.eval x).Safe := by
  obtain ⟨hfits, hdomain⟩ := h
  obtain ⟨hinput, houtput⟩ := Domain.check_eq_ok_iff.mp hdomain
  refine (Range.safe_normalize hinput x).bind fun place => ?_
  cases htable : link.table with
  | none =>
      refine Outcome.Safe.bind (.ofEval fun f hvalue => ?_) fun _ => Range.safe_check houtput _
      obtain ⟨step, _, hfault⟩ := hfits.expression.exists_of_eval_eq_error hvalue
      exact Transform.not_avoidable_of_fault? hfault
  | some table =>
      refine Outcome.Safe.bind (.ofEval fun f hvalue => ?_) fun _ => Range.safe_check houtput _
      exact (hfits.table table htable).not_avoidable_of_eval hvalue

theorem Mapping.safe_map {m : Mapping α} (h : ∀ link ∈ m.links, link.Sound Link.Fits) (x : α)
    (ratio : Option α) : (m.map x ratio).Safe := by
  have hhead := h _ m.head_mem_links
  cases ratio with
  | none => exact hhead.safe_eval x
  | some ratio =>
      refine (hhead.safe_eval x).bind fun y => ?_
      cases htarget : m.target? with
      | none => exact (Outcome.Safe.notify _).bind fun _ => .pure y
      | some target =>
          have hlink : target.head ∈ m.links := by
            have hmem := target.head_mem_links
            rw [Mapping.links_target? htarget] at hmem
            exact List.mem_cons_of_mem _ hmem
          refine (Range.safe_normalize hhead.1.blend ratio).bind fun share => ?_
          exact ((h _ hlink).safe_eval x).bind fun z => .pure _

end Links

end Easing
