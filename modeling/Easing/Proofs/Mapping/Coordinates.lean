import Easing.Proofs.Range.Coordinates

/-! # Links in unit coordinates

A line through two samples is moved along with them, so a table in the units of a
range is looked up as the table in unit coordinates is, and its value moved. A
link with ranges of its own therefore does what the link of the unit interval
does: it takes a number to its place, the place to a value, and the value to its
number in the output range.
-/

namespace Easing

theorem Samples.get_map {α β : Type} (f : α → β) (samples : Array α) (position : Int) :
    Samples.get (samples.map f) position = f <$> Samples.get samples position := by
  simp only [get, Array.size_map]
  split
  · split
    · simp
    · rfl
  · rfl

theorem Outcome.ofEval_map {α β γ : Type} (f : β → γ) (result : Except EvalFault β) :
    (ofEval (f <$> result) : Outcome α γ) = f <$> ofEval result := by
  cases result <;> rfl

/-- What a link answers depends on its curve, its ranges and its table alone. -/
theorem Link.eval_congr {α : Type} [Scalar α] {link other : Link α}
    (hexpression : other.expression = link.expression)
    (hinput : other.input = link.input) (houtput : other.output = link.output)
    (htable : other.table = link.table) (x : α) : other.eval x = link.eval x := by
  unfold Link.eval
  rw [hexpression, hinput, houtput, htable]

variable [Elementary ℚ]

namespace Rational

theorem line_map_fromUnit (r : Range ℚ) (samples : Array ℚ) (position : Int) (along : ℚ) :
    Samples.line (samples.map r.fromUnit) position along =
      r.fromUnit <$> Samples.line samples position along := by
  unfold Samples.line
  rw [Samples.get_map, Samples.get_map]
  cases Samples.get samples position with
  | error f => rfl
  | ok left =>
      cases Samples.get samples (position + 1) with
      | error f => rfl
      | ok right =>
          change Except.ok (r.fromUnit left + (along - (position : ℚ)) *
              (r.fromUnit right - r.fromUnit left)) =
            Except.ok (r.fromUnit (left + (along - (position : ℚ)) * (right - left)))
          rw [Except.ok.injEq]
          simp only [fromUnit_eq]
          ring

/-- A table that is moved from the unit interval into a range has moved values. -/
theorem eval_rescale (table : Table ℚ) (repeats : RepeatPolicy) (onExceed : ExceedAction)
    (r : Range ℚ) (x : ℚ) :
    (table.rescale (Range.unit repeats onExceed) r).eval x = r.fromUnit <$> table.eval x := by
  have hsamples : (table.rescale (Range.unit repeats onExceed) r).samples =
      table.samples.map r.fromUnit := by
    simp only [Table.rescale, toUnit_unit]
  have hresolution : (table.rescale (Range.unit repeats onExceed) r).resolution =
      table.resolution := rfl
  have heval : ∀ t : Table ℚ, t.eval x = Scalar.truncate (x * (t.resolution : ℚ)) >>= fun n =>
      Samples.line t.samples (min (max n 0) t.resolution) (x * (t.resolution : ℚ)) :=
    fun _ => rfl
  rw [heval, heval, hsamples, hresolution, map_bind]
  congr 1
  funext n
  exact line_map_fromUnit r table.samples _ _

end Rational

/-- Two links of one expression, the second with the unit interval for its ranges
and with a table exactly if the first has one, which is then the moved table. -/
structure Link.UnitForm (link base : Link ℚ) : Prop where
  expression : base.expression = link.expression
  input : base.input = .unit link.input.repeats .silent
  output : base.output = .unit .none .silent
  table : link.table = base.table.map fun table => table.rescale (.unit .none .silent) link.output

/-- A link takes a place of its input range to the place of its output range to
which the unit form takes it. -/
theorem Link.UnitForm.eval {link base : Link ℚ} (h : link.UnitForm base)
    (hinput : link.input.start ≠ link.input.stop) (houtput : link.output.start ≠ link.output.stop)
    (hin : link.input.onExceed = .silent) (hout : link.output.onExceed = .silent)
    (hheld : link.output.repeats = .none)
    (hrepeats : link.input.start < link.input.stop ∨
      link.input.repeats = .none ∨ link.input.repeats = .both) (u : ℚ) :
    link.eval (link.input.fromUnit u) = link.output.fromUnit <$> base.eval u := by
  have hcheck : ∀ y, link.output.check (link.output.fromUnit y) =
      link.output.fromUnit <$> base.output.check y := by
    intro y
    rw [h.output, ← hheld]
    exact Rational.check_fromUnit houtput hout (.inr (.inl hheld)) y
  unfold Link.eval
  rw [Rational.normalize_fromUnit hinput hin hrepeats, ← h.input, map_bind, h.table, h.expression]
  congr 1
  funext place
  cases htable : base.table with
  | none =>
      simp only [Option.map_none, map_bind]
      congr 1
      funext y
      have hunit : base.output.denormalize y = base.output.check y := by
        rw [h.output]
        exact congrArg _ (Rational.fromUnit_unit .none .silent y)
      rw [hunit]
      exact hcheck y
  | some table =>
      simp only [Option.map_some, map_bind]
      rw [Rational.eval_rescale, Outcome.ofEval_map, bind_map_left]
      congr 1
      funext y
      exact hcheck y

end Easing
