import Easing.Proofs.Number.Rational

/-! # Ranges in unit coordinates

In exact arithmetic a range is the unit interval in other units. A number is in
the range, below it or above it exactly if its place is in the unit interval or
outside on the same side, and the turns that bring it back are as many. A range
that is counted downwards has its sides exchanged: below it are the places above
one. Wrapping on both sides or on neither does not see the difference.
-/

namespace Easing

/-- Without reports, what is left of bringing a number into a range. -/
theorem Range.check_of_silent {α : Type} [Scalar α] {r : Range α} (h : r.onExceed = .silent)
    (x : α) :
    r.check x =
      if x < r.low then
        if r.repeats.wrapsBelow then
          (fun n : Int => x + (n : α) * (r.high - r.low)) <$> .ofEval (r.turns (r.low - x))
        else pure r.low
      else if r.high < x then
        if r.repeats.wrapsAbove then
          (fun n : Int => x - (n : α) * (r.high - r.low)) <$> .ofEval (r.turns (x - r.high))
        else pure r.high
      else pure x := by
  have hreport : r.report x = pure () := by simp only [report, h]
  simp only [check, hreport, pure_bind, map_eq_pure_bind]

variable [Elementary ℚ]

namespace Rational

theorem low_eq (r : Range ℚ) : r.low = min r.start r.stop := by
  change (if r.stop < r.start then r.stop else r.start) = _
  rw [min_def]
  split <;> split <;> linarith

theorem high_eq (r : Range ℚ) : r.high = max r.start r.stop := by
  change (if r.start < r.stop then r.stop else r.start) = _
  rw [max_def]
  split <;> split <;> linarith

theorem width_eq (r : Range ℚ) : r.high - r.low = |r.span| := by
  rw [low_eq, high_eq, max_sub_min_eq_abs]
  rfl

variable {r : Range ℚ}

theorem span_ne_zero (h : r.start ≠ r.stop) : r.span ≠ 0 := sub_ne_zero.mpr h.symm

theorem divide_eq {x y : ℚ} (h : y ≠ 0) : Scalar.divide x y = .ok (x / y) :=
  if_neg (by simpa using h)

theorem turns_eq (h : r.start ≠ r.stop) (distance : ℚ) :
    r.turns distance = Scalar.ceiling (distance / |r.span|) := by
  unfold Range.turns
  rw [width_eq, divide_eq (abs_ne_zero.mpr (span_ne_zero h))]
  rfl

theorem check_eq (hne : r.start ≠ r.stop) (hsilent : r.onExceed = .silent) (x : ℚ) :
    r.check x =
      if x < min r.start r.stop then
        if r.repeats.wrapsBelow then
          (fun n : Int => x + n * |r.span|) <$>
            .ofEval (Scalar.ceiling ((min r.start r.stop - x) / |r.span|))
        else pure (min r.start r.stop)
      else if max r.start r.stop < x then
        if r.repeats.wrapsAbove then
          (fun n : Int => x - n * |r.span|) <$>
            .ofEval (Scalar.ceiling ((x - max r.start r.stop) / |r.span|))
        else pure (max r.start r.stop)
      else pure x := by
  rw [Range.check_of_silent hsilent, turns_eq hne, turns_eq hne, width_eq, low_eq, high_eq]

theorem check_unit (repeats : RepeatPolicy) (u : ℚ) :
    (Range.unit repeats .silent : Range ℚ).check u =
      if u < 0 then
        if repeats.wrapsBelow then
          (fun n : Int => u + n) <$> .ofEval (Scalar.ceiling (-u))
        else pure 0
      else if 1 < u then
        if repeats.wrapsAbove then
          (fun n : Int => u - n) <$> .ofEval (Scalar.ceiling (u - 1))
        else pure 1
      else pure u := by
  have hspan : |(Range.unit repeats .silent : Range ℚ).span| = 1 := by
    change |(1 : ℚ) - 0| = 1
    norm_num
  have hmin : min (Range.unit repeats .silent : Range ℚ).start
      (Range.unit repeats .silent : Range ℚ).stop = 0 := min_eq_left zero_le_one
  have hmax : max (Range.unit repeats .silent : Range ℚ).start
      (Range.unit repeats .silent : Range ℚ).stop = 1 := max_eq_right zero_le_one
  rw [check_eq (by exact zero_ne_one) rfl, hspan, hmin, hmax]
  simp only [mul_one, div_one, zero_sub]
  rfl

theorem fromUnit_eq (r : Range ℚ) (u : ℚ) : r.fromUnit u = r.start + u * r.span := rfl

theorem check_fromUnit_of_lt (hlt : r.start < r.stop) (hsilent : r.onExceed = .silent) (u : ℚ) :
    r.check (r.fromUnit u) =
      r.fromUnit <$> (Range.unit r.repeats .silent : Range ℚ).check u := by
  have hpos : 0 < r.span := sub_pos.mpr hlt
  have hstop : r.stop = r.start + r.span := (add_sub_cancel r.start r.stop).symm
  have hlow : r.fromUnit u < r.start ↔ u < 0 := by
    rw [fromUnit_eq, add_lt_iff_neg_left, mul_neg_iff]
    constructor
    · rintro (⟨_, h⟩ | ⟨h, _⟩)
      · exact absurd h hpos.not_gt
      · exact h
    · exact fun h => .inr ⟨h, hpos⟩
  have hhigh : r.stop < r.fromUnit u ↔ 1 < u := by
    rw [fromUnit_eq, hstop, add_lt_add_iff_left, lt_mul_iff_one_lt_left hpos]
  have hbelow : (r.start - r.fromUnit u) / r.span = -u := by
    rw [fromUnit_eq]
    field_simp
    ring
  have habove : (r.fromUnit u - r.stop) / r.span = u - 1 := by
    rw [fromUnit_eq, hstop]
    field_simp
    ring
  rw [check_eq hlt.ne hsilent, check_unit, min_eq_left hlt.le, max_eq_right hlt.le,
    abs_of_pos hpos, hbelow, habove]
  simp only [hlow, hhigh]
  split
  · split
    · rw [Functor.map_map]
      congr 1
      funext n
      simp only [fromUnit_eq]
      ring
    · simp [fromUnit_eq]
  · split
    · split
      · rw [Functor.map_map]
        congr 1
        funext n
        simp only [fromUnit_eq]
        ring
      · simp [fromUnit_eq, hstop]
    · rw [map_pure]

/-- The bounds of a range in the other order. -/
def reversed (r : Range ℚ) : Range ℚ := { r with start := r.stop, stop := r.start }

theorem check_reversed (hne : r.start ≠ r.stop) (hsilent : r.onExceed = .silent) (x : ℚ) :
    (reversed r).check x = r.check x := by
  have hspan : |(reversed r).span| = |r.span| := abs_sub_comm r.start r.stop
  rw [check_eq (r := reversed r) hne.symm hsilent, check_eq hne hsilent, hspan]
  simp only [reversed, min_comm r.stop, max_comm r.stop]

theorem fromUnit_reversed (r : Range ℚ) (u : ℚ) : (reversed r).fromUnit (1 - u) = r.fromUnit u := by
  simp only [fromUnit_eq, reversed, Range.span]
  ring

theorem check_unit_one_sub {repeats : RepeatPolicy} (h : repeats = .none ∨ repeats = .both)
    (u : ℚ) :
    (Range.unit repeats .silent : Range ℚ).check (1 - u) =
      (1 - ·) <$> (Range.unit repeats .silent : Range ℚ).check u := by
  have hsides : repeats.wrapsBelow = repeats.wrapsAbove := by
    rcases h with rfl | rfl <;> rfl
  have hbelow : 1 - u < 0 ↔ 1 < u := sub_neg
  have habove : 1 < 1 - u ↔ u < 0 := by constructor <;> intro _ <;> linarith
  have hdown : -(1 - u) = u - 1 := neg_sub 1 u
  have hup : 1 - u - 1 = -u := by ring
  rw [check_unit, check_unit, hdown, hup, hsides]
  simp only [hbelow, habove]
  -- What is below the interval becomes what is above it, and the other way round.
  by_cases hu : u < 0
  · have hnot : ¬ 1 < u := by linarith
    simp only [hu, hnot, ↓reduceIte]
    split
    · rw [Functor.map_map]
      congr 1
      funext n
      ring
    · simp
  · simp only [hu, ↓reduceIte]
    split
    · split
      · rw [Functor.map_map]
        congr 1
        funext n
        ring
      · simp
    · rw [map_pure]

/-- Bringing a number into a range is bringing its place into the unit interval.
For a range that is counted downwards the two sides are exchanged, so that both or
neither have to wrap around. -/
theorem check_fromUnit (hne : r.start ≠ r.stop) (hsilent : r.onExceed = .silent)
    (hrepeats : r.start < r.stop ∨ r.repeats = .none ∨ r.repeats = .both) (u : ℚ) :
    r.check (r.fromUnit u) =
      r.fromUnit <$> (Range.unit r.repeats .silent : Range ℚ).check u := by
  rcases lt_or_gt_of_ne hne with hlt | hlt
  · exact check_fromUnit_of_lt hlt hsilent u
  · have hsymmetric := hrepeats.resolve_left hlt.not_gt
    rw [← check_reversed hne hsilent, ← fromUnit_reversed r u,
      check_fromUnit_of_lt (r := reversed r) hlt hsilent]
    change _ <$> (Range.unit r.repeats .silent : Range ℚ).check (1 - u) = _
    rw [check_unit_one_sub hsymmetric, Functor.map_map]
    simp only [fromUnit_reversed]

theorem normalize_eq (hne : r.start ≠ r.stop) (x : ℚ) :
    r.normalize x = r.toUnit <$> r.check x := by
  unfold Range.normalize
  rw [map_eq_pure_bind]
  congr 1
  funext y
  rw [divide_eq (span_ne_zero hne)]
  rfl

theorem toUnit_fromUnit (hne : r.start ≠ r.stop) (u : ℚ) : r.toUnit (r.fromUnit u) = u :=
  Scalar.Exact.toUnit_fromUnit (checkBounds_eq_ok_iff.mpr hne) u

theorem toUnit_unit (repeats : RepeatPolicy) (onExceed : ExceedAction) (u : ℚ) :
    (Range.unit repeats onExceed : Range ℚ).toUnit u = u := by
  change (u - 0) / (1 - 0) = u
  rw [sub_zero, sub_zero, div_one]

theorem fromUnit_unit (repeats : RepeatPolicy) (onExceed : ExceedAction) (u : ℚ) :
    (Range.unit repeats onExceed : Range ℚ).fromUnit u = u := by
  change 0 + u * (1 - 0) = u
  rw [sub_zero, mul_one, zero_add]

/-- A number has the place in its range that its place has in the unit interval. -/
theorem normalize_fromUnit (hne : r.start ≠ r.stop) (hsilent : r.onExceed = .silent)
    (hrepeats : r.start < r.stop ∨ r.repeats = .none ∨ r.repeats = .both) (u : ℚ) :
    r.normalize (r.fromUnit u) = (Range.unit r.repeats .silent : Range ℚ).normalize u := by
  have hback : (fun place => r.toUnit (r.fromUnit place)) =
      (Range.unit r.repeats .silent : Range ℚ).toUnit := by
    funext place
    rw [toUnit_fromUnit hne, toUnit_unit]
  rw [normalize_eq hne, normalize_eq (by exact zero_ne_one), check_fromUnit hne hsilent hrepeats,
    Functor.map_map, hback]

end Rational

end Easing
