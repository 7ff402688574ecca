import Easing.Proofs.Range.Coordinates

/-! # Bringing numbers into a range

In exact arithmetic, and without reports, every number is brought into the range:
onto the bound that it is beyond, or by so many widths that it comes to lie between
the bounds. A range that holds the numbers on both sides never moves two numbers
apart.
-/

namespace Easing.Rational

variable [Elementary ℚ]

theorem truncate_eq (x : ℚ) : Scalar.truncate x = .ok (if 0 ≤ x then ⌊x⌋ else ⌈x⌉) := by
  have htruncate : Scalar.truncate x = .ok (x.num.tdiv x.den) := rfl
  rw [htruncate, Except.ok.injEq]
  split
  next hx => rw [Rat.floor_def', Int.tdiv_eq_ediv_of_nonneg (Rat.num_nonneg.mpr hx)]
  next hx =>
    have hneg : x.num < 0 := Rat.num_neg.mpr (not_le.mp hx)
    rw [Rat.ceil_def', ← Int.tdiv_eq_ediv_of_nonneg (by omega), Int.neg_tdiv, neg_neg]

/-- The integer part of a number that is not negative is the integer below it. -/
theorem truncate_of_nonneg {x : ℚ} (h : 0 ≤ x) : Scalar.truncate x = .ok ⌊x⌋ := by
  rw [truncate_eq, if_pos h]

omit [Elementary ℚ] in
/-- The ceiling of a number is its floor, or the integer after that. -/
theorem floor_step (x : ℚ) : (if (⌊x⌋ : ℚ) < x then ⌊x⌋ + 1 else ⌊x⌋) = ⌈x⌉ := by
  symm
  split
  next hlt =>
    rw [Int.ceil_eq_iff]
    have := Int.lt_floor_add_one x
    push_cast
    constructor <;> linarith
  next hge =>
    rw [Int.ceil_eq_iff]
    have := Int.floor_le x
    constructor <;> linarith

theorem ceiling_eq (x : ℚ) : Scalar.ceiling x = .ok ⌈x⌉ := by
  have hceiling : Scalar.ceiling x =
      Scalar.truncate x >>= fun n => pure (if (n : ℚ) < x then n + 1 else n) := rfl
  rw [hceiling, truncate_eq]
  change Except.ok _ = Except.ok _
  rw [Except.ok.injEq]
  by_cases hx : 0 ≤ x
  · rw [if_pos hx, floor_step]
  · rw [if_neg hx, if_neg (not_lt.mpr (Int.le_ceil x))]

/-- The number of a range that a number is brought to. -/
def fold (r : Range ℚ) (x : ℚ) : ℚ :=
  if x < min r.start r.stop then
    if r.repeats.wrapsBelow then x + ⌈(min r.start r.stop - x) / |r.span|⌉ * |r.span|
    else min r.start r.stop
  else if max r.start r.stop < x then
    if r.repeats.wrapsAbove then x - ⌈(x - max r.start r.stop) / |r.span|⌉ * |r.span|
    else max r.start r.stop
  else x

variable {r : Range ℚ}

theorem check_eq_pure (hne : r.start ≠ r.stop) (hsilent : r.onExceed = .silent) (x : ℚ) :
    r.check x = pure (fold r x) := by
  rw [check_eq hne hsilent, ceiling_eq, ceiling_eq]
  unfold fold
  split
  · split <;> rfl
  · split
    · split <;> rfl
    · rfl

theorem min_add_abs_span (r : Range ℚ) : min r.start r.stop + |r.span| = max r.start r.stop := by
  have hspan : max r.start r.stop - min r.start r.stop = |r.span| := max_sub_min_eq_abs _ _
  linarith

omit [Elementary ℚ] in
/-- So many widths as cover a distance exceed it by less than one width. -/
theorem ceil_mul_bounds {width : ℚ} (hpos : 0 < width) (distance : ℚ) :
    distance ≤ ⌈distance / width⌉ * width ∧
      ⌈distance / width⌉ * width < distance + width := by
  constructor
  · rw [← div_le_iff₀ hpos]
    exact Int.le_ceil _
  · have hlt : (⌈distance / width⌉ : ℚ) < distance / width + 1 := Int.ceil_lt_add_one _
    calc (⌈distance / width⌉ : ℚ) * width
        < (distance / width + 1) * width := mul_lt_mul_of_pos_right hlt hpos
      _ = distance + width := by rw [add_mul, div_mul_cancel₀ _ hpos.ne', one_mul]

theorem le_turns_mul (hne : r.start ≠ r.stop) (distance : ℚ) :
    distance ≤ ⌈distance / |r.span|⌉ * |r.span| ∧
      ⌈distance / |r.span|⌉ * |r.span| < distance + |r.span| :=
  ceil_mul_bounds (abs_pos.mpr (span_ne_zero hne)) distance

/-- A number that is brought into a range lies between its bounds. -/
theorem fold_mem (hne : r.start ≠ r.stop) (x : ℚ) :
    min r.start r.stop ≤ fold r x ∧ fold r x ≤ max r.start r.stop := by
  have hwidth := min_add_abs_span r
  have hle : min r.start r.stop ≤ max r.start r.stop := min_le_max
  unfold fold
  split
  next hbelow =>
    split
    · obtain ⟨hcover, hexcess⟩ := le_turns_mul hne (min r.start r.stop - x)
      constructor <;> linarith
    · exact ⟨le_refl _, hle⟩
  next hnotBelow =>
    split
    next habove =>
      split
      · obtain ⟨hcover, hexcess⟩ := le_turns_mul hne (x - max r.start r.stop)
        constructor <;> linarith
      · exact ⟨hle, le_refl _⟩
    next hnotAbove => exact ⟨not_lt.mp hnotBelow, not_lt.mp hnotAbove⟩

/-- The place of a number between the bounds of a range is in the unit interval,
whichever of the bounds comes first. -/
theorem toUnit_mem {y : ℚ} (hlow : min r.start r.stop ≤ y) (hhigh : y ≤ max r.start r.stop) :
    0 ≤ r.toUnit y ∧ r.toUnit y ≤ 1 := by
  change 0 ≤ (y - r.start) / (r.stop - r.start) ∧ (y - r.start) / (r.stop - r.start) ≤ 1
  rcases le_total r.start r.stop with hle | hle
  · rw [min_eq_left hle] at hlow
    rw [max_eq_right hle] at hhigh
    exact ⟨div_nonneg (by linarith) (by linarith), div_le_one_of_le₀ (by linarith) (by linarith)⟩
  · rw [min_eq_right hle] at hlow
    rw [max_eq_left hle] at hhigh
    exact ⟨div_nonneg_of_nonpos (by linarith) (by linarith),
      div_le_one_of_ge (by linarith) (by linarith)⟩

/-- Nothing is reported about a number between the bounds of a range. -/
theorem check_of_mem {x : ℚ} (hlow : r.low ≤ x) (hhigh : x ≤ r.high) : r.check x = pure x := by
  unfold Range.check
  rw [if_neg (not_lt.mpr hlow), if_neg (not_lt.mpr hhigh)]

theorem fromUnit_mem {u : ℚ} (hlow : 0 ≤ u) (hhigh : u ≤ 1) :
    r.low ≤ r.fromUnit u ∧ r.fromUnit u ≤ r.high := by
  have hspan : r.fromUnit u = r.start + u * (r.stop - r.start) := rfl
  rw [low_eq, high_eq, hspan]
  rcases le_total r.start r.stop with hle | hle
  · rw [min_eq_left hle, max_eq_right hle]
    constructor <;> nlinarith
  · rw [min_eq_right hle, max_eq_left hle]
    constructor <;> nlinarith

/-- Every number has a place in the unit interval. -/
theorem exists_normalize (hne : r.start ≠ r.stop) (hsilent : r.onExceed = .silent) (x : ℚ) :
    ∃ place, r.normalize x = pure place ∧ 0 ≤ place ∧ place ≤ 1 := by
  obtain ⟨hlow, hhigh⟩ := fold_mem hne x
  refine ⟨r.toUnit (fold r x), ?_, toUnit_mem hlow hhigh⟩
  rw [normalize_eq hne, check_eq_pure hne hsilent, map_pure]

/-- A range that never wraps holds a number at the bound that it is beyond. -/
theorem fold_of_held (hheld : r.repeats = .none) (x : ℚ) :
    fold r x = min (max x (min r.start r.stop)) (max r.start r.stop) := by
  have hbelow : r.repeats.wrapsBelow = false := by rw [hheld]; rfl
  have habove : r.repeats.wrapsAbove = false := by rw [hheld]; rfl
  have hle : min r.start r.stop ≤ max r.start r.stop := min_le_max
  simp only [fold, hbelow, habove, Bool.false_eq_true, ↓reduceIte]
  split
  next hlt => rw [max_eq_right hlt.le, min_eq_left hle]
  next hge =>
    rw [max_eq_left (not_lt.mp hge)]
    split
    next hgt => rw [min_eq_right hgt.le]
    next hle => rw [min_eq_left (not_lt.mp hle)]

/-- A range that never wraps does not move two numbers apart. -/
theorem abs_fold_sub_fold_le (hheld : r.repeats = .none) (x y : ℚ) :
    |fold r x - fold r y| ≤ |x - y| := by
  rw [fold_of_held hheld, fold_of_held hheld]
  calc |min (max x (min r.start r.stop)) (max r.start r.stop)
        - min (max y (min r.start r.stop)) (max r.start r.stop)|
      ≤ |max x (min r.start r.stop) - max y (min r.start r.stop)| := by
        simpa using abs_min_sub_min_le_max (max x (min r.start r.stop)) (max r.start r.stop)
          (max y (min r.start r.stop)) (max r.start r.stop)
    _ ≤ |x - y| := abs_max_sub_max_le_abs x y _

end Easing.Rational
