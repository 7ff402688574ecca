import Easing.Proofs.Number.Rounded
import Easing.Proofs.Session.Tables
import Easing.Transform.Resolve

/-! # Curves of straight pieces

Peaks, plateaus, ramps and reflections are glued together from straight lines, and which
line is taken is decided by comparisons. In exact arithmetic the pieces fit: the curves
have no jumps, rise and fall where they are meant to, and reach their top nowhere else. This
holds up to the last parameters that are accepted, where a piece is empty.
-/

namespace Easing

/-- For arguments that are accepted and draw nothing a transform is a function. -/
def Transform.Gives {α : Type} [Scalar α] (t : Transform) (arguments : List α) (f : α → α) :
    Prop :=
  ∃ parameters, t.resolve arguments = pure parameters ∧
    ∀ x, t.eval parameters x = .ok (f x)

theorem Transform.gives_of_accepted {α : Type} [Scalar α] {t : Transform} {arguments : List α}
    {parameters : Array α} {f : α → α} (haccepted : t.rejected? arguments = .ok none)
    (hresolve : t.resolveAccepted arguments = pure parameters)
    (heval : ∀ x, t.eval parameters x = .ok (f x)) : t.Gives arguments f := by
  refine ⟨parameters, ?_, heval⟩
  funext g
  unfold resolve
  rw [haccepted, ← hresolve]
  rfl

namespace Rational

open Set

/-! ## Peaks -/

/-- A curve without jumps that rises up to a peak of one and falls behind it, and that does
not leave the unit interval above it. -/
structure Peaks (f : ℚ → ℚ) (p : ℚ) : Prop where
  continuous : Continuous f
  within : ∀ x ∈ Icc (0 : ℚ) 1, f x ∈ Icc (0 : ℚ) 1
  top : ∀ x, f x = 1 ↔ x = p
  rises : StrictMonoOn f (Iic p)
  falls : StrictAntiOn f (Ici p)

/-- What rises up to one and falls behind it is one nowhere else, and it is least at the
ends. -/
theorem Peaks.of_slopes {f : ℚ → ℚ} {p : ℚ} (hp : p ∈ Icc (0 : ℚ) 1) (hcontinuous : Continuous f)
    (hrises : StrictMonoOn f (Iic p)) (hfalls : StrictAntiOn f (Ici p)) (htop : f p = 1)
    (hfirst : 0 ≤ f 0) (hlast : 0 ≤ f 1) : Peaks f p where
  continuous := hcontinuous
  rises := hrises
  falls := hfalls
  within := by
    intro x hx
    rcases le_total x p with hle | hge
    · have hlow := hrises.monotoneOn hp.1 hle hx.1
      have hhigh := hrises.monotoneOn hle self_mem_Iic hle
      exact ⟨hfirst.trans hlow, hhigh.trans_eq htop⟩
    · have hlow := hfalls.antitoneOn hge hp.2 hx.2
      have hhigh := hfalls.antitoneOn self_mem_Ici hge hge
      exact ⟨hlast.trans hlow, hhigh.trans_eq htop⟩
  top := by
    intro x
    constructor
    · intro hx
      rcases lt_trichotomy x p with hlt | heq | hgt
      · have hbelow := hrises hlt.le self_mem_Iic hlt
        exact absurd (hx.trans htop.symm) hbelow.ne
      · exact heq
      · have hbelow := hfalls self_mem_Ici hgt.le hgt
        exact absurd (hx.trans htop.symm) hbelow.ne
    · rintro rfl
      exact htop

section Pointed

variable {p x : ℚ} (hpos : 0 < p) (hlt : p < 1)

/-- Two slopes from the ends of the unit interval, of which the lower one counts. -/
def tent (p x : ℚ) : ℚ := min (x / p) ((1 - x) / (1 - p))

include hpos hlt

theorem tent_of_le (h : x ≤ p) : tent p x = x / p := by
  have hrest : 0 < 1 - p := sub_pos.mpr hlt
  apply min_eq_left
  calc x / p ≤ 1 := (div_le_one hpos).mpr h
    _ ≤ (1 - x) / (1 - p) := (one_le_div hrest).mpr (by linarith)

theorem tent_of_ge (h : p ≤ x) : tent p x = (1 - x) / (1 - p) := by
  have hrest : 0 < 1 - p := sub_pos.mpr hlt
  apply min_eq_right
  calc (1 - x) / (1 - p) ≤ 1 := (div_le_one hrest).mpr (by linarith)
    _ ≤ x / p := (one_le_div hpos).mpr h

theorem peaks_tent : Peaks (tent p) p := by
  have hrest : 0 < 1 - p := sub_pos.mpr hlt
  refine .of_slopes ⟨hpos.le, hlt.le⟩ ?continuous ?rises ?falls ?top ?first ?last
  case continuous =>
    unfold tent
    fun_prop
  case rises =>
    intro x hx y hy hxy
    rw [tent_of_le hpos hlt hx, tent_of_le hpos hlt hy]
    exact div_lt_div_of_pos_right hxy hpos
  case falls =>
    intro x hx y hy hxy
    rw [tent_of_ge hpos hlt hx, tent_of_ge hpos hlt hy]
    exact div_lt_div_of_pos_right (by linarith) hrest
  case top =>
    rw [tent_of_le hpos hlt le_rfl]
    exact div_self hpos.ne'
  case first =>
    rw [tent_of_le hpos hlt hpos.le, zero_div]
  case last =>
    rw [tent_of_ge hpos hlt hlt.le, sub_self, zero_div]

end Pointed

section Peaked

variable {p x : ℚ}

/-- Two slopes of equal steepness on either side of a peak. -/
def roof (p x : ℚ) : ℚ := 1 - |x - p| / max p (1 - p)

/-- The longer slope is not empty. -/
theorem longer_pos (p : ℚ) : 0 < max p (1 - p) := by
  rcases le_total p (1 - p) with h | h
  · rw [max_eq_right h]
    linarith
  · rw [max_eq_left h]
    linarith

theorem roof_of_le (h : x ≤ p) : roof p x = 1 - (p - x) / max p (1 - p) := by
  rw [roof, abs_of_nonpos (sub_nonpos.mpr h), neg_sub]

theorem roof_of_ge (h : p ≤ x) : roof p x = 1 - (x - p) / max p (1 - p) := by
  rw [roof, abs_of_nonneg (sub_nonneg.mpr h)]

theorem peaks_roof (hpos : 0 < p) (hlt : p < 1) : Peaks (roof p) p := by
  have hlonger := longer_pos p
  refine .of_slopes ⟨hpos.le, hlt.le⟩ ?continuous ?rises ?falls ?top ?first ?last
  case continuous =>
    unfold roof
    fun_prop
  case rises =>
    intro x hx y hy hxy
    rw [roof_of_le hx, roof_of_le hy]
    have hcloser : (p - y) / max p (1 - p) < (p - x) / max p (1 - p) :=
      div_lt_div_of_pos_right (by linarith) hlonger
    linarith
  case falls =>
    intro x hx y hy hxy
    rw [roof_of_ge hx, roof_of_ge hy]
    have hfarther : (x - p) / max p (1 - p) < (y - p) / max p (1 - p) :=
      div_lt_div_of_pos_right (by linarith) hlonger
    linarith
  case top => rw [roof, sub_self, abs_zero, zero_div, sub_zero]
  case first =>
    rw [roof_of_le hpos.le, sub_zero, sub_nonneg, div_le_one hlonger]
    exact le_max_left _ _
  case last =>
    rw [roof_of_ge hlt.le, sub_nonneg, div_le_one hlonger]
    exact le_max_right _ _

/-- The slope on the longer side ends at zero. -/
theorem roof_zero (hpos : 0 < p) (hright : 1 / 2 ≤ p) : roof p 0 = 0 := by
  rw [roof_of_le hpos.le, sub_zero, max_eq_left (by linarith), div_self hpos.ne', sub_self]

theorem roof_one (hlt : p < 1) (hleft : p ≤ 1 / 2) : roof p 1 = 0 := by
  rw [roof_of_ge hlt.le, max_eq_right (by linarith), div_self (by linarith), sub_self]

end Peaked

/-! ## Plateaus -/

/-- A curve without jumps in the unit interval that is one between two numbers, rises up to
the first of them and falls behind the second. -/
structure Levels (f : ℚ → ℚ) (low high : ℚ) : Prop where
  continuous : ContinuousOn f (Icc 0 1)
  top : ∀ x, f x = 1 ↔ x ∈ Icc low high
  rises : StrictMonoOn f (Icc 0 low)
  falls : StrictAntiOn f (Icc high 1)

section Levels

variable {low high x : ℚ}

/-- A slope up to a plateau and one behind it. A slope that has no width is not there
inside the unit interval, and zero outside. -/
def plateau (low high x : ℚ) : ℚ :=
  if x < low then if low = 0 then 0 else x / low
  else if high < x then if high = 1 then 0 else (1 - x) / (1 - high)
  else 1

/-- The slope up to a plateau, continued beyond it. -/
def ascent (low x : ℚ) : ℚ := if low = 0 then 1 else x / low

/-- The slope behind a plateau, continued back before it. -/
def descent (high x : ℚ) : ℚ := if high = 1 then 1 else (1 - x) / (1 - high)

theorem plateau_of_lt (hx : 0 ≤ x) (h : x < low) : plateau low high x = x / low := by
  rw [plateau, if_pos h, if_neg (by linarith)]

theorem plateau_of_gt (hle : low ≤ high) (hx : x ≤ 1) (h : high < x) :
    plateau low high x = (1 - x) / (1 - high) := by
  rw [plateau, if_neg (by linarith), if_pos h, if_neg (by linarith)]

theorem plateau_of_mem (h : x ∈ Icc low high) : plateau low high x = 1 := by
  rw [plateau, if_neg (not_lt.mpr h.1), if_neg (not_lt.mpr h.2)]

/-- Below the plateau the curve is below one, whether it has a slope there or not. -/
theorem plateau_lt_one_of_lt (hlow : 0 ≤ low) (h : x < low) : plateau low high x < 1 := by
  rw [plateau, if_pos h]
  split
  · exact zero_lt_one
  next hne => exact (div_lt_one (lt_of_le_of_ne hlow (Ne.symm hne))).mpr h

theorem plateau_lt_one_of_gt (hle : low ≤ high) (hhigh : high ≤ 1) (h : high < x) :
    plateau low high x < 1 := by
  rw [plateau, if_neg (by linarith), if_pos h]
  split
  · exact zero_lt_one
  next hne =>
    have hrest : 0 < 1 - high := sub_pos.mpr (lt_of_le_of_ne hhigh hne)
    exact (div_lt_one hrest).mpr (by linarith)

/-- Over the unit interval the curve is the least of its three pieces. -/
theorem plateau_eq_min (hlow : 0 ≤ low) (hle : low ≤ high) (hhigh : high ≤ 1)
    (hx : x ∈ Icc (0 : ℚ) 1) :
    plateau low high x = min 1 (min (ascent low x) (descent high x)) := by
  have hascent (h : low ≤ x) : 1 ≤ ascent low x := by
    unfold ascent
    split
    · exact le_rfl
    next hne => exact (one_le_div (lt_of_le_of_ne hlow (Ne.symm hne))).mpr h
  have hdescent (h : x ≤ high) : 1 ≤ descent high x := by
    unfold descent
    split
    · exact le_rfl
    next hne =>
      have hrest : 0 < 1 - high := sub_pos.mpr (lt_of_le_of_ne hhigh hne)
      exact (one_le_div hrest).mpr (by linarith)
  rcases lt_or_ge x low with hbefore | hafter
  · have hslope : ascent low x = x / low := if_neg (by linarith [hx.1])
    have hbelow : x / low ≤ 1 := (div_le_one (by linarith [hx.1])).mpr hbefore.le
    rw [plateau_of_lt hx.1 hbefore, hslope, min_eq_left (hbelow.trans (hdescent (by linarith))),
      min_eq_right hbelow]
  · rcases lt_or_ge high x with hbehind | hinside
    · have hslope : descent high x = (1 - x) / (1 - high) := if_neg (by linarith [hx.2])
      have hbelow : (1 - x) / (1 - high) ≤ 1 :=
        (div_le_one (by linarith [hx.2])).mpr (by linarith)
      rw [plateau_of_gt hle hx.2 hbehind, hslope, min_eq_right (hbelow.trans (hascent hafter)),
        min_eq_right hbelow]
    · rw [plateau_of_mem ⟨hafter, hinside⟩,
        min_eq_left (le_min (hascent hafter) (hdescent hinside))]

theorem levels_plateau (hlow : 0 ≤ low) (hle : low ≤ high) (hhigh : high ≤ 1) :
    Levels (plateau low high) low high where
  continuous := by
    have hascent : Continuous (ascent low) := by
      unfold ascent
      split <;> fun_prop
    have hdescent : Continuous (descent high) := by
      unfold descent
      split <;> fun_prop
    have hmin : Continuous fun x => min 1 (min (ascent low x) (descent high x)) := by fun_prop
    exact hmin.continuousOn.congr fun x hx => plateau_eq_min hlow hle hhigh hx
  top := by
    intro x
    constructor
    · intro hx
      constructor
      · by_contra hbefore
        exact (plateau_lt_one_of_lt hlow (not_le.mp hbefore)).ne hx
      · by_contra hbehind
        exact (plateau_lt_one_of_gt hle hhigh (not_le.mp hbehind)).ne hx
    · exact plateau_of_mem
  rises := by
    intro x hx y hy hxy
    have hslope : x / low < y / low := div_lt_div_of_pos_right hxy (by linarith [hx.1, hy.2])
    rw [plateau_of_lt hx.1 (by linarith [hy.2])]
    rcases hy.2.lt_or_eq with hbefore | rfl
    · rwa [plateau_of_lt hy.1 hbefore]
    · rw [plateau_of_mem ⟨le_rfl, hle⟩]
      rwa [div_self (by linarith [hx.1])] at hslope
  falls := by
    intro x hx y hy hxy
    have hslope : (1 - y) / (1 - high) < (1 - x) / (1 - high) :=
      div_lt_div_of_pos_right (by linarith) (by linarith [hx.1, hy.2])
    rw [plateau_of_gt hle hy.2 (by linarith [hx.1])]
    rcases hx.1.lt_or_eq with hbehind | rfl
    · rwa [plateau_of_gt hle hx.2 hbehind]
    · rw [plateau_of_mem ⟨hle, le_rfl⟩]
      rwa [div_self (by linarith [hy.2])] at hslope

end Levels

/-! ## Ramps -/

/-- A slope from zero to one between two numbers, held at its ends. -/
def ramp (low high x : ℚ) : ℚ := max 0 (min 1 ((x - low) / (high - low)))

/-- A curve without jumps that goes up from zero to one between two numbers. -/
structure Ramps (f : ℚ → ℚ) (low high : ℚ) : Prop where
  continuous : Continuous f
  monotone : Monotone f
  before : ∀ x ≤ low, f x = 0
  behind : ∀ x, high ≤ x → f x = 1

theorem ramps_ramp {low high : ℚ} (hlt : low < high) : Ramps (ramp low high) low high where
  continuous := by
    unfold ramp
    fun_prop
  monotone := by
    have hwidth : 0 < high - low := sub_pos.mpr hlt
    intro x y hxy
    unfold ramp
    gcongr
  before := by
    intro x hx
    have hslope : (x - low) / (high - low) ≤ 0 :=
      div_nonpos_of_nonpos_of_nonneg (by linarith) (by linarith)
    rw [ramp, min_eq_right (hslope.trans zero_le_one), max_eq_left hslope]
  behind := by
    intro x hx
    have hslope : 1 ≤ (x - low) / (high - low) := (one_le_div (by linarith)).mpr (by linarith)
    rw [ramp, min_eq_left hslope, max_eq_right zero_le_one]

/-! ## What transforms compute -/

variable [Elementary ℚ]

/-- In exact arithmetic the part behind the point is the distance from the integer below. -/
theorem fract_eq (x : ℚ) : Scalar.fract x = Int.fract x := by
  obtain ⟨n, hn, hlow, hhigh⟩ : ∃ n : ℤ,
      Scalar.truncate x = .ok n ∧ -1 < x - n ∧ x - n < 1 := by
    refine ⟨_, truncate_eq x, ?_⟩
    split
    · exact ⟨by linarith [Int.floor_le x], by linarith [Int.lt_floor_add_one x]⟩
    · exact ⟨by linarith [Int.ceil_lt_add_one x], by linarith [Int.le_ceil x]⟩
  unfold Scalar.fract
  rw [hn]
  simp only [beq_iff_eq]
  symm
  rw [Int.fract_eq_iff]
  split
  next hzero => exact ⟨le_rfl, zero_lt_one, n, by linarith⟩
  next =>
    split
    next hneg => exact ⟨by linarith, by linarith, n - 1, by push_cast; ring⟩
    next hnonneg => exact ⟨not_lt.mp hnonneg, hhigh, n, by ring⟩

/-- A reflection is twice the distance from the nearest integer. -/
theorem reflected_eq (count x : ℚ) :
    Transform.reflected count x = 2 * |count * x - round (count * x)| := by
  have hhalf : (Scalar.half : ℚ) = 1 / 2 := Scalar.value_half (α := ℚ)
  have htwo : (Scalar.two : ℚ) = 2 := Scalar.value_two (α := ℚ)
  unfold Transform.reflected
  rw [fract_eq, abs_sub_round_eq_min, mul_comm count x, hhalf, htwo]
  simp only
  split
  next hleft => rw [min_eq_left (by linarith)]
  next hright => rw [min_eq_right (by linarith), mul_comm]

theorem pointed_eq {p : ℚ} (hpos : 0 < p) (hlt : p < 1) (x : ℚ) :
    Transform.pointed p x = .ok (tent p x) := by
  unfold Transform.pointed
  split
  next hbefore => rw [divide_eq hpos.ne', tent_of_le hpos hlt hbefore.le]
  next hbehind => rw [divide_eq (by linarith), tent_of_ge hpos hlt (not_lt.mp hbehind)]

theorem peaked_eq {p : ℚ} (hpos : 0 < p) (x : ℚ) :
    Transform.peaked p x = .ok (roof p x) := by
  have hhalf : (Scalar.half : ℚ) = 1 / 2 := Scalar.value_half (α := ℚ)
  have habs (y : ℚ) : Scalar.abs y = |y| := rfl
  unfold Transform.peaked
  rw [hhalf, habs, habs]
  split
  next hleft =>
    rw [divide_eq (by linarith), roof, max_eq_right (by linarith)]
    rfl
  next hright =>
    rw [divide_eq hpos.ne', roof, max_eq_left (by linarith), abs_sub_comm]
    rfl

theorem eval_trapez (low high x : ℚ) :
    Transform.eval .trapez #[low, high] x = .ok (plateau low high x) := by
  change (if x < low then if low == 0 then pure 0 else Scalar.divide x low else
    if high < x then if high == 1 then pure 0 else Scalar.divide (1 - x) (1 - high)
    else pure 1) = _
  simp only [beq_iff_eq, plateau]
  split
  · split
    · rfl
    next hne => rw [divide_eq hne]
  · split
    · split
      · rfl
      next hne => rw [divide_eq (sub_ne_zero.mpr (Ne.symm hne))]
    · rfl

theorem eval_narrow {low high : ℚ} (hlt : low < high) (x : ℚ) :
    Transform.eval .narrow #[low, high] x = .ok (ramp low high x) := by
  have hramps := ramps_ramp hlt
  change (if x < low then pure 0 else
    if high < x then pure 1 else Scalar.divide (x - low) (high - low)) = _
  split
  next hbefore => rw [hramps.before x hbefore.le]; rfl
  next hafter =>
    split
    next hbehind => rw [hramps.behind x hbehind.le]; rfl
    next hinside =>
      have hslope : (x - low) / (high - low) ≤ 1 := (div_le_one (by linarith)).mpr (by linarith)
      have hnonneg : 0 ≤ (x - low) / (high - low) := div_nonneg (by linarith) (by linarith)
      rw [divide_eq (by linarith), ramp, min_eq_right hslope, max_eq_right hnonneg]

/-- The transforms with a peak accept what is strictly inside the unit interval. -/
theorem rejected?_peak_iff {t : Transform} (ht : t = .peak ∨ t = .triangle) {p : ℚ} :
    t.rejected? [p] = .ok none ↔ 0 < p ∧ p < 1 := by
  have hrule : t.rejected? [p] = .ok (if 0 < p ∧ p < 1 then none else some p) := by
    rcases ht with rfl | rfl <;> rfl
  rw [hrule]
  split
  next h => simp [h]
  next h => simp [h]

theorem rejected?_narrow {low high : ℚ} (hne : low ≠ high) :
    Transform.rejected? .narrow [low, high] = .ok none := by
  change Except.ok (if low == high then some high else none) = _
  rw [if_neg (by simpa using hne)]

end Rational

namespace Transform

open Set

variable [Elementary ℚ]

theorem gives_triangle {p : ℚ} (haccepted : triangle.rejected? [p] = .ok none) :
    triangle.Gives [p] (Rational.tent p) := by
  obtain ⟨hpos, hlt⟩ := (Rational.rejected?_peak_iff (.inr rfl)).mp haccepted
  exact gives_of_accepted haccepted rfl (Rational.pointed_eq hpos hlt)

theorem gives_peak {p : ℚ} (haccepted : peak.rejected? [p] = .ok none) :
    peak.Gives [p] (Rational.roof p) := by
  obtain ⟨hpos, _⟩ := (Rational.rejected?_peak_iff (.inl rfl)).mp haccepted
  exact gives_of_accepted haccepted rfl (Rational.peaked_eq hpos)

/-- In exact arithmetic the curves of straight pieces have the shapes that they are named
for. With accepted parameters a triangle and a peak are one at their parameter alone and
lead up to it and down from it; the triangle starts and ends at zero, and the peak is as steep
on either side and reaches zero at the farther end. A trapezoid is one from its first
parameter to its second, in the unit interval, whichever of its slopes is empty. A narrowing
goes up from zero to one on the whole number line. A mirror is twice the distance of a
multiple from the nearest integer. -/
theorem shapes_are_joined :
    (∀ p : ℚ, triangle.rejected? [p] = .ok none →
      ∃ f, triangle.Gives [p] f ∧ Rational.Peaks f p ∧ f 0 = 0 ∧ f 1 = 0) ∧
    (∀ p : ℚ, peak.rejected? [p] = .ok none →
      ∃ f, peak.Gives [p] f ∧ Rational.Peaks f p ∧ (1 / 2 ≤ p → f 0 = 0) ∧
        (p ≤ 1 / 2 → f 1 = 0) ∧ ∃ slope, 0 < slope ∧ ∀ x, f x = 1 - slope * |x - p|) ∧
    (∀ low high : ℚ, 0 ≤ low → low ≤ high → high ≤ 1 →
      ∃ f, trapez.Gives [low, high] f ∧ Rational.Levels f low high) ∧
    (∀ low high : ℚ, low < high →
      ∃ f, narrow.Gives [low, high] f ∧ Rational.Ramps f low high) ∧
    ∀ count : ℚ, ∃ f, mirror.Gives [count] f ∧
      ∀ x, ∃ k : ℤ, (∀ j : ℤ, |count * x - k| ≤ |count * x - j|) ∧
        f x = 2 * |count * x - k| := by
  refine ⟨?triangle, ?peak, ?trapez, ?narrow, ?mirror⟩
  case triangle =>
    intro p haccepted
    obtain ⟨hpos, hlt⟩ := (Rational.rejected?_peak_iff (.inr rfl)).mp haccepted
    refine ⟨_, gives_triangle haccepted, Rational.peaks_tent hpos hlt, ?_, ?_⟩
    · rw [Rational.tent_of_le hpos hlt hpos.le, zero_div]
    · rw [Rational.tent_of_ge hpos hlt hlt.le, sub_self, zero_div]
  case peak =>
    intro p haccepted
    obtain ⟨hpos, hlt⟩ := (Rational.rejected?_peak_iff (.inl rfl)).mp haccepted
    refine ⟨_, gives_peak haccepted, Rational.peaks_roof hpos hlt, Rational.roof_zero hpos,
      Rational.roof_one hlt, (max p (1 - p))⁻¹, inv_pos.mpr (Rational.longer_pos p), ?_⟩
    intro x
    rw [Rational.roof, div_eq_inv_mul]
  case trapez =>
    intro low high hlow hle hhigh
    exact ⟨_, gives_of_accepted rfl rfl (Rational.eval_trapez low high),
      Rational.levels_plateau hlow hle hhigh⟩
  case narrow =>
    intro low high hlt
    exact ⟨_, gives_of_accepted (Rational.rejected?_narrow hlt.ne) rfl (Rational.eval_narrow hlt),
      Rational.ramps_ramp hlt⟩
  case mirror =>
    intro count
    refine ⟨_, gives_of_accepted rfl rfl fun x => rfl, fun x => ?_⟩
    exact ⟨round (count * x), fun j => round_le _ j, Rational.reflected_eq count x⟩

omit [Elementary ℚ] in
/-- A peak in the middle, a trapezoid that starts at its top, and a ramp around zero. -/
theorem shapes_are_joined_at_edges :
    let _ := Session.linear
    (∃ f, peak.Gives [(1 / 2 : ℚ)] f ∧ f 0 = 0 ∧ f 1 = 0) ∧
      (∃ f, triangle.Gives [(1 / 4 : ℚ)] f ∧ StrictAntiOn f (Ici (1 / 4))) ∧
      (∃ f, trapez.Gives [(0 : ℚ), 1 / 2] f ∧ f 0 = 1 ∧ StrictAntiOn f (Icc (1 / 2) 1)) ∧
      ∃ f, narrow.Gives [(-1 : ℚ), 3] f ∧ f (-5) = 0 ∧ f 4 = 1 := by
  intro _
  obtain ⟨htriangle, hpeak, htrapez, hnarrow, _⟩ := shapes_are_joined
  obtain ⟨roof, hroof, _, hfirst, hlast, _⟩ := hpeak (1 / 2) (by decide +kernel)
  obtain ⟨tent, htent, hpeaks, _⟩ := htriangle (1 / 4) (by decide +kernel)
  obtain ⟨level, hlevel, hlevels⟩ := htrapez 0 (1 / 2) le_rfl (by norm_num) (by norm_num)
  obtain ⟨ramp, hramp, hramps⟩ := hnarrow (-1) 3 (by norm_num)
  refine ⟨⟨roof, hroof, hfirst le_rfl, hlast le_rfl⟩, ⟨tent, htent, hpeaks.falls⟩,
    ⟨level, hlevel, (hlevels.top 0).mpr ?_, hlevels.falls⟩,
    ⟨ramp, hramp, hramps.before _ (by norm_num), hramps.behind _ (by norm_num)⟩⟩
  exact ⟨le_rfl, by norm_num⟩

end Transform

end Easing
