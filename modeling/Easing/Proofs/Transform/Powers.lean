import Easing.Proofs.Number.Real
import Easing.Proofs.Transform.Shapes

/-! # Powers of the unit interval

A power takes the unit interval to itself and keeps its order. With a negative exponent
its graph is turned by half a turn about the centre of the unit square, and the bent curves
do so piece by piece: they put a power on either side of the centre, pointing away from it or
towards it. What is shown of any increasing map of the unit interval carries over to its
bent curve.
-/

namespace Easing

open Set

/-! ## Increasing maps of the unit interval -/

/-- A strictly increasing map of the unit interval to itself that keeps its ends. -/
structure Bends (f : ℝ → ℝ) : Prop where
  rises : StrictMonoOn f (Icc 0 1)
  within : MapsTo f (Icc 0 1) (Icc 0 1)
  zero : f 0 = 0
  one : f 1 = 1

/-- One that also keeps the centre, and whose graph is unchanged by half a turn about it. -/
structure BendsBothWays (f : ℝ → ℝ) : Prop extends Bends f where
  centre : f (1 / 2) = 1 / 2
  turned : ∀ x, f (1 - x) = 1 - f x

/-- An increasing map that keeps the ends stays between them. -/
theorem Bends.of_ends {f : ℝ → ℝ} (hrises : StrictMonoOn f (Icc 0 1)) (hzero : f 0 = 0)
    (hone : f 1 = 1) : Bends f where
  rises := hrises
  zero := hzero
  one := hone
  within := by
    intro x hx
    have hlow := hrises.monotoneOn (left_mem_Icc.mpr zero_le_one) hx hx.1
    have hhigh := hrises.monotoneOn hx (right_mem_Icc.mpr zero_le_one) hx.2
    rw [hzero] at hlow
    rw [hone] at hhigh
    exact ⟨hlow, hhigh⟩

section Bent

variable {f : ℝ → ℝ} {x : ℝ}

/-- A map of the unit interval on either side of the centre: the distance from the centre,
on the scale on which the ends are at one, is mapped. -/
noncomputable def bothWays (f : ℝ → ℝ) (x : ℝ) : ℝ :=
  ((if x * 2 - 1 < 0 then -f |x * 2 - 1| else f |x * 2 - 1|) + 1) / 2

theorem bothWays_of_ge (h : 1 / 2 ≤ x) : bothWays f x = (1 + f (2 * x - 1)) / 2 := by
  have hnonneg : 0 ≤ x * 2 - 1 := by linarith
  rw [bothWays, if_neg (not_lt.mpr hnonneg), abs_of_nonneg hnonneg]
  ring_nf

variable (hzero : f 0 = 0)
include hzero

theorem bothWays_of_le (h : x ≤ 1 / 2) : bothWays f x = (1 - f (1 - 2 * x)) / 2 := by
  rcases h.lt_or_eq with hlt | rfl
  · have hneg : x * 2 - 1 < 0 := by linarith
    rw [bothWays, if_pos hneg, abs_of_neg hneg]
    ring_nf
  · rw [bothWays_of_ge le_rfl]
    norm_num [hzero]

/-- The two sides are each other's image under half a turn. -/
theorem bothWays_one_sub (x : ℝ) : bothWays f (1 - x) = 1 - bothWays f x := by
  rcases le_total x (1 / 2) with hleft | hright
  · rw [bothWays_of_le hzero hleft, bothWays_of_ge (by linarith)]
    ring_nf
  · rw [bothWays_of_ge hright, bothWays_of_le hzero (by linarith)]
    ring_nf

omit hzero in
/-- The bent curve of an increasing map is increasing on either side, and so across the
centre, where the sides meet. -/
theorem Bends.bothWays (h : Bends f) : BendsBothWays (bothWays f) := by
  have hcentre : Easing.bothWays f (1 / 2) = 1 / 2 := by
    rw [bothWays_of_ge le_rfl]
    norm_num [h.zero]
  have hleft : StrictMonoOn (Easing.bothWays f) (Icc 0 (1 / 2)) := by
    intro x hx y hy hxy
    rw [bothWays_of_le h.zero hx.2, bothWays_of_le h.zero hy.2]
    have hfarther : f (1 - 2 * y) < f (1 - 2 * x) :=
      h.rises ⟨by linarith [hy.2], by linarith [hy.1]⟩ ⟨by linarith [hx.2], by linarith [hx.1]⟩
        (by linarith)
    linarith
  have hright : StrictMonoOn (Easing.bothWays f) (Icc (1 / 2) 1) := by
    intro x hx y hy hxy
    rw [bothWays_of_ge hx.1, bothWays_of_ge hy.1]
    have hfarther : f (2 * x - 1) < f (2 * y - 1) :=
      h.rises ⟨by linarith [hx.1], by linarith [hx.2]⟩ ⟨by linarith [hy.1], by linarith [hy.2]⟩
        (by linarith)
    linarith
  have hrises : StrictMonoOn (Easing.bothWays f) (Icc 0 1) := by
    rw [← Icc_union_Icc_eq_Icc (show (0 : ℝ) ≤ 1 / 2 by norm_num) (by norm_num)]
    exact hleft.union hright (isGreatest_Icc (by norm_num)) (isLeast_Icc (by norm_num))
  have hfirst : Easing.bothWays f 0 = 0 := by
    rw [bothWays_of_le h.zero (by norm_num)]
    norm_num [h.one]
  have hlast : Easing.bothWays f 1 = 1 := by
    rw [bothWays_of_ge (by norm_num)]
    norm_num [h.one]
  exact ⟨.of_ends hrises hfirst hlast, hcentre, bothWays_one_sub h.zero⟩

end Bent

/-! ## Powers -/

section Powers

variable {e x : ℝ}

/-- A power of the magnitude, which with a negative exponent is turned about the centre. The
first power is left out. -/
noncomputable def powered (e x : ℝ) : ℝ :=
  if e < 0 then 1 - |1 - x| ^ |e| else if e = 1 then x else |x| ^ |e|

theorem powered_of_neg (he : e < 0) (hx : x ∈ Icc (0 : ℝ) 1) :
    powered e x = 1 - (1 - x) ^ (-e) := by
  rw [powered, if_pos he, abs_of_neg he, abs_of_nonneg (sub_nonneg.mpr hx.2)]

theorem powered_of_pos (he : 0 < e) (hx : x ∈ Icc (0 : ℝ) 1) : powered e x = x ^ e := by
  rw [powered, if_neg he.le.not_gt]
  split
  next hone => rw [hone, Real.rpow_one]
  next => rw [abs_of_pos he, abs_of_nonneg hx.1]

theorem one_sub_mem (hx : x ∈ Icc (0 : ℝ) 1) : 1 - x ∈ Icc (0 : ℝ) 1 :=
  ⟨sub_nonneg.mpr hx.2, sub_le_self 1 hx.1⟩

/-- Changing the sign of the exponent turns the graph about the centre. -/
theorem powered_neg (hne : e ≠ 0) (hx : x ∈ Icc (0 : ℝ) 1) :
    powered (-e) x = 1 - powered e (1 - x) := by
  rcases hne.lt_or_gt with hneg | hpos
  · rw [powered_of_pos (neg_pos.mpr hneg) hx, powered_of_neg hneg (one_sub_mem hx)]
    ring_nf
  · rw [powered_of_neg (neg_neg_of_pos hpos) hx, powered_of_pos hpos (one_sub_mem hx), neg_neg]

theorem bends_powered (hne : e ≠ 0) : Bends (powered e) := by
  have hfirst : (0 : ℝ) ∈ Icc (0 : ℝ) 1 := left_mem_Icc.mpr zero_le_one
  have hlast : (1 : ℝ) ∈ Icc (0 : ℝ) 1 := right_mem_Icc.mpr zero_le_one
  rcases hne.lt_or_gt with hneg | hpos
  · have hexponent : 0 < -e := neg_pos.mpr hneg
    refine .of_ends ?_ ?_ ?_
    · intro x hx y hy hxy
      rw [powered_of_neg hneg hx, powered_of_neg hneg hy]
      have hpower : (1 - y) ^ (-e) < (1 - x) ^ (-e) :=
        Real.rpow_lt_rpow (sub_nonneg.mpr hy.2) (by linarith) hexponent
      linarith
    · rw [powered_of_neg hneg hfirst, sub_zero, Real.one_rpow, sub_self]
    · rw [powered_of_neg hneg hlast, sub_self, Real.zero_rpow hexponent.ne', sub_zero]
  · refine .of_ends ?_ ?_ ?_
    · intro x hx y hy hxy
      rw [powered_of_pos hpos hx, powered_of_pos hpos hy]
      exact Real.rpow_lt_rpow hx.1 hxy hpos
    · rw [powered_of_pos hpos hfirst, Real.zero_rpow hpos.ne']
    · rw [powered_of_pos hpos hlast, Real.one_rpow]

/-- The first power is the identity, turned or not. -/
theorem powered_of_abs_one (he : |e| = 1) (hx : x ∈ Icc (0 : ℝ) 1) : powered e x = x := by
  rcases eq_or_eq_neg_of_abs_eq he with rfl | rfl
  · rw [powered_of_pos one_pos hx, Real.rpow_one]
  · rw [powered_of_neg (by norm_num) hx, neg_neg, Real.rpow_one, sub_sub_cancel]

/-- Bending the identity both ways leaves it as it is. -/
theorem bothWays_of_abs_one (he : |e| = 1) (hx : x ∈ Icc (0 : ℝ) 1) :
    bothWays (powered e) x = x := by
  have hmagnitude : |x * 2 - 1| ∈ Icc (0 : ℝ) 1 :=
    ⟨abs_nonneg _, abs_le.mpr ⟨by linarith [hx.1], by linarith [hx.2]⟩⟩
  rw [bothWays, powered_of_abs_one he hmagnitude]
  split
  next hneg => rw [abs_of_neg hneg]; ring
  next hnonneg => rw [abs_of_nonneg (not_lt.mp hnonneg)]; ring

end Powers

/-! ## What transforms compute -/

namespace Transform

theorem power_eq (e x : ℝ) : power e x = .ok (powered e x) := by
  have hpow (y : ℝ) : Scalar.pow (Scalar.abs y) (Scalar.abs e) = .ok (|y| ^ |e|) :=
    Scalar.real_pow (abs_nonneg e)
  unfold power
  simp only [hpow, beq_iff_eq, powered]
  by_cases hneg : e < 0
  · have hne : e ≠ 1 := by linarith
    simp only [if_pos hneg, if_neg hne]
    rfl
  · simp only [if_neg hneg]
    split <;> rfl

theorem bent_eq (e x : ℝ) : bent e x = .ok (bothWays (powered e) x) := by
  have habs (y : ℝ) : Scalar.abs y = |y| := rfl
  unfold bent
  simp only [Scalar.real_two, habs, power_eq]
  rfl

/-- The powers and the bent curves accept every exponent but zero. -/
theorem rejected?_power_iff {t : Transform} (ht : t ∈ [exp, outward, inward]) {e : ℝ} :
    t.rejected? [e] = .ok none ↔ e ≠ 0 := by
  have hrule : t.rejected? [e] = .ok (if e == 0 then some e else none) := by
    simp only [List.mem_cons, List.not_mem_nil, or_false] at ht
    rcases ht with rfl | rfl | rfl <;> rfl
  rw [hrule]
  by_cases he : e = 0 <;> simp [he]

variable {e : ℝ} (hne : e ≠ 0)
include hne

theorem gives_exp : exp.Gives [e] (powered e) :=
  gives_of_accepted ((rejected?_power_iff (by simp)).mpr hne) rfl (power_eq e)

theorem gives_outward : outward.Gives [e] (bothWays (powered e)) :=
  gives_of_accepted ((rejected?_power_iff (by simp)).mpr hne) rfl (bent_eq e)

/-- Bending towards the centre is bending away from it with the other exponent. -/
theorem gives_inward : inward.Gives [e] (bothWays (powered (-e))) :=
  gives_of_accepted ((rejected?_power_iff (by simp)).mpr hne) rfl (bent_eq (-e))

omit hne in
/-- With every exponent that is accepted, which is every one but zero, a power is a strictly
increasing map of the unit interval to itself that keeps its ends, and the negative exponent
turns its graph about the centre. The bent curves also keep the centre and are unchanged by
that turn, and bending towards the centre is bending away from it with the negative exponent.
The first power is the identity, whichever way it is bent. -/
theorem powers_bend :
    (∀ t ∈ [exp, outward, inward], ∀ e : ℝ, t.rejected? [e] = .ok none ↔ e ≠ 0) ∧
    (∀ e : ℝ, e ≠ 0 → ∃ power turned away towards : ℝ → ℝ,
      exp.Gives [e] power ∧ exp.Gives [-e] turned ∧ outward.Gives [e] away ∧
      inward.Gives [-e] away ∧ inward.Gives [e] towards ∧ outward.Gives [-e] towards ∧
      Bends power ∧ BendsBothWays away ∧ BendsBothWays towards ∧
      ∀ x ∈ Icc (0 : ℝ) 1, turned x = 1 - power (1 - x)) ∧
    ∀ t ∈ [exp, outward, inward], ∀ e : ℝ, e = 1 ∨ e = -1 →
      ∃ f, t.Gives [e] f ∧ ∀ x ∈ Icc (0 : ℝ) 1, f x = x := by
  refine ⟨fun t ht e => rejected?_power_iff ht, ?bends, ?first⟩
  case bends =>
    intro e hne
    have hneg : -e ≠ 0 := neg_ne_zero.mpr hne
    have hback : inward.Gives [-e] (bothWays (powered (- -e))) := gives_inward hneg
    rw [neg_neg] at hback
    exact ⟨_, _, _, _, gives_exp hne, gives_exp hneg, gives_outward hne, hback, gives_inward hne,
      gives_outward hneg, bends_powered hne, (bends_powered hne).bothWays,
      (bends_powered hneg).bothWays, fun x hx => powered_neg hne hx⟩
  case first =>
    intro t ht e he
    have habs : |e| = 1 := abs_eq_abs.mpr he |>.trans abs_one
    have hne : e ≠ 0 := by
      rintro rfl
      norm_num at he
    have hneg : |-e| = 1 := (abs_neg e).trans habs
    simp only [List.mem_cons, List.not_mem_nil, or_false] at ht
    rcases ht with rfl | rfl | rfl
    · exact ⟨_, gives_exp hne, fun x hx => powered_of_abs_one habs hx⟩
    · exact ⟨_, gives_outward hne, fun x hx => bothWays_of_abs_one habs hx⟩
    · exact ⟨_, gives_inward hne, fun x hx => bothWays_of_abs_one hneg hx⟩

omit hne in
/-- A negative exponent that is not a whole number, at a number between the end and the
centre. -/
theorem powers_bend_turned :
    (-(3 / 2) : ℝ) ≠ 0 ∧ ∃ power away : ℝ → ℝ, exp.Gives [-(3 / 2)] power ∧
      outward.Gives [-(3 / 2)] away ∧ power (1 / 4) < power (1 / 3) ∧
      away (3 / 4) = 1 - away (1 / 4) := by
  have hne : (-(3 / 2) : ℝ) ≠ 0 := by norm_num
  obtain ⟨_, hbends, _⟩ := powers_bend
  obtain ⟨power, _, away, _, hpower, _, haway, _, _, _, hincreasing, hboth, _⟩ := hbends _ hne
  refine ⟨hne, power, away, hpower, haway, ?_, ?_⟩
  · exact hincreasing.rises ⟨by norm_num, by norm_num⟩ ⟨by norm_num, by norm_num⟩ (by norm_num)
  · rw [← hboth.turned]
    norm_num

end Transform

end Easing
