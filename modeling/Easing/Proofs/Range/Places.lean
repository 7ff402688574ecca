import Easing.Proofs.Range.Rounding

/-! # The places of the numbers of a range

The place of a number of a range of doubles is its distance from the start, divided by the
span. The span is the greatest of these distances, so that all of them are finite if it is,
and then all places are in the unit interval, with the bounds at its ends. The bounds of an
accepted range are finite, but farther apart than any double they have an infinite span, and
then no number of the range except those that share the place of the start has a place.
-/

namespace Easing.Range

open Float64 (Value Infinite)
open Binary64

variable {r : Range Float} {x : Float} {a b v : ℚ}

/-- A range whose numbers have places in the unit interval, the last one for the stop. -/
structure Usable (r : Range Float) : Prop where
  span : Scalar.isFinite r.span = true
  stop : r.normalize r.stop = pure 1
  places {x : Float} : r.contains x = true →
    ∃ place, r.normalize x = pure place ∧ Scalar.InUnit place

/-- A range whose numbers have the place of the start or none, the stop among the latter, and
in whose units there are no finite samples. -/
structure TooWide (r : Range Float) : Prop where
  span : Scalar.isFinite r.span = false
  stop : ∃ place, r.normalize r.stop = pure place ∧ Scalar.isNaN place = true
  places {x : Float} : r.contains x = true →
    ∃ place, r.normalize x = pure place ∧ (Value place 0 ∨ Scalar.isNaN place = true)
  samples (place : Float) : Scalar.isFinite (r.fromUnit place) = false

theorem exists_values (hbounds : checkBounds r.start r.stop = .ok ()) :
    ∃ a b, Value r.start a ∧ Value r.stop b ∧ a ≠ b := by
  obtain ⟨hstart, hstop, hdiffer⟩ := bounds_of_check hbounds
  obtain ⟨a, ha⟩ := Float64.isFinite_iff.mp hstart
  obtain ⟨b, hb⟩ := Float64.isFinite_iff.mp hstop
  exact ⟨a, b, ha, hb, mt (ha.beq_iff hb).mpr (by rw [hdiffer]; exact Bool.false_ne_true)⟩

theorem ne_of_value (hbounds : checkBounds r.start r.stop = .ok ()) (ha : Value r.start a)
    (hb : Value r.stop b) : a ≠ b := by
  obtain ⟨_, _, ha', hb', hne⟩ := exists_values hbounds
  rwa [ha.unique ha', hb.unique hb']

/-- A number in a range is not reported, so its place is all that comes back. -/
theorem normalize_of_contains (hbounds : checkBounds r.start r.stop = .ok ())
    (hx : r.contains x = true) : r.normalize x = pure (r.toUnit x) := by
  unfold normalize
  rw [check_of_contains hbounds hx, pure_bind, Scalar.divide_eq_ok (span_beq_zero hbounds)]
  rfl

section Values

variable (ha : Value r.start a) (hb : Value r.stop b)
include ha hb

theorem value_low : Value r.low (min a b) := by
  unfold low Scalar.smaller
  split
  next hlt => rwa [min_eq_right ((hb.lt_iff ha).mp hlt).le]
  next hnot => rwa [min_eq_left (not_lt.mp (mt (hb.lt_iff ha).mpr hnot))]

theorem value_high : Value r.high (max a b) := by
  unfold high Scalar.larger
  split
  next hlt => rwa [max_eq_right ((ha.lt_iff hb).mp hlt).le]
  next hnot => rwa [max_eq_left (not_lt.mp (mt (ha.lt_iff hb).mpr hnot))]

theorem contains_iff (hx : Value x v) : r.contains x = true ↔ v ∈ Set.uIcc a b := by
  rw [contains_eq_true_iff, (value_low ha hb).le_iff hx, hx.le_iff (value_high ha hb)]
  rfl

theorem contains_start : r.contains r.start = true :=
  (contains_iff ha hb ha).mpr Set.left_mem_uIcc

theorem contains_stop : r.contains r.stop = true :=
  (contains_iff ha hb hb).mpr Set.right_mem_uIcc

theorem exists_value_of_contains (hx : r.contains x = true) :
    ∃ v, Value x v ∧ v ∈ Set.uIcc a b := by
  obtain ⟨hlow, hhigh⟩ := contains_eq_true_iff.mp hx
  obtain ⟨v, hv⟩ := Float64.isFinite_iff.mp
    (Float64.isFinite_of_between (value_low ha hb) (value_high ha hb) hlow hhigh)
  exact ⟨v, hv, (contains_iff ha hb hv).mp hx⟩

theorem value_place_start (hne : a ≠ b) : Value (r.toUnit r.start) 0 := by
  have hzero : RoundsTo 0 0 := Denotes.roundsTo Float64.value_zero
  have hnone : Value (r.start - r.start) 0 :=
    .of_pack (Denotes.sub ha ha (by rwa [sub_self]))
  rcases hb.sub_cases ha with ⟨s, hs, hspan⟩ | hinfinite
  · have hs : s ≠ 0 := hs.ne_zero_of_sub hb ha hne.symm
    exact .of_pack (Denotes.div hnone hspan hs (by rwa [zero_div]))
  · exact hnone.div_infinite hinfinite

end Values

theorem part_mem {d s : ℚ} (hd : d ∈ Set.uIcc 0 s) : 0 ≤ d / s ∧ d / s ≤ 1 := by
  rcases Set.mem_uIcc.mp hd with ⟨hlow, hhigh⟩ | ⟨hlow, hhigh⟩
  · exact ⟨div_nonneg hlow (hlow.trans hhigh), div_le_one_of_le₀ hhigh (hlow.trans hhigh)⟩
  · exact ⟨div_nonneg_of_nonpos hhigh (hlow.trans hhigh),
      div_le_one_of_ge hlow (hlow.trans hhigh)⟩

/-- The distance of a number between the bounds is a part of the span. -/
theorem distance_mem (hv : v ∈ Set.uIcc a b) : v - a ∈ Set.uIcc 0 (b - a) := by
  rw [Set.mem_uIcc] at hv ⊢
  simpa only [sub_nonneg, sub_nonpos, sub_le_sub_iff_right] using hv

/-- The distance remains a part of the span when both are rounded. -/
theorem rounded_distance_mem {d s : ℚ} (hd : RoundsTo (v - a) d) (hs : RoundsTo (b - a) s)
    (hv : v ∈ Set.uIcc a b) : d ∈ Set.uIcc 0 s := by
  have hzero : RoundsTo 0 0 := Denotes.roundsTo Float64.value_zero
  rw [Set.mem_uIcc]
  exact (Set.mem_uIcc.mp (distance_mem hv)).imp
    (fun ⟨hlow, hhigh⟩ => ⟨hzero.mono hd hlow, hd.mono hs hhigh⟩)
    (fun ⟨hlow, hhigh⟩ => ⟨hs.mono hd hlow, hd.mono hzero hhigh⟩)

/-- Bounds that are not too far apart make a range usable. -/
theorem usable_of_lt (hbounds : checkBounds r.start r.stop = .ok ()) (ha : Value r.start a)
    (hb : Value r.stop b) (hne : a ≠ b) (hlt : |b - a| < limit) : r.Usable := by
  obtain ⟨s, hs⟩ := exists_roundsTo_iff.mpr hlt
  have hspan : Value r.span s := .of_pack (Denotes.sub hb ha hs)
  have hzero : s ≠ 0 := hs.ne_zero_of_sub hb ha hne.symm
  refine ⟨Float64.isFinite_iff.mpr ⟨s, hspan⟩, ?stop, fun {x} hx => ?places⟩
  case stop =>
    have hone : Value (r.toUnit r.stop) 1 := .of_pack (Denotes.div hspan hspan hzero (by
      rw [div_self hzero]
      exact Denotes.roundsTo Float64.standsFor_one.value))
    rw [normalize_of_contains hbounds (contains_stop ha hb),
      hone.eq Float64.standsFor_one.value one_ne_zero]
  case places =>
    obtain ⟨v, hv, hbetween⟩ := exists_value_of_contains ha hb hx
    obtain ⟨d, hd⟩ :=
      exists_roundsTo_iff.mpr ((Set.abs_sub_left_of_mem_uIcc hbetween).trans_lt hlt)
    obtain ⟨hnonneg, hle⟩ := part_mem (rounded_distance_mem hd hs hbetween)
    obtain ⟨q, hq, hqlow, hqhigh⟩ := Scalar.exists_roundsTo_unit Float hnonneg hle
    have hdistance : Value (x - r.start) d := .of_pack (Denotes.sub hv ha hd)
    have hplace : Value (r.toUnit x) q := .of_pack (Denotes.div hdistance hspan hzero hq)
    exact ⟨_, normalize_of_contains hbounds hx, q, hplace, hqlow, hqhigh⟩

/-- A finite span makes a range usable. -/
theorem usable_of_isFinite_span (hbounds : checkBounds r.start r.stop = .ok ())
    (hspan : Scalar.isFinite r.span = true) : r.Usable := by
  obtain ⟨b, a, s, hb, ha, hs, -⟩ := Float64.exists_of_isFinite_sub hspan
  exact usable_of_lt hbounds ha hb (ne_of_value hbounds ha hb) (exists_roundsTo_iff.mp ⟨s, hs⟩)

/-- Bounds that are too far apart make a range useless. -/
theorem tooWide_of_le (hbounds : checkBounds r.start r.stop = .ok ()) (ha : Value r.start a)
    (hb : Value r.stop b) (hle : limit ≤ |b - a|) : r.TooWide := by
  have hspan : Infinite r.span := (hb.sub_cases ha).resolve_left fun ⟨s, hs, _⟩ =>
    (exists_roundsTo_iff.mp ⟨s, hs⟩).not_ge hle
  refine ⟨hspan.isFinite, ?stop, fun {x} hx => ?places, fun place => ?samples⟩
  case stop =>
    exact ⟨_, normalize_of_contains hbounds (contains_stop ha hb), hspan.isNaN_div hspan⟩
  case places =>
    obtain ⟨v, hv, -⟩ := exists_value_of_contains ha hb hx
    refine ⟨_, normalize_of_contains hbounds hx, ?_⟩
    rcases hv.sub_cases ha with ⟨d, -, hd⟩ | hinfinite
    · exact .inl (hd.div_infinite hspan)
    · exact .inr (hinfinite.isNaN_div hspan)
  case samples =>
    exact Float64.isFinite_add (.inr (Float64.isFinite_mul (.inr hspan.isFinite)))

end Easing.Range
