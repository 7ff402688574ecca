import Easing.Proofs.Number.Error
import Easing.Proofs.Range.Places
import Easing.Proofs.Session.Faults

/-! # Tables in the units of other ranges

A table is moved to the units of another range by way of the places of its samples. In doubles
each of the six steps of the way there, and each of the six back, is rounded. The samples stay
finite if the exact numbers on the way are moderate, so that neither rounding them nor the
error that is brought along makes them too large. In the units of a range whose span is not
finite no sample is finite, and none becomes finite again.
-/

namespace Easing

open Binary64
open Float64 (Value)

namespace Binary64

variable {v w t : ℚ}

/-- What a rounding error leaves is at most a little more than the exact number. -/
theorem abs_le_of_error (h : |w - v| ≤ roundoff * |v| + t) : |w| ≤ 65 / 64 * |v| + t := by
  have hdifference := abs_sub_abs_le_abs_sub w v
  have hv := abs_nonneg v
  rw [roundoff] at h
  linarith

theorem le_abs_of_error (h : |w - v| ≤ roundoff * |v|) : |v| ≤ 65 / 64 * |w| := by
  have hdifference := abs_sub_abs_le_abs_sub v w
  have hw := abs_nonneg w
  rw [abs_sub_comm, roundoff] at h
  linarith

/-- A sixteenth of the next power of two after the greatest double. -/
def moderate : ℚ := 2 ^ (1020 : ℤ)

theorem moderate_lt_limit : 15 * moderate < limit := by
  rw [moderate, limit, show (1020 : ℤ) = 49 + 971 by norm_num, zpow_add₀ two_ne_zero, ← mul_assoc]
  gcongr
  norm_num

theorem pow_le_moderate {n : ℕ} (hn : n ≤ 1020) : 2 ^ n ≤ moderate := by
  rw [moderate, ← zpow_natCast]
  exact zpow_le_zpow_right₀ one_le_two (by exact_mod_cast hn)

end Binary64

namespace Range

variable {r old new : Range Float} {x place : Float} {a b v : ℚ}

section Steps

variable (ha : Value r.start a) (hb : Value r.stop b) (hne : a ≠ b)
include ha hb hne

/-- The place of a number is hardly farther than in exact arithmetic. -/
theorem exists_value_toUnit (hx : Value x v) {u : ℚ} (hu : |v - a| ≤ u * |b - a|)
    (hfar : |v - a| < limit) (hwide : |b - a| < limit) (hplace : 9 / 8 * u < limit) :
    ∃ q, Value (r.toUnit x) q ∧ |q| ≤ 9 / 8 * u + 1 / 8 := by
  obtain ⟨d, hd, hderror⟩ := hx.exists_sub ha hfar
  obtain ⟨s, hs, hserror⟩ := hb.exists_sub ha hwide
  have hlength : 0 < |b - a| := abs_pos.mpr (sub_ne_zero.mpr hne.symm)
  have hspan := le_abs_of_error hserror
  have hpos : 0 < |s| := by linarith
  have hnonneg : 0 ≤ u := nonneg_of_mul_nonneg_left ((abs_nonneg _).trans hu) hlength
  have hdistance : |d| ≤ 65 / 64 * |v - a| + 0 := abs_le_of_error (by rwa [add_zero])
  have hquotient : |d / s| ≤ (65 / 64) ^ 2 * u := by
    rw [abs_div, div_le_iff₀ hpos]
    calc |d| ≤ 65 / 64 * (u * |b - a|) := by linarith
      _ ≤ 65 / 64 * (u * (65 / 64 * |s|)) := by gcongr
      _ = (65 / 64) ^ 2 * u * |s| := by ring
  obtain ⟨q, hq, hqerror⟩ := hd.exists_div hs (abs_pos.mp hpos) (by linarith)
  have hleast : (2 : ℚ) ^ (-1075 : ℤ) ≤ 1 / 8 :=
    (zpow_le_zpow_right₀ one_le_two (by norm_num : (-1075 : ℤ) ≤ -3)).trans (by norm_num)
  exact ⟨q, hq, by linarith [abs_le_of_error hqerror]⟩

/-- The number at a place is hardly farther from the start than in exact arithmetic, but may be
off by some spans where these are so short that the bounds differ in their last bits. -/
theorem exists_value_fromUnit {q bound : ℚ} (hq : Value place q) (hbound : |q| ≤ bound)
    (hsum : |a| + (9 / 8 * bound + 2) * |b - a| < limit) :
    ∃ y, Value (r.fromUnit place) y ∧ |y - a| ≤ (9 / 8 * bound + 2) * |b - a| := by
  have hexpand : (9 / 8 * bound + 2) * |b - a| = 9 / 8 * (bound * |b - a|) + 2 * |b - a| := by ring
  rw [hexpand] at hsum ⊢
  have hpos : 0 ≤ bound := (abs_nonneg q).trans hbound
  have hnonneg : 0 ≤ bound * |b - a| := mul_nonneg hpos (abs_nonneg _)
  have hlength := abs_nonneg (b - a)
  have hstart := abs_nonneg a
  obtain ⟨s, hs, hserror⟩ := hb.exists_sub ha (by linarith)
  have hspan : |s| ≤ 65 / 64 * |b - a| + 0 := abs_le_of_error (by rwa [add_zero])
  rw [add_zero] at hspan
  have hproduct : |q * s| ≤ 65 / 64 * (bound * |b - a|) := by
    rw [abs_mul]
    calc |q| * |s| ≤ bound * (65 / 64 * |b - a|) := by gcongr
      _ = 65 / 64 * (bound * |b - a|) := by ring
  obtain ⟨p, hp, hperror⟩ := hq.exists_mul hs (by linarith)
  have hleast : (2 : ℚ) ^ (-1075 : ℤ) ≤ |b - a| / 2 := by
    have hleast := (hb.multiple.sub ha.multiple).least_le (sub_ne_zero.mpr hne.symm)
    rw [show (-1075 : ℤ) = -1074 - 1 by norm_num, zpow_sub_one₀ two_ne_zero, ← div_eq_mul_inv]
    linarith
  have hmoved : |p| ≤ (65 / 64) ^ 2 * (bound * |b - a|) + |b - a| / 2 := by
    linarith [abs_le_of_error hperror]
  have hend := abs_add_le a p
  obtain ⟨y, hy, hyerror⟩ := ha.exists_add hp (by linarith)
  refine ⟨y, hy, ?_⟩
  have hoff := (Denotes.roundsTo ha).roundoff_mul_le (Denotes.roundsTo hb) hne
  have hsplit : |y - a| ≤ |y - (a + p)| + |p| := by
    have hle := abs_add_le (y - (a + p)) p
    rwa [show y - (a + p) + p = y - a by ring] at hle
  rw [roundoff] at hyerror hoff
  linarith

end Steps

/-- The exact numbers that lead from a number of one range to that of another: the bounds, the
number, its place and the number that has this place in the other range. -/
def waypoints (a b a' b' v : ℚ) : List ℚ :=
  [a, b, a', b', v, (v - a) / (b - a), a' + (v - a) / (b - a) * (b' - a')]

/-- A finite number that is moved to another range by way of moderate numbers. -/
def Carries (old new : Range Float) (y : Float) : Prop :=
  ∃ a b a' b' v : ℚ,
    (Value old.start a ∧ Value old.stop b ∧ Value new.start a' ∧ Value new.stop b' ∧ Value y v) ∧
      ∀ u ∈ waypoints a b a' b' v, |u| ≤ moderate

/-- What is moved by way of moderate numbers is finite there and after it is moved back. -/
theorem Carries.isFinite (hold : checkBounds old.start old.stop = .ok ())
    (hnew : checkBounds new.start new.stop = .ok ()) {y : Float} (h : Carries old new y) :
    Scalar.isFinite (new.fromUnit (old.toUnit y)) = true ∧
      Scalar.isFinite (old.fromUnit (new.toUnit (new.fromUnit (old.toUnit y)))) = true := by
  obtain ⟨a, b, a', b', v, ⟨ha, hb, ha', hb', hv⟩, hmoderate⟩ := h
  obtain ⟨hma, hmb, hma', hmb', hmv, hplace, htarget⟩ :
      |a| ≤ moderate ∧ |b| ≤ moderate ∧ |a'| ≤ moderate ∧ |b'| ≤ moderate ∧ |v| ≤ moderate ∧
        |(v - a) / (b - a)| ≤ moderate ∧
        |a' + (v - a) / (b - a) * (b' - a')| ≤ moderate := by
    simpa only [waypoints, List.forall_mem_cons, List.not_mem_nil, false_implies, implies_true,
      and_true] using hmoderate
  have hne : a ≠ b := ne_of_value hold ha hb
  have hne' : a' ≠ b' := ne_of_value hnew ha' hb'
  have hlimit := moderate_lt_limit
  have hone : 1 ≤ moderate := pow_le_moderate (n := 0) (by norm_num)
  have hwide : |b - a| ≤ |b| + |a| := abs_sub b a
  have hwide' : |b' - a'| ≤ |b'| + |a'| := abs_sub b' a'
  have hdistance : |v - a| = |(v - a) / (b - a)| * |b - a| := by
    rw [← abs_mul, div_mul_cancel₀ _ (sub_ne_zero.mpr hne.symm)]
  have hfar : |v - a| ≤ |v| + |a| := abs_sub v a
  have hshift : |(v - a) / (b - a)| * |b' - a'| ≤
      |a' + (v - a) / (b - a) * (b' - a')| + |a'| := by
    rw [← abs_mul]
    refine le_trans (le_of_eq ?_) (abs_sub _ _)
    rw [add_sub_cancel_left]
  generalize a' + (v - a) / (b - a) * (b' - a') = target at htarget hshift
  generalize |(v - a) / (b - a)| = u at hplace hdistance hshift
  obtain ⟨q, hq, hqle⟩ := exists_value_toUnit ha hb hne hv hdistance.le (by linarith)
    (by linarith) (by linarith)
  obtain ⟨y₁, hy₁, hyle⟩ := exists_value_fromUnit ha' hb' hne' hq hqle (by linarith)
  obtain ⟨q₁, hq₁, hqle₁⟩ := exists_value_toUnit ha' hb' hne' hy₁ hyle (by linarith)
    (by linarith) (by linarith)
  obtain ⟨y₂, hy₂, -⟩ := exists_value_fromUnit ha hb hne hq₁ hqle₁ (by linarith)
  exact ⟨Float64.isFinite_iff.mpr ⟨_, hy₁⟩, Float64.isFinite_iff.mpr ⟨_, hy₂⟩⟩

/-- Both bounds are moderate numbers. -/
def Moderate (r : Range Float) : Prop :=
  ∃ a b : ℚ, Value r.start a ∧ Value r.stop b ∧ |a| ≤ moderate ∧ |b| ≤ moderate

/-- Between moderate bounds every number of a range is moved by way of moderate numbers. -/
theorem carries_of_contains (hold : old.Moderate) (hnew : new.Moderate) {y : Float}
    (hy : old.contains y = true) : Carries old new y := by
  obtain ⟨a, b, ha, hb, hma, hmb⟩ := hold
  obtain ⟨a', b', ha', hb', hma', hmb'⟩ := hnew
  obtain ⟨v, hv, hbetween⟩ := exists_value_of_contains ha hb hy
  refine ⟨a, b, a', b', v, ⟨ha, hb, ha', hb', hv⟩, ?_⟩
  simp only [waypoints, List.forall_mem_cons, List.not_mem_nil, false_implies, implies_true,
    and_true]
  have hone : 1 ≤ moderate := pow_le_moderate (n := 0) (by norm_num)
  obtain ⟨hlow, hhigh⟩ := part_mem (distance_mem hbetween)
  generalize (v - a) / (b - a) = place at hlow hhigh ⊢
  refine ⟨hma, hmb, hma', hmb', ?number, ?place, ?target⟩
  case number =>
    rw [abs_le] at hma hmb ⊢
    exact ⟨(le_min hma.1 hmb.1).trans hbetween.1, hbetween.2.trans (max_le hma.2 hmb.2)⟩
  case place =>
    rw [abs_of_nonneg hlow]
    exact hhigh.trans hone
  case target =>
    calc |a' + place * (b' - a')| = |(1 - place) * a' + place * b'| := by ring_nf
      _ ≤ |(1 - place) * a'| + |place * b'| := abs_add_le _ _
      _ = (1 - place) * |a'| + place * |b'| := by
          rw [abs_mul, abs_mul, abs_of_nonneg (sub_nonneg.mpr hhigh), abs_of_nonneg hlow]
      _ ≤ (1 - place) * moderate + place * moderate :=
          add_le_add (mul_le_mul_of_nonneg_left hma' (sub_nonneg.mpr hhigh))
            (mul_le_mul_of_nonneg_left hmb' hlow)
      _ = moderate := by ring

end Range

/-! ## Tables -/

namespace Table

variable {table : Table Float} {old new : Range Float}

/-- All samples are finite. -/
def Finite (table : Table Float) : Prop := ∀ y ∈ table.samples, Scalar.isFinite y = true

/-- No sample is finite. -/
def Lost (table : Table Float) : Prop := ∀ y ∈ table.samples, Scalar.isFinite y = false

theorem forall_mem_rescale {p : Float → Prop} :
    (∀ z ∈ (table.rescale old new).samples, p z) ↔
      ∀ y ∈ table.samples, p (new.fromUnit (old.toUnit y)) := by
  simp [rescale]

/-- Moving a sample does not make it finite. -/
theorem Lost.rescale (h : table.Lost) (old new : Range Float) : (table.rescale old new).Lost :=
  forall_mem_rescale.mpr fun y hy =>
    have hplace : Scalar.isFinite (old.toUnit y) = false :=
      Float64.isFinite_div (Float64.isFinite_sub (.inl (h y hy))) old.span
    Float64.isFinite_add (.inr (Float64.isFinite_mul (.inl hplace)))

theorem Lost.moved (h : table.Lost) (moves : List (Range Float × Range Float)) :
    (table.moved moves).Lost := by
  induction moves generalizing table with
  | nil => exact h
  | cons move rest ih => exact ih (h.rescale move.1 move.2)

end Table

namespace Range

variable {r : Range Float}

theorem TooWide.lost (h : r.TooWide) (table : Table Float) (old : Range Float) :
    (table.rescale old r).Lost :=
  Table.forall_mem_rescale.mpr fun _ _ => h.samples _

/-- The span of an accepted range of doubles is not zero, and its start has the place zero.
Unless the bounds are farther apart than any double, the span is finite, the stop has the place
one and every number of the range has a place in the unit interval. Otherwise the numbers of the
range have the place zero or none, and tables that are moved to the range lose all samples for
good. Samples that are moved by way of moderate numbers, as those between moderate bounds are,
stay finite there and back. -/
theorem usable_unless_too_wide (hbounds : checkBounds r.start r.stop = .ok ()) :
    (r.span == 0) = false ∧
      (∃ place, r.normalize r.start = pure place ∧ Value place 0) ∧
      (∃ a b, Value r.start a ∧ Value r.stop b ∧ (|b - a| < limit → r.Usable) ∧
        (limit ≤ |b - a| → r.TooWide ∧
          ∀ (table : Table Float) (old : Range Float) (moves : List (Range Float × Range Float)),
            ((table.rescale old r).moved moves).Lost)) ∧
      ∀ (table : Table Float) (old : Range Float), checkBounds old.start old.stop = .ok () →
        (∀ y ∈ table.samples,
          Carries old r y ∨ old.Moderate ∧ r.Moderate ∧ old.contains y = true) →
        (table.rescale old r).Finite ∧ ((table.rescale old r).rescale r old).Finite := by
  obtain ⟨a, b, ha, hb, hne⟩ := exists_values hbounds
  refine ⟨span_beq_zero hbounds, ?start, ⟨a, b, ha, hb, usable_of_lt hbounds ha hb hne, ?wide⟩,
    fun table old hold hsamples => ?tables⟩
  case start =>
    exact ⟨_, normalize_of_contains hbounds (contains_start ha hb), value_place_start ha hb hne⟩
  case wide =>
    intro hle
    have hwide := tooWide_of_le hbounds ha hb hle
    exact ⟨hwide, fun table old moves => (hwide.lost table old).moved moves⟩
  case tables =>
    have hfinite (y : Float) (hy : y ∈ table.samples) :=
      ((hsamples y hy).elim id fun ⟨hmoderate, hmoderate', hcontains⟩ =>
        carries_of_contains hmoderate hmoderate' hcontains).isFinite hold hbounds
    constructor
    · exact Table.forall_mem_rescale.mpr fun y hy => (hfinite y hy).1
    · exact Table.forall_mem_rescale.mpr
        (Table.forall_mem_rescale.mpr fun y hy => (hfinite y hy).2)

/-- A range that counts downwards and refuses numbers outside, and a table with a sample above
the unit interval that is moved there and back. -/
theorem usable_unless_too_wide_downwards :
    let r : Range Float := ⟨10, -5, .none, .fail⟩
    let table : Table Float := ⟨2, #[0, 2, 1, 1]⟩
    checkBounds r.start r.stop = .ok () ∧ r.Usable ∧
      (table.rescale (unit .both .silent) r).Finite ∧
      ((table.rescale (unit .both .silent) r).rescale r (unit .both .silent)).Finite := by
  intro r table
  have hbounds : checkBounds r.start r.stop = .ok () := by decide +kernel
  obtain ⟨-, -, ⟨a, b, ha, hb, husable, -⟩, htables⟩ := usable_unless_too_wide hbounds
  have hstart : Value r.start 10 := Float64.value_natCast (n := 10) (by decide)
  have hstop : Value r.stop (-5) := (Float64.value_natCast (n := 5) (by decide)).neg
  obtain rfl := ha.unique hstart
  obtain rfl := hb.unique hstop
  have hmost : 2 ^ 5 ≤ moderate := pow_le_moderate (by norm_num)
  have hdistance : |(-5 : ℚ) - 10| < limit := by
    rw [show |(-5 : ℚ) - 10| = 15 by norm_num]
    linarith [moderate_lt_limit]
  have hunit : (unit .both .silent : Range Float).Moderate :=
    ⟨0, 1, Float64.value_zero, Float64.standsFor_one.value,
      (by norm_num : |(0 : ℚ)| ≤ 2 ^ 5).trans hmost,
      (by norm_num : |(1 : ℚ)| ≤ 2 ^ 5).trans hmost⟩
  have hmoderate : r.Moderate :=
    ⟨10, -5, ha, hb, (by norm_num : |(10 : ℚ)| ≤ 2 ^ 5).trans hmost,
      (by norm_num : |(-5 : ℚ)| ≤ 2 ^ 5).trans hmost⟩
  have habove : Carries (unit .both .silent) r 2 := by
    refine ⟨0, 1, 10, -5, 2, ⟨Float64.value_zero, Float64.standsFor_one.value, ha, hb,
      Float64.value_natCast (n := 2) (by decide)⟩, fun u hu => le_trans ?_ hmost⟩
    simp only [waypoints, List.mem_cons, List.not_mem_nil, or_false] at hu
    rcases hu with rfl | rfl | rfl | rfl | rfl | rfl | rfl <;> norm_num
  obtain ⟨hthere, hback⟩ := htables table (unit .both .silent) (by decide +kernel) fun y hy => by
    have hcases : y = 0 ∨ y = 2 ∨ y = 1 := by simpa [table] using hy
    rcases hcases with rfl | rfl | rfl
    · exact .inr ⟨hunit, hmoderate, by decide +kernel⟩
    · exact .inl habove
    · exact .inr ⟨hunit, hmoderate, by decide +kernel⟩
  exact ⟨hbounds, husable hdistance, hthere, hback⟩

/-- Between bounds that are too far apart the stop has no place and samples of the unit interval
are lost. A usable range loses a sample at its stop where the stop is the greatest double and
the span is rounded upwards, and any range loses samples that are too far away. -/
theorem far_bounds_have_no_places :
    let wide : Range Float := ⟨-1e308, 1e308, .both, .silent⟩
    let edge : Range Float := ⟨2.9937604643020797e292, 1.7976931348623157e308, .both, .silent⟩
    let table : Table Float := ⟨1, #[0, 1, 1]⟩
    (checkBounds wide.start wide.stop = .ok () ∧ Scalar.isFinite wide.span = false ∧
        wide.contains 1e308 = true ∧
        (wide.normalize 1e308).result.toOption.map Scalar.isNaN = some true ∧
        (table.rescale (unit .both .silent) wide).samples.map Scalar.isFinite =
          #[false, false, false]) ∧
      (edge.Usable ∧ (table.rescale (unit .both .silent) edge).samples.map Scalar.isFinite =
        #[true, false, false]) ∧
      ((⟨1, #[1e308, 1, 1]⟩ : Table Float).rescale (unit .both .silent)
        ⟨0, 10, .none, .silent⟩).samples.map Scalar.isFinite = #[false, true, true] ∧
      (¬ ∀ r : Range Float, checkBounds r.start r.stop = .ok () → r.Usable) ∧
      ¬ ∀ (table : Table Float) (old new : Range Float),
        checkBounds old.start old.stop = .ok () → checkBounds new.start new.stop = .ok () →
        table.Finite → (table.rescale old new).Finite := by
  intro wide edge table
  have hbounds : checkBounds wide.start wide.stop = .ok () := by decide +kernel
  have hspan : Scalar.isFinite wide.span = false := by decide +kernel
  have hedge : edge.Usable := usable_of_isFinite_span (by decide +kernel) (by decide +kernel)
  refine ⟨⟨hbounds, hspan, by decide +kernel, by decide +kernel, by decide +kernel⟩,
    ⟨hedge, by decide +kernel⟩, by decide +kernel, fun h => ?_, fun h => ?_⟩
  · have hfinite := (h wide hbounds).span
    rw [hspan] at hfinite
    cases hfinite
  · have htable : table.Finite := by
      intro y hy
      have hcases : y = 0 ∨ y = 1 := by simpa [table] using hy
      rcases hcases with rfl | rfl <;> decide +kernel
    have hfinite := Table.forall_mem_rescale.mp
      (h table (unit .both .silent) wide (by decide +kernel) hbounds htable) 0 (by simp [table])
    have hnot : Scalar.isFinite (wide.fromUnit ((unit .both .silent : Range Float).toUnit 0)) =
        false := by decide +kernel
    rw [hnot] at hfinite
    cases hfinite

end Range

end Easing
