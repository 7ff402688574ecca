import Easing.Proofs.Number.Overflow

/-! # The error of rounding

A number and the double that it is rounded to differ by at most a certain part of the number,
and near zero, where doubles are evenly spaced, by at most half the least one. Doubles are
multiples of the least one, and so are their differences and their products by integers, for
which the first error is all there is.
-/

namespace Easing.Binary64

variable {m n : ℕ} {e k : ℤ} {v w : ℚ}

/-- The greatest part of a number that is lost by rounding it. -/
def roundoff : ℚ := 1 / 2 ^ 53

namespace ReadsBack

/-- A double is within half a unit of its last place of a number that becomes it. -/
theorem abs_sub_le (h : ReadsBack m e v) : |(m : ℚ) * 2 ^ e - v| ≤ 2 ^ e / 2 := by
  have hpos : (0 : ℚ) < 2 ^ e := by positivity
  have hlow := h.sub_half_le
  have hhigh := h.le
  rw [le_div_iff₀ hpos] at hlow
  rw [div_le_iff₀ hpos] at hhigh
  rw [abs_le]
  constructor <;> linarith

/-- Half a unit of the last place is a small part of a number that fills all places. -/
theorem abs_sub_le_roundoff (h : ReadsBack m e v) (hc : Canonical m e) (he : -1074 < e) :
    |(m : ℚ) * 2 ^ e - v| ≤ roundoff * v := by
  have hpos : (0 : ℚ) < 2 ^ e := by positivity
  have hnormal := hc.normal he
  have hm : (2 : ℚ) ^ 52 ≤ m := by exact_mod_cast hnormal
  have hquarter := h.quarter_le hnormal he
  have hlow := h.sub_half_le
  have hhigh := h.le
  have hvalue : v = v / 2 ^ e * 2 ^ e := (div_mul_cancel₀ _ hpos.ne').symm
  generalize v / 2 ^ e = q at hquarter hlow hhigh hvalue
  have herror : |(m : ℚ) - q| ≤ roundoff * q := by
    rw [roundoff, abs_le]
    rcases le_or_gt (2 ^ 52) q with hfull | hlt
    · constructor <;> linarith
    -- Below a power of two the double is that power, and its neighbour half as far away.
    · have hpower : m = 2 ^ 52 := by
        have hle : (m : ℚ) < (2 ^ 52 : ℕ) + 1 := by
          push_cast
          linarith
        have hle : m < 2 ^ 52 + 1 := by exact_mod_cast hle
        omega
      rw [hpower] at hhigh ⊢
      push_cast at hhigh ⊢
      constructor <;> linarith
  rw [hvalue, ← sub_mul, abs_mul, abs_of_pos hpos, ← mul_assoc]
  exact mul_le_mul_of_nonneg_right herror hpos.le

end ReadsBack

/-! ## Multiples of the least double -/

/-- A multiple of the least double. -/
def Multiple (v : ℚ) : Prop := ∃ k : ℤ, v = k * 2 ^ (-1074 : ℤ)

namespace Multiple

theorem add (hv : Multiple v) (hw : Multiple w) : Multiple (v + w) := by
  obtain ⟨j, rfl⟩ := hv
  obtain ⟨k, rfl⟩ := hw
  exact ⟨j + k, by rw [Int.cast_add, add_mul]⟩

theorem neg (hv : Multiple v) : Multiple (-v) := by
  obtain ⟨j, rfl⟩ := hv
  exact ⟨-j, by rw [Int.cast_neg, neg_mul]⟩

theorem sub (hv : Multiple v) (hw : Multiple w) : Multiple (v - w) := by
  rw [sub_eq_add_neg]
  exact hv.add hw.neg

theorem int_mul (j : ℤ) (hv : Multiple v) : Multiple (j * v) := by
  obtain ⟨k, rfl⟩ := hv
  exact ⟨j * k, by rw [Int.cast_mul, mul_assoc]⟩

/-- A multiple that is not zero is at least the least double. -/
theorem least_le (hv : Multiple v) (hne : v ≠ 0) : 2 ^ (-1074 : ℤ) ≤ |v| := by
  obtain ⟨k, rfl⟩ := hv
  have hpos : (0 : ℚ) < 2 ^ (-1074 : ℤ) := by positivity
  have hk : (1 : ℚ) ≤ |(k : ℚ)| := by
    exact_mod_cast Int.one_le_abs fun hzero => hne (by rw [hzero, Int.cast_zero, zero_mul])
  rw [abs_mul, abs_of_pos hpos]
  exact le_mul_of_one_le_left hpos.le hk

end Multiple

namespace Nearest

theorem abs_sub_le (h : Nearest v w) : |w - v| ≤ roundoff * v + 2 ^ (-1075 : ℤ) := by
  have hlost : 0 ≤ roundoff * v := mul_nonneg (by norm_num [roundoff]) h.nonneg
  have hhalf : (0 : ℚ) < 2 ^ (-1075 : ℤ) := by positivity
  cases h with
  | zero hlow hhigh =>
      rw [zero_sub, abs_neg, abs_of_nonneg hlow]
      linarith
  | @finite m e hc he h =>
      rcases hc.least.eq_or_lt with rfl | hlt
      · have hle := h.abs_sub_le
        have hhalf : (2 : ℚ) ^ (-1074 : ℤ) / 2 = 2 ^ (-1075 : ℤ) := by
          rw [show (-1075 : ℤ) = -1074 - 1 by norm_num, zpow_sub_one₀ two_ne_zero, div_eq_mul_inv]
        linarith
      · linarith [h.abs_sub_le_roundoff hc hlt]

/-- Between multiples of the least double nothing is lost near zero. -/
theorem abs_sub_le_of_multiple (h : Nearest v w) (hv : Multiple v) : |w - v| ≤ roundoff * v := by
  obtain ⟨k, rfl⟩ := hv
  have hpos : (0 : ℚ) < 2 ^ (-1074 : ℤ) := by positivity
  have hk : (0 : ℚ) ≤ k := nonneg_of_mul_nonneg_left h.nonneg hpos
  have hlost : 0 ≤ roundoff * (k * 2 ^ (-1074 : ℤ)) :=
    mul_nonneg (by norm_num [roundoff]) h.nonneg
  cases h with
  | zero hlow hhigh =>
      rw [← not_lt, half_least_lt_iff, mul_div_cancel_right₀ _ hpos.ne'] at hhigh
      have hlt : (k : ℚ) < (1 : ℤ) := by
        push_cast
        linarith
      have hlt : k < 1 := by exact_mod_cast hlt
      have hnonneg : 0 ≤ k := by exact_mod_cast hk
      obtain rfl : k = 0 := by omega
      simp
  | @finite m e hc he h =>
      rcases hc.least.eq_or_lt with rfl | hlt
      · have hlow := h.sub_half_le
        have hhigh := h.le
        rw [mul_div_cancel_right₀ _ hpos.ne'] at hlow hhigh
        have hbelow : ((m : ℤ) : ℚ) < (k + 1 : ℤ) := by
          push_cast
          linarith
        have habove : ((k : ℤ) : ℚ) < (m + 1 : ℤ) := by
          push_cast
          linarith
        have hbelow : (m : ℤ) < k + 1 := by exact_mod_cast hbelow
        have habove : k < m + 1 := by exact_mod_cast habove
        obtain rfl : (m : ℤ) = k := by omega
        rwa [Int.cast_natCast, sub_self, abs_zero]
      · exact h.abs_sub_le_roundoff hc hlt

theorem multiple (h : Nearest v w) : Multiple w := by
  cases h with
  | zero _ _ => exact ⟨0, by rw [Int.cast_zero, zero_mul]⟩
  | finite hc he _ => exact (Denotes.finite .positive hc he).exists_multiple

end Nearest

namespace RoundsTo

theorem multiple (h : RoundsTo v w) : Multiple w := by
  obtain ⟨s, u, b, h, rfl, rfl⟩ := h
  cases s with
  | positive => exact h.multiple
  | negative => exact h.multiple.neg

theorem abs_sub_le (h : RoundsTo v w) : |w - v| ≤ roundoff * |v| + 2 ^ (-1075 : ℤ) := by
  obtain ⟨s, u, b, h, rfl, rfl⟩ := h
  rw [abs_signed, abs_of_nonneg h.nonneg]
  cases s with
  | positive => exact h.abs_sub_le
  | negative =>
      rw [signed, signed, ← neg_sub', abs_neg]
      exact h.abs_sub_le

theorem abs_sub_le_of_multiple (h : RoundsTo v w) (hv : Multiple v) : |w - v| ≤ roundoff * |v| := by
  obtain ⟨s, u, b, h, rfl, rfl⟩ := h
  rw [abs_signed, abs_of_nonneg h.nonneg]
  cases s with
  | positive => exact h.abs_sub_le_of_multiple hv
  | negative =>
      rw [signed, signed, ← neg_sub', abs_neg]
      have hu := hv.neg
      rw [signed, neg_neg] at hu
      exact h.abs_sub_le_of_multiple hu

end RoundsTo

/-! ## Neighbours -/

/-- A number that is not rounded to zero is rounded to a canonical form. -/
theorem Nearest.exists_canonical (h : Nearest v w) (hw : w ≠ 0) :
    ∃ m e, Canonical m e ∧ e ≤ 971 ∧ ReadsBack m e v ∧ w = m * 2 ^ e := by
  cases h with
  | zero _ _ => exact absurd rfl hw
  | finite hc he h => exact ⟨_, _, hc, he, h, rfl⟩

/-- Only the least numbers are rounded to zero. -/
theorem Nearest.le_of_eq_zero (h : Nearest v w) (hw : w = 0) : v ≤ 2 ^ (-1075 : ℤ) := by
  cases h with
  | zero _ hhigh => exact hhigh
  | finite hc he h => exact absurd hw hc.value_pos.ne'

/-- The next double is at least one unit of the last place away. -/
theorem Canonical.add_one_le {m' : ℕ} {e' : ℤ} (hc : Canonical m e) (hc' : Canonical m' e')
    (h : (m : ℚ) * 2 ^ e < m' * 2 ^ e') : ((m : ℚ) + 1) * 2 ^ e ≤ m' * 2 ^ e' := by
  rcases lt_trichotomy e e' with hlt | rfl | hgt
  · have hm : (m : ℚ) + 1 ≤ 2 ^ 53 := by exact_mod_cast hc.lt
    calc ((m : ℚ) + 1) * 2 ^ e ≤ 2 ^ 53 * 2 ^ e := by gcongr
      _ ≤ m' * 2 ^ e' := hc'.pow_le_of_exponent_lt hc.least hlt
  · have hlt : m < m' := by exact_mod_cast lt_of_mul_lt_mul_right h (by positivity)
    gcongr
    exact_mod_cast hlt
  · exact absurd h (hc'.lt_of_exponent_lt hc hgt).asymm

/-- Two doubles are farther apart than the lesser one could be off by rounding. -/
theorem RoundsTo.gap (hv : RoundsTo v v) (hw : RoundsTo w w) (hpos : 0 < v) (hlt : v < w) :
    (1 + roundoff) * v < w := by
  obtain ⟨m, e, hc, -, -, hvalue⟩ := (hv.nearest hpos.le).exists_canonical hpos.ne'
  obtain ⟨m', e', hc', -, -, hvalue'⟩ :=
    (hw.nearest (hpos.trans hlt).le).exists_canonical (hpos.trans hlt).ne'
  rw [hvalue, hvalue'] at hlt
  have hm : roundoff * m < 1 := by
    have hm : (m : ℚ) < 2 ^ 53 := by exact_mod_cast hc.lt
    rw [roundoff]
    linarith
  calc (1 + roundoff) * v = (m + roundoff * m) * 2 ^ e := by
        rw [hvalue]
        ring
    _ < (m + 1) * 2 ^ e := by gcongr
    _ ≤ w := by
        rw [hvalue']
        exact hc.add_one_le hc' hlt

/-- The part of a double that could be lost by rounding is hardly more than its distance from
any other double. -/
theorem RoundsTo.roundoff_mul_le (hv : RoundsTo v v) (hw : RoundsTo w w) (hne : v ≠ w) :
    roundoff * |v| ≤ (1 + roundoff) * |w - v| := by
  have hpart : 0 < roundoff := by norm_num [roundoff]
  wlog hpos : 0 ≤ v generalizing v w
  · have hneg := this hv.neg hw.neg (neg_injective.ne hne) (by linarith)
    rwa [abs_neg, ← neg_sub', abs_neg] at hneg
  rw [abs_of_nonneg hpos]
  rcases le_or_gt w 0 with hnonpos | hwpos
  · calc roundoff * v ≤ (1 + roundoff) * v := by linarith
      _ ≤ (1 + roundoff) * |w - v| := by
          gcongr
          rw [abs_of_nonpos (by linarith)]
          linarith
  rcases lt_or_gt_of_ne hne with hlt | hgt
  · have hdistance : 0 < w - v := sub_pos.mpr hlt
    rw [abs_of_pos hdistance]
    rcases hpos.eq_or_lt with rfl | hpos
    · rw [mul_zero]
      positivity
    · have hgap := hv.gap hw hpos hlt
      linarith [mul_pos hpart hdistance]
  · have hgap := hw.gap hv hwpos hgt
    rw [abs_of_neg (sub_neg.mpr hgt)]
    linarith

/-- Rounding down does not lose more than a small part of the result. -/
theorem RoundsTo.le_mul (h : RoundsTo v w) (hv : 0 ≤ v) (hw : 1 ≤ w) :
    v ≤ (1 + roundoff) * w := by
  obtain ⟨m, e, hc, -, hread, rfl⟩ := (h.nearest hv).exists_canonical (by linarith)
  have hnormal : -1074 < e := by
    by_contra hle
    have hunit : (2 : ℚ) ^ e ≤ 2 ^ (-53 : ℤ) := zpow_le_zpow_right₀ one_le_two (by omega)
    have hm : (m : ℚ) < 2 ^ 53 := by exact_mod_cast hc.lt
    have hlt : (m : ℚ) * 2 ^ e < 2 ^ 53 * 2 ^ (-53 : ℤ) :=
      mul_lt_mul hm hunit (by positivity) (by positivity)
    rw [← zpow_natCast, ← zpow_add₀ two_ne_zero] at hlt
    exact absurd hw hlt.not_ge
  have hm : (2 : ℚ) ^ 52 ≤ m := by exact_mod_cast hc.normal hnormal
  have hle := hread.le
  rw [div_le_iff₀ (by positivity)] at hle
  have hhalf : (m : ℚ) + 1 / 2 ≤ (1 + roundoff) * m := by
    rw [roundoff]
    linarith
  calc v ≤ (m + 1 / 2) * 2 ^ e := hle
    _ ≤ (1 + roundoff) * m * 2 ^ e := by gcongr
    _ = (1 + roundoff) * (m * 2 ^ e) := mul_assoc _ _ _

end Easing.Binary64

/-! ## Operations -/

namespace Easing.Float64.Value

open Binary64

variable {x y : Float} {v w : ℚ}

theorem multiple (h : Value x v) : Multiple v := Denotes.exists_multiple h

/-- Sums below the limit are rounded, with nothing lost near zero. -/
theorem exists_add (hx : Value x v) (hy : Value y w) (h : |v + w| < limit) :
    ∃ u, Value (x + y) u ∧ |u - (v + w)| ≤ roundoff * |v + w| := by
  obtain ⟨u, hu⟩ := exists_roundsTo_iff.mpr h
  exact ⟨u, .of_pack (Denotes.add hx hy hu),
    hu.abs_sub_le_of_multiple (hx.multiple.add hy.multiple)⟩

theorem exists_sub (hx : Value x v) (hy : Value y w) (h : |v - w| < limit) :
    ∃ u, Value (x - y) u ∧ |u - (v - w)| ≤ roundoff * |v - w| := by
  obtain ⟨u, hu⟩ := exists_roundsTo_iff.mpr h
  exact ⟨u, .of_pack (Denotes.sub hx hy hu),
    hu.abs_sub_le_of_multiple (hx.multiple.sub hy.multiple)⟩

/-- Products below the limit are rounded, and may underflow. -/
theorem exists_mul (hx : Value x v) (hy : Value y w) (h : |v * w| < limit) :
    ∃ u, Value (x * y) u ∧ |u - v * w| ≤ roundoff * |v * w| + 2 ^ (-1075 : ℤ) := by
  obtain ⟨u, hu⟩ := exists_roundsTo_iff.mpr h
  exact ⟨u, .of_pack (Denotes.mul hx hy hu), hu.abs_sub_le⟩

theorem exists_div (hx : Value x v) (hy : Value y w) (hw : w ≠ 0) (h : |v / w| < limit) :
    ∃ u, Value (x / y) u ∧ |u - v / w| ≤ roundoff * |v / w| + 2 ^ (-1075 : ℤ) := by
  obtain ⟨u, hu⟩ := exists_roundsTo_iff.mpr h
  exact ⟨u, .of_pack (Denotes.div hx hy hw hu), hu.abs_sub_le⟩

end Easing.Float64.Value
