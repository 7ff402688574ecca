import Easing.Proofs.Number.Error

/-! # Wrapping by rounded steps

To wrap a number around, its distance from the range is divided by the width, the quotient is
rounded up, and so many widths are taken off. If every one of these steps is rounded, the
number may come to lie beside the range, by a small part of the greatest magnitude among the
bounds and the number. If the distance and the multiples of the width next to it need no
rounding, the widths are counted exactly, and the number comes to the place of exact
arithmetic, rounded once.
-/

namespace Easing

namespace Rational

/-- The greatest magnitude among two bounds and a number. -/
def reach (low high x : ℚ) : ℚ := max |x| (max |low| |high|)

/-- A number that lies between two bounds up to eight roundings of the greatest magnitude. -/
structure Beside (low high x y : ℚ) : Prop where
  low_le : low - reach low high x / 2 ^ 50 ≤ y
  le_high : y ≤ high + reach low high x / 2 ^ 50

/-- Two bounds and a number that are integers of up to 53 bits in a common unit, which is a
power of two. -/
def OnGrid (low high x : ℚ) : Prop :=
  ∃ k i j l : ℤ, -1074 ≤ k ∧ k ≤ 970 ∧ |i| ≤ 2 ^ 52 ∧ |j| ≤ 2 ^ 52 ∧ |l| ≤ 2 ^ 52 ∧
    low = i * 2 ^ k ∧ high = j * 2 ^ k ∧ x = l * 2 ^ k

/-- Two bounds around zero that are integers in a common unit, and a number of any unit, beyond
them by no more than can be counted in it, nor by less than can be compared with the width. -/
def AroundZero (low high x : ℚ) : Prop :=
  ∃ k i j : ℤ, -1074 ≤ k ∧ k ≤ 969 ∧ i ≤ 0 ∧ 0 ≤ j ∧ low = i * 2 ^ k ∧ high = j * 2 ^ k ∧
    |x| + (high - low) ≤ 2 ^ 53 * 2 ^ k ∧
    2 ^ (-1074 : ℤ) * (high - low) ≤ max (low - x) (x - high)

variable {low high x y : ℚ}

theorem le_reach (low high x : ℚ) :
    |low| ≤ reach low high x ∧ |high| ≤ reach low high x ∧ |x| ≤ reach low high x :=
  ⟨(le_max_left _ _).trans (le_max_right _ _), (le_max_right _ _).trans (le_max_right _ _),
    le_max_left _ _⟩

theorem reach_neg (low high x : ℚ) : reach (-high) (-low) (-x) = reach low high x := by
  simp only [reach, abs_neg, max_comm |high|]

theorem Beside.of_neg (h : Beside (-high) (-low) (-x) (-y)) : Beside low high x y := by
  obtain ⟨hlow, hhigh⟩ := h
  rw [reach_neg] at hlow hhigh
  constructor <;> linarith

theorem OnGrid.neg (h : OnGrid low high x) : OnGrid (-high) (-low) (-x) := by
  obtain ⟨k, i, j, l, hk, hk', hi, hj, hl, rfl, rfl, rfl⟩ := h
  refine ⟨k, -j, -i, -l, hk, hk', by rwa [abs_neg], by rwa [abs_neg], by rwa [abs_neg], ?_, ?_, ?_⟩
  all_goals rw [Int.cast_neg, neg_mul]

/-- So many units, if they are not too great, are a quarter of what doubles reach at most. -/
theorem units_le {n : ℕ} {k : ℤ} (h : n + k ≤ 1022) :
    (2 : ℚ) ^ n * 2 ^ k ≤ 2 ^ 51 * 2 ^ (971 : ℤ) := by
  rw [← zpow_natCast, ← zpow_natCast, ← zpow_add₀ two_ne_zero, ← zpow_add₀ two_ne_zero]
  exact zpow_le_zpow_right₀ one_le_two h

/-- What lies on a grid is not among the greatest doubles. -/
theorem OnGrid.reach_le (h : OnGrid low high x) :
    reach low high x ≤ 2 ^ 51 * 2 ^ (971 : ℤ) := by
  obtain ⟨k, i, j, l, -, hk, hi, hj, hl, rfl, rfl, rfl⟩ := h
  have hle (i : ℤ) (hi : |i| ≤ 2 ^ 52) : |(i : ℚ) * 2 ^ k| ≤ 2 ^ 51 * 2 ^ (971 : ℤ) := by
    have hi : |(i : ℚ)| ≤ 2 ^ 52 := by exact_mod_cast hi
    calc |(i : ℚ) * 2 ^ k| = |(i : ℚ)| * 2 ^ k := by rw [abs_mul, abs_zpow, abs_two]
      _ ≤ 2 ^ 52 * 2 ^ k := by gcongr
      _ ≤ 2 ^ 51 * 2 ^ (971 : ℤ) := units_le (by push_cast; omega)
  exact max_le (hle l hl) (max_le (hle i hi) (hle j hj))

theorem AroundZero.neg (h : AroundZero low high x) : AroundZero (-high) (-low) (-x) := by
  obtain ⟨k, i, j, hk, hk', hi, hj, rfl, rfl, hle, htiny⟩ := h
  refine ⟨k, -j, -i, hk, hk', by omega, by omega, ?_, ?_, ?_, ?_⟩
  · rw [Int.cast_neg, neg_mul]
  · rw [Int.cast_neg, neg_mul]
  · rwa [abs_neg, neg_sub_neg]
  · rwa [neg_sub_neg, neg_sub_neg, neg_sub_neg, max_comm]

theorem AroundZero.reach_le (h : AroundZero low high x) :
    reach low high x ≤ 2 ^ 51 * 2 ^ (971 : ℤ) := by
  obtain ⟨k, i, j, -, hk, hi, hj, hlow, hhigh, hle, -⟩ := h
  have hmost : (2 : ℚ) ^ 53 * 2 ^ k ≤ 2 ^ 51 * 2 ^ (971 : ℤ) := units_le (by push_cast; omega)
  have hlow : low ≤ 0 := by
    rw [hlow]
    exact mul_nonpos_of_nonpos_of_nonneg (Int.cast_nonpos.mpr hi) (by positivity)
  have hhigh : 0 ≤ high := by
    rw [hhigh]
    exact mul_nonneg (Int.cast_nonneg hj) (by positivity)
  have hx := abs_nonneg x
  refine max_le ?_ (max_le ?_ ?_)
  · linarith
  · rw [abs_of_nonpos hlow]
    linarith
  · rw [abs_of_nonneg hhigh]
    linarith

end Rational

namespace Binary64

variable {a b v u w p distance width : ℚ} {n : ℤ}

/-! ## Counting widths -/

/-- What becomes of a width, and how many of them cover a distance, if the distance, the
width and their quotient are rounded. -/
inductive Counted (distance width : ℚ) : ℚ → ℤ → Prop
  | intro {d w q : ℚ} (hd : RoundsTo distance d) (hw : RoundsTo width w)
      (hq : RoundsTo (d / w) q) : Counted distance width w ⌈q⌉

/-- Half the least double is far less than the error of any other rounding. -/
theorem half_least_le : (2 : ℚ) ^ (-1075 : ℤ) ≤ roundoff ^ 2 := by
  have hsquare : roundoff ^ 2 = 2 ^ (-106 : ℤ) := by norm_num [roundoff]
  rw [hsquare]
  exact zpow_le_zpow_right₀ one_le_two (by norm_num)

/-- Times the divisor, a rounded quotient is the dividend again, up to an error. -/
theorem RoundsTo.quotient_mul {q : ℚ} (h : RoundsTo (v / w) q) (hv : 0 ≤ v) (hw : 0 < w) :
    0 ≤ q ∧ |q * w - v| ≤ roundoff * v + roundoff ^ 2 * w := by
  have hnearest := h.nearest (div_nonneg hv hw.le)
  refine ⟨hnearest.value_nonneg, ?_⟩
  have hcancel : v / w * w = v := div_mul_cancel₀ _ hw.ne'
  calc |q * w - v| = |q - v / w| * w := by
        rw [← abs_of_pos hw, ← abs_mul, sub_mul, abs_of_pos hw, hcancel]
    _ ≤ (roundoff * (v / w) + roundoff ^ 2) * w := by
        gcongr
        exact hnearest.abs_sub_le.trans (add_le_add_right half_least_le _)
    _ = roundoff * v + roundoff ^ 2 * w := by rw [add_mul, mul_assoc, hcancel]

/-- Rounded up, the quotient falls short of covering the distance by a few roundings at most,
and exceeds it by less than a width and a few roundings. -/
theorem Counted.bounds (h : Counted distance width w n) (hdistance : 0 < distance)
    (hwidth : 0 < width) (hd : Multiple distance) (hw : Multiple width) :
    0 ≤ n * w ∧ distance - 2 * roundoff * (distance + width) ≤ n * w ∧
      n * w ≤ (1 + roundoff) ^ 2 * (distance + width) := by
  obtain ⟨hd', hw', hq⟩ := h
  rename_i d q
  have hdError := hd'.abs_sub_le_of_multiple hd
  have hwError := hw'.abs_sub_le_of_multiple hw
  rw [abs_of_pos hdistance, abs_le] at hdError
  rw [abs_of_pos hwidth, abs_le] at hwError
  norm_num [roundoff] at hdError hwError ⊢
  have hdPos : 0 < d := by linarith
  have hwPos : 0 < w := by linarith
  obtain ⟨hnonneg, hscaled⟩ := hq.quotient_mul hdPos.le hwPos
  have hcover : q * w ≤ ⌈q⌉ * w := mul_le_mul_of_nonneg_right (Int.le_ceil q) hwPos.le
  have hexcess : ⌈q⌉ * w ≤ (q + 1) * w :=
    mul_le_mul_of_nonneg_right (Int.ceil_lt_add_one q).le hwPos.le
  rw [abs_le] at hscaled
  norm_num [roundoff] at hscaled
  refine ⟨(mul_nonneg hnonneg hwPos.le).trans hcover, ?_, ?_⟩ <;> linarith

/-- The product by the width is rounded once more. -/
theorem Counted.covers (h : Counted distance width w n) (hdistance : 0 < distance)
    (hwidth : 0 < width) (hd : Multiple distance) (hw : Multiple width)
    (hp : RoundsTo (n * w) p) :
    distance - 3 * roundoff * (distance + width) ≤ p ∧
      p ≤ (1 + roundoff) ^ 3 * (distance + width) := by
  obtain ⟨hnonneg, hcover, hexcess⟩ := h.bounds hdistance hwidth hd hw
  have hmultiple : Multiple (n * w) := by
    obtain ⟨_, hw', _⟩ := h
    exact hw'.multiple.int_mul _
  have herror := hp.abs_sub_le_of_multiple hmultiple
  rw [abs_of_nonneg hnonneg, abs_le] at herror
  generalize (n : ℚ) * w = product at hnonneg hcover hexcess herror
  norm_num [roundoff] at hcover hexcess herror ⊢
  constructor <;> linarith

/-- A distance, a width, and the multiples of the width on both sides of the distance, none of
which needs to be rounded. -/
structure Unrounded (distance width : ℚ) : Prop where
  distance_exact : RoundsTo distance distance
  width_exact : RoundsTo width width
  before : RoundsTo ((⌈distance / width⌉ - 1 : ℤ) * width) ((⌈distance / width⌉ - 1 : ℤ) * width)
  behind : RoundsTo (⌈distance / width⌉ * width) (⌈distance / width⌉ * width)
  count_le : ⌈distance / width⌉ ≤ 2 ^ 53
  not_tiny : 2 ^ (-1075 : ℤ) < distance / width

/-- Then the widths are counted exactly, because a multiple of the width that is a double is
too far from the distance for the quotient to be rounded to the number of widths in it. -/
theorem Counted.exact (h : Counted distance width w n) (hunrounded : Unrounded distance width)
    (hdistance : 0 < distance) (hwidth : 0 < width) :
    w = width ∧ n = ⌈distance / width⌉ := by
  obtain ⟨hd, hw, hq⟩ := h
  rename_i d q
  obtain rfl := hd.eq hunrounded.distance_exact
  obtain rfl := hw.eq hunrounded.width_exact
  have hpos : 0 < d / w := div_pos hdistance hwidth
  have hceil := Int.ceil_pos.mpr hpos
  have hle := hunrounded.count_le
  have hinteger (c : ℤ) (hlow : 0 ≤ c) (hhigh : c ≤ 2 ^ 53) : RoundsTo c c := by
    have hself := roundsTo_scaled (k := 0) (show |c| ≤ 2 ^ 53 by rwa [abs_of_nonneg hlow])
      (by norm_num) (by norm_num)
    rwa [zpow_zero, mul_one] at hself
  refine ⟨rfl, Int.ceil_eq_iff.mpr ⟨?_, hq.mono (hinteger _ hceil.le hle) (Int.le_ceil _)⟩⟩
  have hbelow : ((⌈d / w⌉ - 1 : ℤ) : ℚ) < d / w := by
    push_cast
    linarith [Int.ceil_lt_add_one (d / w)]
  have hbefore := hunrounded.before
  rw [← Int.cast_one, ← Int.cast_sub]
  generalize hm : ⌈d / w⌉ - 1 = m at hbelow hbefore
  have hge : (m : ℚ) ≤ q := (hinteger m (by omega) (by omega)).mono hq hbelow.le
  refine lt_of_le_of_ne hge fun heq => ?_
  subst heq
  rcases (show m = 0 ∨ 1 ≤ m by omega) with rfl | hone
  · have htiny := (hq.nearest hpos.le).le_of_eq_zero Int.cast_zero
    exact absurd htiny hunrounded.not_tiny.not_ge
  · have hone : (1 : ℚ) ≤ m := by exact_mod_cast hone
    have hnear := hq.le_mul hpos.le hone
    rw [div_le_iff₀ hwidth, mul_assoc] at hnear
    rw [lt_div_iff₀ hwidth] at hbelow
    exact absurd (hbefore.gap hunrounded.distance_exact (by positivity) hbelow) hnear.not_gt

/-! ## Moving a number by widths -/

/-- A number outside two bounds, and where it comes to lie if every step is rounded. -/
inductive Wrapped (a b v : ℚ) : ℚ → Prop
  | below {w p u : ℚ} {n : ℤ} (hlt : v < a) (hcounted : Counted (a - v) (b - a) w n)
      (hp : RoundsTo (n * w) p) (hu : RoundsTo (v + p) u) : Wrapped a b v u
  | above {w p u : ℚ} {n : ℤ} (hlt : b < v) (hcounted : Counted (v - b) (b - a) w n)
      (hp : RoundsTo (n * w) p) (hu : RoundsTo (v - p) u) : Wrapped a b v u

theorem Counted.neg {s t : ℚ} (h : Counted (s - t) (b - a) w n) :
    Counted (-t - -s) (-a - -b) w n := by
  rwa [neg_sub_neg, neg_sub_neg]

theorem RoundsTo.neg_add (h : RoundsTo (v - p) u) : RoundsTo (-v + p) (-u) := by
  rw [neg_add_eq_sub, ← neg_sub]
  exact h.neg

/-- Above a range the steps are those below the range on the other side of zero. -/
theorem Wrapped.neg (h : Wrapped a b v u) : Wrapped (-b) (-a) (-v) (-u) := by
  cases h with
  | below hlt hcounted hp hu =>
      refine .above (neg_lt_neg hlt) hcounted.neg hp ?_
      rw [← neg_add']
      exact hu.neg
  | above hlt hcounted hp hu =>
      exact .below (neg_lt_neg hlt) hcounted.neg hp hu.neg_add

/-- Moved up by what covers the distance, a number comes to lie in the range or beside it. -/
theorem Counted.moved (h : Counted (a - v) (b - a) w n) (hlt : v < a) (hab : a < b)
    (ha : Multiple a) (hb : Multiple b) (hv : Multiple v) (hp : RoundsTo (n * w) p) :
    a - 13 / 2 * roundoff * Rational.reach a b v ≤ v + p ∧
      v + p ≤ b + 13 / 2 * roundoff * Rational.reach a b v ∧
      |v + p| ≤ (1 + 13 / 2 * roundoff) * Rational.reach a b v := by
  obtain ⟨hcover, hexcess⟩ :=
    h.covers (sub_pos.mpr hlt) (sub_pos.mpr hab) (ha.sub hv) (hb.sub ha) hp
  obtain ⟨haReach, hbReach, hvReach⟩ := Rational.le_reach a b v
  rw [abs_le] at hvReach haReach hbReach
  norm_num [roundoff, abs_le] at hcover hexcess ⊢
  refine ⟨?_, ?_, ?_, ?_⟩ <;> linarith

theorem Wrapped.beside_of_lt (h : Wrapped a b v u) (hlt : v < a) (hab : a < b)
    (ha : Multiple a) (hb : Multiple b) (hv : Multiple v) : Rational.Beside a b v u := by
  cases h with
  | above hgt _ _ _ => linarith
  | below _ hcounted hp hu =>
      obtain ⟨hlow, hhigh, hsize⟩ := hcounted.moved hlt hab ha hb hv hp
      have herror := hu.abs_sub_le_of_multiple (hv.add hp.multiple)
      rw [abs_le] at herror
      norm_num [roundoff] at hlow hhigh hsize herror
      constructor <;> norm_num <;> linarith

/-- A number that is wrapped around comes to lie in the range or beside it. -/
theorem Wrapped.beside (h : Wrapped a b v u) (hab : a < b) (ha : Multiple a) (hb : Multiple b)
    (hv : Multiple v) : Rational.Beside a b v u := by
  have hside : v < a ∨ b < v := by
    cases h with
    | below hlt _ _ _ => exact .inl hlt
    | above hlt _ _ _ => exact .inr hlt
  rcases hside with hlt | hlt
  · exact h.beside_of_lt hlt hab ha hb hv
  · exact (h.neg.beside_of_lt (neg_lt_neg hlt) (neg_lt_neg hab) hb.neg ha.neg hv.neg).of_neg

/-- Widths that cover a distance are not too large, if half of the greatest doubles hold the
distance and the width together. -/
theorem Counted.exists_product (h : Counted distance width w n) (hdistance : 0 < distance)
    (hwidth : 0 < width) (hd : Multiple distance) (hw : Multiple width)
    (hsum : distance + width ≤ 2 ^ 52 * 2 ^ (971 : ℤ)) : ∃ p, RoundsTo (n * w) p := by
  obtain ⟨hnonneg, -, hexcess⟩ := h.bounds hdistance hwidth hd hw
  have hunit : (0 : ℚ) < 2 ^ (971 : ℤ) := by positivity
  apply exists_roundsTo_of_abs_le
  rw [abs_of_nonneg hnonneg]
  generalize (2 : ℚ) ^ (971 : ℤ) = unit at hsum hunit ⊢
  norm_num [roundoff] at hexcess hsum ⊢
  linarith

theorem Counted.exists_moved (h : Counted (a - v) (b - a) w n) (hlt : v < a) (hab : a < b)
    (ha : Multiple a) (hb : Multiple b) (hv : Multiple v) (hp : RoundsTo (n * w) p)
    (hreach : Rational.reach a b v ≤ 2 ^ 51 * 2 ^ (971 : ℤ)) : ∃ u, RoundsTo (v + p) u := by
  obtain ⟨-, -, hsize⟩ := h.moved hlt hab ha hb hv hp
  have hunit : (0 : ℚ) < 2 ^ (971 : ℤ) := by positivity
  apply exists_roundsTo_of_abs_le
  generalize (2 : ℚ) ^ (971 : ℤ) = unit at hreach hunit ⊢
  norm_num [roundoff] at hsize hreach ⊢
  linarith

/-- Where nothing before the last step needs to be rounded, a number that is wrapped around
comes to the place of exact arithmetic, rounded once. -/
theorem Wrapped.rounds_of_lt (h : Wrapped a b v u) (hlt : v < a) (hab : a < b)
    (hunrounded : Unrounded (a - v) (b - a)) :
    RoundsTo (v + ⌈(a - v) / (b - a)⌉ * (b - a)) u := by
  cases h with
  | above hgt _ _ _ => linarith
  | below _ hcounted hp hu =>
      obtain ⟨rfl, rfl⟩ := hcounted.exact hunrounded (sub_pos.mpr hlt) (sub_pos.mpr hab)
      obtain rfl := hp.eq hunrounded.behind
      exact hu

/-! ## Where nothing needs to be rounded -/

/-- Bounds in a common unit, and a number at an exact distance that is neither too far away
nor, for the quotient, too near. -/
theorem Unrounded.of_scaled {j k : ℤ} (hexact : RoundsTo distance distance)
    (hdistance : 0 < distance) (hj : 0 < j) (hlow : -1074 ≤ k) (hhigh : k ≤ 970)
    (hsum : distance + j * 2 ^ k ≤ 2 ^ 53 * 2 ^ k)
    (htiny : 2 ^ (-1075 : ℤ) * (j * 2 ^ k) < distance) : Unrounded distance (j * 2 ^ k) := by
  have hunit : (0 : ℚ) < 2 ^ k := by positivity
  have hj' : (0 : ℚ) < j := Int.cast_pos.mpr hj
  have hwidth : (0 : ℚ) < j * 2 ^ k := mul_pos hj' hunit
  obtain ⟨hcover, hexcess⟩ := Rational.ceil_mul_bounds hwidth distance
  have hone : 0 < ⌈distance / (j * 2 ^ k)⌉ := Int.ceil_pos.mpr (div_pos hdistance hwidth)
  have hnot : 2 ^ (-1075 : ℤ) < distance / (j * 2 ^ k) := by rwa [lt_div_iff₀ hwidth]
  generalize hc : ⌈distance / (j * 2 ^ k)⌉ = c at hcover hexcess hone
  have hmost : c * j < 2 ^ 53 := by
    have hlt : ((c * j : ℤ) : ℚ) * 2 ^ k < (2 ^ 53 : ℤ) * 2 ^ k := by
      push_cast
      linarith
    exact_mod_cast lt_of_mul_lt_mul_right hlt hunit.le
  have hle : c ≤ c * j := le_mul_of_one_le_right hone.le hj
  have hjle : j ≤ c * j := le_mul_of_one_le_left hj.le hone
  have hscaled (m : ℤ) (hm : 0 ≤ m) (hle : m ≤ 2 ^ 53) : RoundsTo (m * 2 ^ k) (m * 2 ^ k) :=
    roundsTo_scaled (by rwa [abs_of_nonneg hm]) hlow hhigh
  have hmultiple (m : ℤ) (hm : 0 ≤ m) (hle : m ≤ c) :
      RoundsTo (m * (j * 2 ^ k)) (m * (j * 2 ^ k)) := by
    rw [← mul_assoc, ← Int.cast_mul]
    have hmj : m * j ≤ c * j := mul_le_mul_of_nonneg_right hle hj.le
    exact hscaled (m * j) (mul_nonneg hm hj.le) (by omega)
  constructor
  case distance_exact => exact hexact
  case width_exact => exact hscaled j hj.le (by omega)
  case before =>
    rw [hc]
    exact hmultiple (c - 1) (by omega) (by omega)
  case behind =>
    rw [hc]
    exact hmultiple c hone.le le_rfl
  case count_le =>
    rw [hc]
    omega
  case not_tiny => exact hnot

theorem Unrounded.of_onGrid (h : Rational.OnGrid a b v) (hlt : v < a) (hab : a < b) :
    Unrounded (a - v) (b - a) := by
  obtain ⟨k, i, j, l, hlow, hhigh, hi, hj, hl, rfl, rfl, rfl⟩ := h
  have hunit : (0 : ℚ) < 2 ^ k := by positivity
  have hli : l < i := by exact_mod_cast lt_of_mul_lt_mul_right hlt hunit.le
  have hij : i < j := by exact_mod_cast lt_of_mul_lt_mul_right hab hunit.le
  rw [abs_le] at hi hj hl
  rw [← sub_mul, ← sub_mul, ← Int.cast_sub, ← Int.cast_sub]
  have hexact : RoundsTo ((i - l : ℤ) * 2 ^ k) ((i - l : ℤ) * 2 ^ k) :=
    roundsTo_scaled (abs_le.mpr ⟨by omega, by omega⟩) hlow hhigh
  have hone : (1 : ℚ) ≤ (i - l : ℤ) := by exact_mod_cast (show 1 ≤ i - l by omega)
  refine .of_scaled hexact (by positivity) (sub_pos.mpr hij) hlow hhigh ?sum ?tiny
  case sum =>
    rw [← add_mul, ← Int.cast_add]
    gcongr
    exact_mod_cast (show i - l + (j - i) ≤ 2 ^ 53 by omega)
  case tiny =>
    have hmost : ((j - i : ℤ) : ℚ) ≤ 2 ^ 53 := by exact_mod_cast (show j - i ≤ 2 ^ 53 by omega)
    rw [← mul_assoc]
    gcongr
    calc (2 : ℚ) ^ (-1075 : ℤ) * (j - i : ℤ) ≤ roundoff ^ 2 * 2 ^ 53 := by
          gcongr
          exact half_least_le
      _ < 1 := by norm_num [roundoff]
      _ ≤ (i - l : ℤ) := hone

/-- On a grid the last step is not rounded either, because it leads back between the bounds. -/
theorem roundsTo_place (h : Rational.OnGrid a b v) (hlt : v < a) (hab : a < b) :
    RoundsTo (v + ⌈(a - v) / (b - a)⌉ * (b - a)) (v + ⌈(a - v) / (b - a)⌉ * (b - a)) := by
  obtain ⟨hcover, hexcess⟩ := Rational.ceil_mul_bounds (sub_pos.mpr hab) (a - v)
  obtain ⟨k, i, j, l, hlow, hhigh, hi, hj, -, rfl, rfl, rfl⟩ := h
  generalize ⌈((i : ℚ) * 2 ^ k - l * 2 ^ k) / (j * 2 ^ k - i * 2 ^ k)⌉ = c at hcover hexcess ⊢
  have hunit : (0 : ℚ) < 2 ^ k := by positivity
  have hplace : (l : ℚ) * 2 ^ k + c * (j * 2 ^ k - i * 2 ^ k) =
      ((l + c * (j - i) : ℤ) : ℚ) * 2 ^ k := by
    push_cast
    ring
  have hge : (i : ℚ) * 2 ^ k ≤ (l + c * (j - i) : ℤ) * 2 ^ k := by linarith
  have hle : ((l + c * (j - i) : ℤ) : ℚ) * 2 ^ k ≤ j * 2 ^ k := by linarith
  have hge : i ≤ l + c * (j - i) := by exact_mod_cast le_of_mul_le_mul_right hge hunit
  have hle : l + c * (j - i) ≤ j := by exact_mod_cast le_of_mul_le_mul_right hle hunit
  rw [abs_le] at hi hj
  rw [hplace]
  exact roundsTo_scaled (abs_le.mpr ⟨by omega, by omega⟩) hlow hhigh

/-- A double is at an exact distance from an integer in a given unit, on the same side of zero
and not too far from it. -/
theorem roundsTo_sub_scaled {j k : ℤ} (hv : RoundsTo v v) (hj : 0 ≤ j) (hlt : j * 2 ^ k < v)
    (hlow : -1074 ≤ k) (hhigh : k ≤ 970) (hle : v - j * 2 ^ k ≤ 2 ^ 53 * 2 ^ k) :
    RoundsTo (v - j * 2 ^ k) (v - j * 2 ^ k) := by
  have hpos : 0 < v := by
    have hj : (0 : ℚ) ≤ j := Int.cast_nonneg hj
    exact lt_of_le_of_lt (by positivity) hlt
  obtain ⟨m, e, hc, he, -, hvalue⟩ := (hv.nearest hpos.le).exists_canonical hpos.ne'
  have hscaled (i t : ℤ) (hi : 0 < (i : ℚ) * 2 ^ t) (hmost : (i : ℚ) * 2 ^ t ≤ 2 ^ 53 * 2 ^ t)
      (hlow : -1074 ≤ t) (hhigh : t ≤ 970) : RoundsTo (i * 2 ^ t) (i * 2 ^ t) := by
    have hunit : (0 : ℚ) < 2 ^ t := by positivity
    have hi : 0 < i := by exact_mod_cast pos_of_mul_pos_left hi hunit.le
    have hmost : i ≤ 2 ^ 53 := by exact_mod_cast le_of_mul_le_mul_right hmost hunit
    exact roundsTo_scaled (by rwa [abs_of_pos hi]) hlow hhigh
  have hdistance : 0 < v - j * 2 ^ k := sub_pos.mpr hlt
  -- The distance is an integer in the smaller of the two units.
  rcases le_or_gt k e with hcoarse | hfine
  · obtain ⟨t, rfl⟩ := Int.exists_add_of_le hcoarse
    have hdifference : v - j * 2 ^ k = ((m * 2 ^ t - j : ℤ) : ℚ) * 2 ^ k := by
      rw [hvalue, zpow_add₀ two_ne_zero, zpow_natCast]
      push_cast
      ring
    rw [hdifference] at hdistance hle ⊢
    exact hscaled _ _ hdistance hle hlow hhigh
  · obtain ⟨t, rfl⟩ := Int.exists_add_of_le hfine.le
    have hdifference : v - j * 2 ^ (e + t) = ((m - j * 2 ^ t : ℤ) : ℚ) * 2 ^ e := by
      rw [hvalue, zpow_add₀ two_ne_zero, zpow_natCast]
      push_cast
      ring
    have hmost : v - j * 2 ^ (e + t) ≤ 2 ^ 53 * 2 ^ e := by
      have hm : (m : ℚ) ≤ 2 ^ 53 := by exact_mod_cast hc.lt.le
      have hj : (0 : ℚ) ≤ j * 2 ^ (e + t) := mul_nonneg (Int.cast_nonneg hj) (by positivity)
      calc v - j * 2 ^ (e + t) ≤ v := sub_le_self _ hj
        _ ≤ 2 ^ 53 * 2 ^ e := by
            rw [hvalue]
            gcongr
    rw [hdifference] at hdistance hmost ⊢
    exact hscaled _ _ hdistance hmost hc.least (by omega)

/-- Around zero only the last step is rounded. -/
theorem Unrounded.of_aroundZero (h : Rational.AroundZero a b v) (hlt : v < a) (hab : a < b)
    (hv : RoundsTo v v) : Unrounded (a - v) (b - a) := by
  obtain ⟨k, i, j, hlow, hhigh, hi, hj, rfl, rfl, hle, htiny⟩ := h
  have hunit : (0 : ℚ) < 2 ^ k := by positivity
  have hij : i < j := by exact_mod_cast lt_of_mul_lt_mul_right hab hunit.le
  have hnegative : (i : ℚ) * 2 ^ k ≤ 0 :=
    mul_nonpos_of_nonpos_of_nonneg (Int.cast_nonpos.mpr hi) hunit.le
  have hnonneg : (0 : ℚ) ≤ j * 2 ^ k := mul_nonneg (Int.cast_nonneg hj) hunit.le
  have hsize := neg_abs_le v
  have hdistance : (i : ℚ) * 2 ^ k - v = -v - (-i : ℤ) * 2 ^ k := by
    rw [Int.cast_neg, neg_mul]
    ring
  have hwidth : (j : ℚ) * 2 ^ k - i * 2 ^ k = (j - i : ℤ) * 2 ^ k := by
    rw [Int.cast_sub, sub_mul]
  have hexact : RoundsTo (i * 2 ^ k - v) (i * 2 ^ k - v) := by
    rw [hdistance]
    refine roundsTo_sub_scaled hv.neg (by omega) ?_ hlow (by omega) ?_
    · rw [Int.cast_neg, neg_mul]
      linarith
    · rw [← hdistance]
      linarith
  rw [max_eq_left (by linarith), hwidth] at htiny
  rw [hwidth] at hle ⊢
  have hpos : (0 : ℚ) < (j - i : ℤ) * 2 ^ k := mul_pos (Int.cast_pos.mpr (by omega)) hunit
  refine .of_scaled hexact (sub_pos.mpr hlt) (by omega) hlow (by omega) (by linarith) ?_
  have hhalf : (2 : ℚ) ^ (-1075 : ℤ) < 2 ^ (-1074 : ℤ) :=
    zpow_lt_zpow_right₀ one_lt_two (by norm_num)
  exact (mul_lt_mul_of_pos_right hhalf hpos).trans_le htiny

/-! ## Places of exact arithmetic -/

theorem Wrapped.eq_of_lt (h : Wrapped a b v u) (hlt : v < a) (hab : a < b)
    (hgrid : Rational.OnGrid a b v) : u = v + ⌈(a - v) / (b - a)⌉ * (b - a) := by
  have hrounds := h.rounds_of_lt hlt hab (.of_onGrid hgrid hlt hab)
  exact hrounds.eq (roundsTo_place hgrid hlt hab)

theorem Wrapped.eq_of_gt (h : Wrapped a b v u) (hgt : b < v) (hab : a < b)
    (hgrid : Rational.OnGrid a b v) : u = v - ⌈(v - b) / (b - a)⌉ * (b - a) := by
  have hneg := h.neg.eq_of_lt (neg_lt_neg hgt) (neg_lt_neg hab) hgrid.neg
  rw [neg_sub_neg, neg_sub_neg] at hneg
  linarith

theorem Wrapped.roundsTo_of_lt (h : Wrapped a b v u) (hlt : v < a) (hab : a < b)
    (hzero : Rational.AroundZero a b v) (hv : RoundsTo v v) :
    RoundsTo (v + ⌈(a - v) / (b - a)⌉ * (b - a)) u :=
  h.rounds_of_lt hlt hab (.of_aroundZero hzero hlt hab hv)

theorem Wrapped.roundsTo_of_gt (h : Wrapped a b v u) (hgt : b < v) (hab : a < b)
    (hzero : Rational.AroundZero a b v) (hv : RoundsTo v v) :
    RoundsTo (v - ⌈(v - b) / (b - a)⌉ * (b - a)) u := by
  have hneg := (h.neg.roundsTo_of_lt (neg_lt_neg hgt) (neg_lt_neg hab) hzero.neg hv.neg).neg
  rwa [neg_sub_neg, neg_sub_neg, neg_add_rev, neg_neg, neg_neg, neg_add_eq_sub] at hneg

end Binary64

end Easing
