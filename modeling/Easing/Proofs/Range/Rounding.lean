import Easing.Proofs.Mapping.Overflow
import Easing.Proofs.Range.Steps
import Easing.Proofs.Range.Turns

/-! # Landing in a range of doubles

A range of doubles wraps numbers around by rounded steps. What it answers is therefore in the
range, or beside it by a few roundings, unless the numbers are so great that a step overflows.
It is in the range where the number is held, where the bounds and the number are integers of a
moderate size in a common unit, and where the bounds are such integers around zero, as those
of the unit interval are. Being in the range is what a later check asks for, so a number that
came to lie beside it is wrapped around again, or refused.
-/

namespace Easing

/-! ## Ranges of doubles -/

namespace Rational

variable [Elementary ℚ] {a b v : ℚ}

theorem fold_between (hab : a < b) (repeats : RepeatPolicy) (v : ℚ) :
    fold ⟨a, b, repeats, .silent⟩ v =
      if v < a then if repeats.wrapsBelow then v + ⌈(a - v) / (b - a)⌉ * (b - a) else a
      else if b < v then if repeats.wrapsAbove then v - ⌈(v - b) / (b - a)⌉ * (b - a) else b
      else v := by
  have hspan : |(⟨a, b, repeats, .silent⟩ : Range ℚ).span| = b - a := abs_of_pos (sub_pos.mpr hab)
  unfold fold
  simp only [hspan, min_eq_left hab.le, max_eq_right hab.le]

end Rational

namespace Float64

open Binary64

variable {lo hi s t : Float} {a b v w : ℚ} {n : ℤ}

theorem Value.unique {x : Float} (h : Value x v) (h' : Value x w) : v = w :=
  have hself : x ≤ x := (h.le_iff h).mpr le_rfl
  le_antisymm ((h.le_iff h').mp hself) ((h'.le_iff h).mp hself)

/-- A difference that stands for a number stands for the exact difference, rounded. -/
theorem roundsTo_of_value_sub {d : ℚ} (hs : Value s v) (ht : Value t w) (hd : Value (s - t) d) :
    RoundsTo (v - w) d := by
  obtain ⟨v', w', d', hs', ht', hrounds, hd'⟩ := exists_of_isFinite_sub (isFinite_iff.mpr ⟨d, hd⟩)
  rwa [hs.unique hs', ht.unique ht', hd.unique hd']

/-- Where a quotient has a ceiling, the widths in the distance were counted. -/
theorem counted_of_ceiling (hlo : Value lo a) (hhi : Value hi b) (hab : a < b) (hs : Value s v)
    (ht : Value t w) (hlt : w < v) {width : ℚ} (hwidth : RoundsTo (b - a) width)
    (hn : Scalar.ceiling ((s - t) / (hi - lo)) = .ok n) :
    Counted (v - w) (b - a) width n ∧ Value (Float.ofInt n) n := by
  have hvalue : Value (hi - lo) width := .of_pack (Denotes.sub hhi hlo hwidth)
  have hne : width ≠ 0 := hwidth.ne_zero_of_sub hhi hlo hab.ne'
  have hpos : 0 ≤ width := (hwidth.nearest (sub_nonneg.mpr hab.le)).value_nonneg
  obtain ⟨d, q, hd, hq, hquotient⟩ :=
    exists_of_isFinite_div hvalue hne (exists_ceiling_iff.mp ⟨n, hn⟩)
  have hrounds := roundsTo_of_value_sub hs ht hd
  have hdPos : 0 ≤ d := (hrounds.nearest (sub_nonneg.mpr hlt.le)).value_nonneg
  have hqPos : 0 ≤ q := (hq.nearest (div_nonneg hdPos hpos)).value_nonneg
  rw [hquotient.ceiling_eq hqPos, Except.ok.injEq] at hn
  subst hn
  exact ⟨.intro hrounds hwidth hq, (hquotient.floor_ceil hqPos).2⟩

/-- The widths that were counted, taken together, if they are not too large. -/
theorem exists_product (hlo : Value lo a) (hhi : Value hi b) (hab : a < b) (hs : Value s v)
    (ht : Value t w) (hlt : w < v) (hn : Scalar.ceiling ((s - t) / (hi - lo)) = .ok n)
    (h : Scalar.isFinite (Float.ofInt n * (hi - lo)) = true ∨
      v - w + (b - a) ≤ 2 ^ 52 * 2 ^ (971 : ℤ)) :
    ∃ width p, Counted (v - w) (b - a) width n ∧ RoundsTo (n * width) p ∧
      Value (Float.ofInt n * (hi - lo)) p := by
  have hdistance : 0 < v - w := sub_pos.mpr hlt
  have hwidth : 0 < b - a := sub_pos.mpr hab
  have hmultiple : Multiple (b - a) :=
    .sub (Denotes.exists_multiple hhi) (Denotes.exists_multiple hlo)
  rcases h with hfinite | hsum
  · obtain ⟨m, width, p, hm, hvalue, hp, hproduct⟩ := exists_of_isFinite_mul hfinite
    obtain ⟨hcounted, hcount⟩ :=
      counted_of_ceiling hlo hhi hab hs ht hlt (roundsTo_of_value_sub hhi hlo hvalue) hn
    obtain rfl := hm.unique hcount
    exact ⟨width, p, hcounted, hp, hproduct⟩
  · obtain ⟨width, hrounds⟩ : ∃ width, RoundsTo (b - a) width := by
      have hunit : (0 : ℚ) < 2 ^ (971 : ℤ) := by positivity
      apply exists_roundsTo_of_abs_le
      rw [abs_of_pos hwidth]
      generalize (2 : ℚ) ^ (971 : ℤ) = unit at hsum hunit ⊢
      norm_num at hsum ⊢
      linarith
    obtain ⟨hcounted, hcount⟩ := counted_of_ceiling hlo hhi hab hs ht hlt hrounds hn
    obtain ⟨p, hp⟩ := hcounted.exists_product hdistance hwidth
      (.sub (Denotes.exists_multiple hs) (Denotes.exists_multiple ht)) hmultiple hsum
    have hvalue : Value (hi - lo) width := .of_pack (Denotes.sub hhi hlo hrounds)
    exact ⟨width, p, hcounted, hp, .of_pack (Denotes.mul hcount hvalue hp)⟩

section Wrapped

variable {x : Float} (hlo : Value lo a) (hhi : Value hi b) (hab : a < b) (hx : Value x v)
include hlo hhi hab hx

/-- A number below a range is wrapped around by rounded steps, if they end in a finite number
or begin with moderate ones. -/
theorem exists_wrapped_below (hlt : v < a)
    (hn : Scalar.ceiling ((lo - x) / (hi - lo)) = .ok n)
    (h : Scalar.isFinite (x + Float.ofInt n * (hi - lo)) = true ∨
      Rational.reach a b v ≤ 2 ^ 51 * 2 ^ (971 : ℤ)) :
    ∃ u, Value (x + Float.ofInt n * (hi - lo)) u ∧ Wrapped a b v u := by
  rcases h with hfinite | hreach
  · obtain ⟨v', p', u, hx', hp', hu, hy⟩ := exists_of_isFinite_add hfinite
    obtain ⟨width, p, hcounted, hp, hproduct⟩ := exists_product hlo hhi hab hlo hx hlt hn
      (.inl (isFinite_iff.mpr ⟨p', hp'⟩))
    obtain rfl := hx.unique hx'
    obtain rfl := hproduct.unique hp'
    exact ⟨u, hy, .below hlt hcounted hp hu⟩
  · obtain ⟨width, p, hcounted, hp, hproduct⟩ := exists_product hlo hhi hab hlo hx hlt hn (by
      obtain ⟨-, hbReach, hvReach⟩ := Rational.le_reach a b v
      rw [abs_le] at hbReach hvReach
      exact .inr (by linarith))
    obtain ⟨u, hu⟩ := hcounted.exists_moved hlt hab (Denotes.exists_multiple hlo)
      (Denotes.exists_multiple hhi) (Denotes.exists_multiple hx) hp hreach
    exact ⟨u, .of_pack (Denotes.add hx hproduct hu), .below hlt hcounted hp hu⟩

/-- So is a number above a range. -/
theorem exists_wrapped_above (hgt : b < v)
    (hn : Scalar.ceiling ((x - hi) / (hi - lo)) = .ok n)
    (h : Scalar.isFinite (x - Float.ofInt n * (hi - lo)) = true ∨
      Rational.reach a b v ≤ 2 ^ 51 * 2 ^ (971 : ℤ)) :
    ∃ u, Value (x - Float.ofInt n * (hi - lo)) u ∧ Wrapped a b v u := by
  rcases h with hfinite | hreach
  · obtain ⟨v', p', u, hx', hp', hu, hy⟩ := exists_of_isFinite_sub hfinite
    obtain ⟨width, p, hcounted, hp, hproduct⟩ := exists_product hlo hhi hab hx hhi hgt hn
      (.inl (isFinite_iff.mpr ⟨p', hp'⟩))
    obtain rfl := hx.unique hx'
    obtain rfl := hproduct.unique hp'
    exact ⟨u, hy, .above hgt hcounted hp hu⟩
  · obtain ⟨width, p, hcounted, hp, hproduct⟩ := exists_product hlo hhi hab hx hhi hgt hn (by
      obtain ⟨haReach, -, hvReach⟩ := Rational.le_reach a b v
      rw [abs_le] at haReach hvReach
      exact .inr (by linarith))
    obtain ⟨u, hu⟩ := hcounted.neg.exists_moved (neg_lt_neg hgt) (neg_lt_neg hab)
      (Multiple.neg (Denotes.exists_multiple hhi)) (Multiple.neg (Denotes.exists_multiple hlo))
      (Multiple.neg (Denotes.exists_multiple hx)) hp (by rwa [Rational.reach_neg])
    have hu : RoundsTo (v - p) (-u) := by
      have hneg := hu.neg
      rwa [neg_add_rev, neg_neg, neg_add_eq_sub] at hneg
    exact ⟨-u, .of_pack (Denotes.sub hx hproduct hu), .above hgt hcounted hp hu⟩

end Wrapped

/-- What lies between two finite doubles is finite. -/
theorem isFinite_of_between {x : Float} (hlo : Value lo a) (hhi : Value hi b) (hlow : lo ≤ x)
    (hhigh : x ≤ hi) : Scalar.isFinite x = true := by
  rw [le_iff] at hlow hhigh
  obtain ⟨o, ho, hle⟩ := hlow
  obtain ⟨o', ho', hle'⟩ := hhigh
  unfold Value at hlo hhi
  rw [← Bool.not_eq_false, isFinite_eq_false_iff]
  generalize lo.toModel.unpack = l at hlo ho
  generalize hi.toModel.unpack = h at hhi ho'
  rintro (hnan | ⟨_ | _, hinfinite⟩)
  · rw [hnan, compare_eq_none_iff.mpr (.inr rfl)] at ho
    cases ho
  · rw [hinfinite] at ho
    cases hlo <;> cases ho <;> cases hle
  · rw [hinfinite] at ho'
    cases hhi <;> cases ho' <;> cases hle'

end Float64

namespace Range

open Float64 (Value)
open Binary64

variable {r : Range Float} {x y : Float} {a b v u : ℚ} {n : ℤ}

/-- The bounds of an accepted range are finite, and one is below the other. -/
theorem exists_bounds (hbounds : checkBounds r.start r.stop = .ok ()) :
    ∃ a b, Value r.low a ∧ Value r.high b ∧ a < b := by
  unfold checkBounds at hbounds
  split at hbounds
  next => cases hbounds
  next hfinite =>
    split at hbounds
    next => cases hbounds
    next hdiffer =>
      rw [Bool.not_eq_true', Bool.not_eq_false, Bool.and_eq_true] at hfinite
      obtain ⟨v, hv⟩ := Float64.isFinite_iff.mp hfinite.1
      obtain ⟨w, hw⟩ := Float64.isFinite_iff.mp hfinite.2
      rw [hv.beq_iff hw] at hdiffer
      unfold low high Scalar.smaller Scalar.larger
      rcases lt_or_gt_of_ne hdiffer with hlt | hgt
      · rw [if_neg (mt (hw.lt_iff hv).mp hlt.not_gt), if_pos ((hv.lt_iff hw).mpr hlt)]
        exact ⟨v, w, hv, hw, hlt⟩
      · rw [if_pos ((hw.lt_iff hv).mpr hgt), if_neg (mt (hv.lt_iff hw).mp hgt.not_gt)]
        exact ⟨w, v, hw, hv, hgt⟩

/-- A range answers with the nearest of its numbers, or with a number moved from below or from
above by a number of widths that it counts. -/
theorem check_cases (hbounds : checkBounds r.start r.stop = .ok ()) (haction : r.onExceed ≠ .fail)
    (hy : (r.check x).result = .ok y) :
    (r.excess? x = none ∧ y = r.nearest x) ∨
      (∃ n, x < r.low ∧ r.repeats.wrapsBelow = true ∧
        Scalar.ceiling ((r.low - x) / (r.high - r.low)) = .ok n ∧
        y = x + Float.ofInt n * (r.high - r.low)) ∨
      ∃ n, ¬ x < r.low ∧ r.high < x ∧ r.repeats.wrapsAbove = true ∧
        Scalar.ceiling ((x - r.high) / (r.high - r.low)) = .ok n ∧
        y = x - Float.ofInt n * (r.high - r.low) := by
  have hcounted {d : Float} (hresult : ((r.turns d).mapError (Fault.evaluation (α := Float))).map
      (r.moved x) = .ok y) :
      ∃ n, Scalar.ceiling (d / (r.high - r.low)) = .ok n ∧ y = r.moved x n := by
    rw [turns_eq hbounds] at hresult
    cases hn : Scalar.ceiling (d / (r.high - r.low)) with
    | error f =>
        rw [hn] at hresult
        cases hresult
    | ok n =>
        rw [hn] at hresult
        cases hresult
        exact ⟨n, rfl, rfl⟩
  rw [result_check haction] at hy
  unfold excess? at hy ⊢
  by_cases hlow : x < r.low
  · simp only [if_pos hlow] at hy ⊢
    cases hwraps : r.repeats.wrapsBelow with
    | false =>
        rw [hwraps] at hy
        cases hy
        exact .inl ⟨rfl, rfl⟩
    | true =>
        rw [hwraps] at hy
        obtain ⟨n, hn, hmoved⟩ := hcounted hy
        rw [moved, if_pos hlow] at hmoved
        exact .inr (.inl ⟨n, hlow, rfl, hn, hmoved⟩)
  · simp only [if_neg hlow] at hy ⊢
    by_cases hhigh : r.high < x
    · simp only [if_pos hhigh] at hy ⊢
      cases hwraps : r.repeats.wrapsAbove with
      | false =>
          rw [hwraps] at hy
          cases hy
          exact .inl ⟨rfl, rfl⟩
      | true =>
          rw [hwraps] at hy
          obtain ⟨n, hn, hmoved⟩ := hcounted hy
          rw [moved, if_neg hlow] at hmoved
          exact .inr (.inr ⟨n, hlow, hhigh, rfl, hn, hmoved⟩)
    · rw [if_neg hhigh] at hy ⊢
      cases hy
      exact .inl ⟨rfl, rfl⟩

section Values

variable [Elementary ℚ] (hlo : Value r.low a) (hhi : Value r.high b) (hab : a < b)
  (hx : Value x v)
include hlo hhi hab hx

/-- A number that is not wrapped around comes to the same place as in exact arithmetic. -/
theorem value_nearest (hexcess : r.excess? x = none) :
    Value (r.nearest x) (Rational.fold ⟨a, b, r.repeats, .silent⟩ v) := by
  rw [Rational.fold_between hab]
  unfold excess? at hexcess
  unfold nearest
  by_cases hlow : x < r.low
  · rw [if_pos hlow] at hexcess ⊢
    rw [if_pos ((hx.lt_iff hlo).mp hlow)]
    split at hexcess
    next => cases hexcess
    next hheld => rwa [if_neg hheld]
  · rw [if_neg hlow] at hexcess ⊢
    rw [if_neg (mt (hx.lt_iff hlo).mpr hlow)]
    by_cases hhigh : r.high < x
    · rw [if_pos hhigh] at hexcess ⊢
      rw [if_pos ((hhi.lt_iff hx).mp hhigh)]
      split at hexcess
      next => cases hexcess
      next hheld => rwa [if_neg hheld]
    · rwa [if_neg hhigh, if_neg (mt (hhi.lt_iff hx).mpr hhigh)]

/-- What a range of doubles answers stands for the place of exact arithmetic, or for the one
that rounded steps lead to. On a grid they are the same, and around zero only the last step is
rounded. -/
theorem exists_value (hbounds : checkBounds r.start r.stop = .ok ())
    (haction : r.onExceed ≠ .fail) (hy : (r.check x).result = .ok y)
    (h : r.excess? x = none ∨ Scalar.isFinite y = true ∨
      Rational.reach a b v ≤ 2 ^ 51 * 2 ^ (971 : ℤ)) :
    ∃ u, Value y u ∧ (u = Rational.fold ⟨a, b, r.repeats, .silent⟩ v ∨ Wrapped a b v u) ∧
      (r.excess? x = none ∨ Rational.OnGrid a b v →
        u = Rational.fold ⟨a, b, r.repeats, .silent⟩ v) ∧
      (Rational.AroundZero a b v →
        RoundsTo (Rational.fold ⟨a, b, r.repeats, .silent⟩ v) u) := by
  have hself := Denotes.roundsTo hx
  rcases check_cases hbounds haction hy with ⟨hnone, rfl⟩ | ⟨n, hlow, hwraps, hn, rfl⟩ |
    ⟨n, hlow, hhigh, hwraps, hn, rfl⟩
  · have hvalue := value_nearest hlo hhi hab hx hnone
    exact ⟨_, hvalue, .inl rfl, fun _ => rfl, fun _ => Denotes.roundsTo hvalue⟩
  · have hlt : v < a := (hx.lt_iff hlo).mp hlow
    have hsome : r.excess? x ≠ none := by
      rw [excess?, if_pos hlow, if_pos hwraps]
      exact Option.some_ne_none _
    obtain ⟨u, hu, hwrapped⟩ :=
      Float64.exists_wrapped_below hlo hhi hab hx hlt hn (h.resolve_left hsome)
    rw [Rational.fold_between hab, if_pos hlt, if_pos hwraps]
    exact ⟨u, hu, .inr hwrapped,
      fun hexact => hwrapped.eq_of_lt hlt hab (hexact.resolve_left hsome),
      fun hzero => hwrapped.roundsTo_of_lt hlt hab hzero hself⟩
  · have hge : ¬ v < a := mt (hx.lt_iff hlo).mpr hlow
    have hgt : b < v := (hhi.lt_iff hx).mp hhigh
    have hsome : r.excess? x ≠ none := by
      rw [excess?, if_neg hlow, if_pos hhigh, if_pos hwraps]
      exact Option.some_ne_none _
    obtain ⟨u, hu, hwrapped⟩ :=
      Float64.exists_wrapped_above hlo hhi hab hx hgt hn (h.resolve_left hsome)
    rw [Rational.fold_between hab, if_neg hge, if_pos hgt, if_pos hwraps]
    exact ⟨u, hu, .inr hwrapped,
      fun hexact => hwrapped.eq_of_gt hgt hab (hexact.resolve_left hsome),
      fun hzero => hwrapped.roundsTo_of_gt hgt hab hzero hself⟩

end Values

theorem contains_eq_true_iff : r.contains y = true ↔ r.low ≤ y ∧ y ≤ r.high := by
  rw [contains, Bool.and_eq_true, decide_eq_true_eq, decide_eq_true_eq]

/-- A number in a range is left where it is. -/
theorem check_of_contains (hbounds : checkBounds r.start r.stop = .ok ())
    (hy : r.contains y = true) : r.check y = pure y := by
  obtain ⟨hlow, hhigh⟩ := contains_eq_true_iff.mp hy
  obtain ⟨a, b, hlo, hhi, -⟩ := exists_bounds hbounds
  obtain ⟨u, hu⟩ := Float64.isFinite_iff.mp (Float64.isFinite_of_between hlo hhi hlow hhigh)
  have hnotBelow : ¬ y < r.low := by
    rw [hu.lt_iff hlo, not_lt]
    exact (hlo.le_iff hu).mp hlow
  have hnotAbove : ¬ r.high < y := by
    rw [hhi.lt_iff hu, not_lt]
    exact (hu.le_iff hhi).mp hhigh
  rw [check, if_neg hnotBelow, if_neg hnotAbove]

/-- What a range that refuses numbers outside takes is in the range, unless it is undefined. -/
theorem contains_of_taken (hbounds : checkBounds r.start r.stop = .ok ())
    (hy : Scalar.isNaN y = false) {z : Float} (h : ((r.under .fail).check y).result = .ok z) :
    r.contains y = true := by
  obtain ⟨hlow, hhigh⟩ := isNaN_low_high hbounds
  change (if y < r.low then _ else if r.high < y then _ else _ :
    Outcome Float Float).result = _ at h
  split at h
  next => cases h
  next hnotBelow =>
    split at h
    next => cases h
    next hnotAbove =>
      exact contains_eq_true_iff.mpr ⟨Scalar.Ordered.le_of_not_lt hy hlow hnotBelow,
        Scalar.Ordered.le_of_not_lt hhigh hy hnotAbove⟩

/-- Unless numbers outside are refused, an accepted range of doubles answers a finite number
that it does not wrap around, or that lies on a grid with its bounds, with the number of exact
arithmetic, and if its bounds lie around zero, with that number rounded once; in all these
cases the answer is in the range. Any finite answer is in the range up to eight roundings of
the greatest magnitude involved, and only very great numbers have another answer. A number in
the range is left where it is, and it is the numbers in the range that a range that refuses
the others takes. -/
theorem lands_up_to_rounding (hbounds : checkBounds r.start r.stop = .ok ())
    (haction : r.onExceed ≠ .fail) (hx : Scalar.isFinite x = true)
    (hy : (r.check x).result = .ok y) :
    ∃ a b v : ℚ, Value r.low a ∧ Value r.high b ∧ Value x v ∧ a < b ∧
      (r.excess? x = none ∨ Rational.OnGrid a b v →
        r.contains y = true ∧ ∃ u, Value y u ∧ Rational.Brought a b r.repeats v u) ∧
      (Rational.AroundZero a b v →
        r.contains y = true ∧ ∃ u place, Value y u ∧ RoundsTo place u ∧
          Rational.Brought a b r.repeats v place) ∧
      (Scalar.isFinite y = true → ∃ u, Value y u ∧ Rational.Beside a b v u) ∧
      (Rational.reach a b v ≤ 2 ^ (1022 : ℤ) → Scalar.isFinite y = true) ∧
      (r.contains y = true → r.check y = pure y) ∧
      (Scalar.isNaN y = false →
        (r.contains y = true ↔ ∃ z, ((r.under .fail).check y).result = .ok z)) := by
  let _ := Session.linear
  obtain ⟨a, b, hlo, hhi, hab⟩ := exists_bounds hbounds
  obtain ⟨v, hv⟩ := Float64.isFinite_iff.mp hx
  have hne : (⟨a, b, r.repeats, .silent⟩ : Range ℚ).start ≠ b := hab.ne
  have hbrought := Rational.brought_fold hne v
  obtain ⟨hlow, hhigh⟩ := Rational.fold_mem hne v
  simp only [min_eq_left hab.le, max_eq_right hab.le] at hbrought hlow hhigh
  have hvalue := exists_value hlo hhi hab hv hbounds haction hy
  refine ⟨a, b, v, hlo, hhi, hv, hab, ?exact, ?around, ?beside, ?finite,
    check_of_contains hbounds, ?taken⟩
  case exact =>
    intro hexact
    obtain ⟨u, hu, -, hequal, -⟩ := hvalue (hexact.imp_right fun hgrid => .inr hgrid.reach_le)
    obtain rfl := hequal hexact
    refine ⟨contains_eq_true_iff.mpr ⟨?_, ?_⟩, _, hu, hbrought⟩
    · exact (hlo.le_iff hu).mpr hlow
    · exact (hu.le_iff hhi).mpr hhigh
  case around =>
    intro hzero
    obtain ⟨u, hu, -, -, hrounds⟩ := hvalue (.inr (.inr hzero.reach_le))
    -- The bounds are doubles, so a number between them is not rounded past them.
    refine ⟨contains_eq_true_iff.mpr ⟨?_, ?_⟩, u, _, hu, hrounds hzero, hbrought⟩
    · exact (hlo.le_iff hu).mpr ((Denotes.roundsTo hlo).mono (hrounds hzero) hlow)
    · exact (hu.le_iff hhi).mpr ((hrounds hzero).mono (Denotes.roundsTo hhi) hhigh)
  case beside =>
    intro hfinite
    obtain ⟨u, hu, hplace, -⟩ := hvalue (.inr (.inl hfinite))
    refine ⟨u, hu, ?_⟩
    rcases hplace with rfl | hwrapped
    · have hreach : 0 ≤ Rational.reach a b v := (abs_nonneg v).trans (le_max_left _ _)
      constructor <;> linarith
    · exact hwrapped.beside hab (Denotes.exists_multiple hlo) (Denotes.exists_multiple hhi)
        (Denotes.exists_multiple hv)
  case finite =>
    intro hreach
    have hhalf : (2 : ℚ) ^ (1022 : ℤ) = 2 ^ 51 * 2 ^ (971 : ℤ) := by
      rw [← zpow_natCast, ← zpow_add₀ two_ne_zero]
      rfl
    rw [hhalf] at hreach
    obtain ⟨u, hu, -⟩ := hvalue (.inr (.inr hreach))
    exact Float64.isFinite_iff.mpr ⟨u, hu⟩
  case taken =>
    intro hdefined
    constructor
    · intro hcontains
      have htaken : (r.under .fail).check y = pure y :=
        check_of_contains (r := r.under .fail) hbounds hcontains
      exact ⟨y, by rw [htaken]; rfl⟩
    · rintro ⟨z, hz⟩
      exact contains_of_taken hbounds hdefined hz

/-- A tenth below the unit interval, which no unit of its bounds measures. -/
theorem lands_up_to_rounding_below_unit :
    ((unit .both .silent : Range Float).check (-0.1)).result = .ok 0.9 ∧
      (unit .both .silent : Range Float).contains 0.9 = true ∧
      (unit .both .silent : Range Float).check 0.9 = pure 0.9 := by
  have hvalue : ((unit .both .silent : Range Float).check (-0.1)).result = .ok 0.9 := by
    decide +kernel
  obtain ⟨a, b, v, hlo, hhi, hx, -, -, haround, -, -, hstays, -⟩ :=
    lands_up_to_rounding (r := unit .both .silent) (by decide +kernel) (by decide)
      (by decide +kernel) hvalue
  have hlow : (unit .both .silent : Range Float).low = 0 := by decide +kernel
  have hhigh : (unit .both .silent : Range Float).high = 1 := by decide +kernel
  have htenth : Value 0.1 (7205759403792794 * 2 ^ (-56 : ℤ)) := by
    exact_mod_cast
      Float64.value_of_ofFloat (m := 7205759403792794) (by norm_num) (by decide +kernel)
  rw [hlow] at hlo
  rw [hhigh] at hhi
  obtain rfl := hlo.unique Float64.value_zero
  obtain rfl := hhi.unique Float64.standsFor_one.value
  obtain rfl := hx.unique htenth.neg
  have hsmall : (2 : ℚ) ^ (-1074 : ℤ) ≤ 2 ^ (-56 : ℤ) :=
    zpow_le_zpow_right₀ one_le_two (by norm_num)
  have hfar : (2 : ℚ) ^ (-56 : ℤ) ≤ 0 - -(7205759403792794 * 2 ^ (-56 : ℤ)) := by norm_num
  have hnear : |(-(7205759403792794 * 2 ^ (-56 : ℤ)) : ℚ)| ≤ 1 := by norm_num
  obtain ⟨hcontains, -⟩ := haround ⟨0, 0, 1, by norm_num, by norm_num, le_rfl, zero_le_one,
    by norm_num, by norm_num, by norm_num at hnear ⊢, by
      rw [sub_zero, mul_one]
      exact hsmall.trans (hfar.trans (le_max_left _ _))⟩
  exact ⟨hvalue, hcontains, hstays hcontains⟩

/-- Rounded steps can end above the range, near it and far above the unit interval: the answer
is not contained, a second check wraps it around once more, and a range that refuses numbers
outside refuses it. Where the width overflows there is not even a number. -/
theorem rounded_steps_leave_range :
    let tenths : Range Float := ⟨0, 0.7, .both, .silent⟩
    let wide : Range Float := ⟨-1e308, 1e308, .both, .silent⟩
    (checkBounds tenths.start tenths.stop = .ok () ∧
        (tenths.check 2.8).result = .ok 0.7000000000000002 ∧
        tenths.contains 0.7000000000000002 = false ∧
        (tenths.check 0.7000000000000002).result = .ok 2.220446049250313e-16 ∧
        ((tenths.under .fail).check 0.7000000000000002).result =
          .error (.exceeded 0.7000000000000002 0 0.7)) ∧
      ((unit .both .silent : Range Float).check 9007199254740994).result = .ok 2 ∧
      (checkBounds wide.start wide.stop = .ok () ∧
        (wide.check 1.5e308).result.toOption.map Scalar.isNaN = some true) ∧
      ¬ ∀ (r : Range Float) (x y : Float), checkBounds r.start r.stop = .ok () →
        r.onExceed = .silent → Scalar.isFinite x = true → (r.check x).result = .ok y →
        r.contains y = true := by
  intro tenths wide
  have hbounds : checkBounds tenths.start tenths.stop = .ok () := by decide +kernel
  have hvalue : (tenths.check 2.8).result = .ok 0.7000000000000002 := by decide +kernel
  have houtside : tenths.contains 0.7000000000000002 = false := by decide +kernel
  refine ⟨⟨hbounds, hvalue, houtside, by decide +kernel, by decide +kernel⟩, by decide +kernel,
    ⟨by decide +kernel, by decide +kernel⟩, fun h => ?_⟩
  have hcontains := h tenths 2.8 0.7000000000000002 hbounds rfl (by decide +kernel) hvalue
  rw [houtside] at hcontains
  cases hcontains

end Range

end Easing
