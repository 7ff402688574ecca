import Easing.Proofs.Mapping.Policy
import Easing.Proofs.Range.Folding
import Easing.Proofs.Session.Tables

/-! # Wrapping by the fewest turns

In exact arithmetic a number outside a range is wrapped around by as few widths as
bring it back. A number that is a whole number of widths away then comes to the bound
on its own side, from below the lower one and from above the upper one. It does not
matter which of the bounds the range starts at, and taking a number to its place and
back brings it into the range.
-/

namespace Easing

namespace Outcome

variable {α β : Type}

/-- Whether numbers outside are reported or passed over, the result is the same. -/
theorem result_under (o : Outcome α β) {action : ExceedAction} (h : action ≠ .fail) :
    (o.under action).result = o.result := by
  cases action with
  | silent => rfl
  | warn => rfl
  | fail => contradiction

/-- An operation that does nothing to the result of another changes nothing after it. -/
theorem bind_eq_self {o : Outcome α β} {next : β → Outcome α β}
    (h : ∀ b, o.result = .ok b → next b = pure b) : o >>= next = o := by
  obtain ⟨notices, result⟩ := o
  cases result with
  | error f => rfl
  | ok b =>
      rw [bind_mk_ok, h b rfl]
      simp

end Outcome

namespace Rational

/-- What a range between two bounds does to a number: it stays, is held at the bound
that it is beyond, or is moved by the fewest widths that bring it back from there. -/
structure Brought (low high : ℚ) (repeats : RepeatPolicy) (x y : ℚ) : Prop where
  inside : low ≤ x → x ≤ high → y = x
  heldBelow : x < low → repeats = .none ∨ repeats = .aboveMax → y = low
  heldAbove : high < x → repeats = .none ∨ repeats = .belowMin → y = high
  wrappedBelow : x < low → repeats = .belowMin ∨ repeats = .both →
    ∃ k : ℤ, IsLeast {k : ℤ | low ≤ x + k * (high - low)} k ∧
      y = x + k * (high - low) ∧ low ≤ y ∧ y < high
  wrappedAbove : high < x → repeats = .aboveMax ∨ repeats = .both →
    ∃ k : ℤ, IsLeast {k : ℤ | x - k * (high - low) ≤ high} k ∧
      y = x - k * (high - low) ∧ low < y ∧ y ≤ high

/-- The ceiling of a quotient is the least number of widths that cover a distance. -/
theorem isLeast_turns {width : ℚ} (hpos : 0 < width) (distance : ℚ) :
    IsLeast {k : ℤ | distance ≤ k * width} ⌈distance / width⌉ := by
  constructor
  · exact (div_le_iff₀ hpos).mp (Int.le_ceil _)
  · intro k hk
    exact Int.ceil_le.mpr ((div_le_iff₀ hpos).mpr hk)

variable [Elementary ℚ] {r : Range ℚ}

theorem fromUnit_toUnit (hne : r.start ≠ r.stop) (x : ℚ) : r.fromUnit (r.toUnit x) = x := by
  change r.start + (x - r.start) / r.span * r.span = x
  rw [div_mul_cancel₀ _ (span_ne_zero hne), add_sub_cancel]

theorem brought_fold (hne : r.start ≠ r.stop) (x : ℚ) :
    Brought (min r.start r.stop) (max r.start r.stop) r.repeats x (fold r x) := by
  have hwidth : max r.start r.stop - min r.start r.stop = |r.span| := max_sub_min_eq_abs _ _
  have hpos : 0 < |r.span| := abs_pos.mpr (span_ne_zero hne)
  have hle : min r.start r.stop ≤ max r.start r.stop := min_le_max
  constructor
  case inside =>
    intro hlow hhigh
    unfold fold
    rw [if_neg (not_lt.mpr hlow), if_neg (not_lt.mpr hhigh)]
  case heldBelow =>
    intro hlt hrepeats
    have hheld : r.repeats.wrapsBelow = false := by
      rcases hrepeats with h | h <;> rw [h] <;> rfl
    unfold fold
    rw [if_pos hlt, hheld, if_neg Bool.false_ne_true]
  case heldAbove =>
    intro hlt hrepeats
    have hheld : r.repeats.wrapsAbove = false := by
      rcases hrepeats with h | h <;> rw [h] <;> rfl
    unfold fold
    rw [if_neg (by linarith), if_pos hlt, hheld, if_neg Bool.false_ne_true]
  case wrappedBelow =>
    intro hlt hrepeats
    have hwraps : r.repeats.wrapsBelow = true := by
      rcases hrepeats with h | h <;> rw [h] <;> rfl
    obtain ⟨hcover, hexcess⟩ := le_turns_mul hne (min r.start r.stop - x)
    have hfold : fold r x = x + ⌈(min r.start r.stop - x) / |r.span|⌉ * |r.span| := by
      unfold fold
      rw [if_pos hlt, if_pos hwraps]
    rw [hwidth, hfold]
    refine ⟨_, ?_, rfl, by linarith, by linarith⟩
    simpa only [sub_le_iff_le_add'] using isLeast_turns hpos (min r.start r.stop - x)
  case wrappedAbove =>
    intro hlt hrepeats
    have hwraps : r.repeats.wrapsAbove = true := by
      rcases hrepeats with h | h <;> rw [h] <;> rfl
    obtain ⟨hcover, hexcess⟩ := le_turns_mul hne (x - max r.start r.stop)
    have hfold : fold r x = x - ⌈(x - max r.start r.stop) / |r.span|⌉ * |r.span| := by
      unfold fold
      rw [if_neg (by linarith), if_pos hlt, if_pos hwraps]
    rw [hwidth, hfold]
    refine ⟨_, ?_, rfl, by linarith, by linarith⟩
    simpa only [sub_le_comm] using isLeast_turns hpos (x - max r.start r.stop)

/-- A range that does not refuse numbers brings them to the same place, reported or not. -/
theorem result_check (hne : r.start ≠ r.stop) (haction : r.onExceed ≠ .fail) (x : ℚ) :
    (r.check x).result = .ok (fold r x) := by
  have hsilent : (r.under .silent).check x = pure (fold r x) :=
    check_eq_pure (r := r.under .silent) hne rfl x
  have hresult (action : ExceedAction) (h : action ≠ .fail) :
      ((r.under action).check x).result = ((r.under .warn).check x).result := by
    rw [Range.check_under, Outcome.result_under _ h]
  calc (r.check x).result = ((r.under .warn).check x).result := hresult r.onExceed haction
    _ = ((r.under .silent).check x).result := (hresult .silent (by decide)).symm
    _ = .ok (fold r x) := by rw [hsilent, Outcome.result_pure]

theorem fold_reversed (r : Range ℚ) (x : ℚ) : fold (reversed r) x = fold r x := by
  have hspan : |(reversed r).span| = |r.span| := abs_sub_comm r.start r.stop
  unfold fold
  rw [hspan]
  simp only [reversed, min_comm r.stop, max_comm r.stop]

/-- What a range brings a number to is in the range. -/
theorem check_of_result_check (hne : r.start ≠ r.stop) (haction : r.onExceed ≠ .fail) {x y : ℚ}
    (h : (r.check x).result = .ok y) : r.check y = pure y := by
  rw [result_check hne haction, Except.ok.injEq] at h
  obtain ⟨hlow, hhigh⟩ := fold_mem hne x
  rw [h] at hlow hhigh
  apply check_of_mem
  · rwa [low_eq]
  · rwa [high_eq]

theorem check_check (hne : r.start ≠ r.stop) (haction : r.onExceed ≠ .fail) (x : ℚ) :
    r.check x >>= r.check = r.check x :=
  Outcome.bind_eq_self fun _ h => check_of_result_check hne haction h

/-- The place of a number, taken back, is the number in the range. -/
theorem normalize_denormalize (hne : r.start ≠ r.stop) (haction : r.onExceed ≠ .fail) (x : ℚ) :
    r.normalize x >>= r.denormalize = r.check x := by
  have hback (y : ℚ) : r.denormalize (r.toUnit y) = r.check y := by
    change r.check (r.fromUnit (r.toUnit y)) = r.check y
    rw [fromUnit_toUnit hne]
  rw [normalize_eq hne, bind_map_left]
  simp only [hback]
  exact check_check hne haction x

theorem denormalize_normalize (hne : r.start ≠ r.stop) {u : ℚ} (hlow : 0 ≤ u) (hhigh : u ≤ 1) :
    r.denormalize u >>= r.normalize = pure u := by
  obtain ⟨hle, hge⟩ := fromUnit_mem (r := r) hlow hhigh
  have hinside : r.check (r.fromUnit u) = pure (r.fromUnit u) := check_of_mem hle hge
  change r.check (r.fromUnit u) >>= r.normalize = pure u
  rw [hinside, pure_bind, normalize_eq hne, hinside, map_pure, toUnit_fromUnit hne]

end Rational

namespace Range

/-- A range that does not refuse numbers brings each of them to a number between its
bounds: to the number itself, to the bound that it is beyond, or by the fewest widths
that bring it back. To do so twice is to do it once, the order of the bounds does not
matter, and the place of a number and the number at a place are inverse to each other. -/
theorem wraps_by_fewest_turns [Elementary ℚ] {r : Range ℚ} (hne : r.start ≠ r.stop)
    (haction : r.onExceed ≠ .fail) :
    (∀ x, ∃ y, (r.check x).result = .ok y ∧
        Rational.Brought (min r.start r.stop) (max r.start r.stop) r.repeats x y ∧
        r.check y = pure y ∧ ((Rational.reversed r).check x).result = .ok y) ∧
      (∀ x, r.check x >>= r.check = r.check x) ∧
      (∀ x, r.normalize x >>= r.denormalize = r.check x) ∧
      ∀ u, 0 ≤ u → u ≤ 1 → r.denormalize u >>= r.normalize = pure u := by
  refine ⟨?brought, Rational.check_check hne haction,
    Rational.normalize_denormalize hne haction, ?back⟩
  case brought =>
    intro x
    have hresult := Rational.result_check hne haction x
    refine ⟨Rational.fold r x, hresult, Rational.brought_fold hne x,
      Rational.check_of_result_check hne haction hresult, ?_⟩
    have hreversed := Rational.result_check (r := Rational.reversed r) hne.symm haction x
    rwa [Rational.fold_reversed] at hreversed
  case back =>
    intro u hlow hhigh
    exact Rational.denormalize_normalize hne hlow hhigh

/-- Two widths below a range from ten to four, on the side where it wraps, and above it,
on the side where it holds. -/
theorem wraps_by_two_turns :
    let _ := Session.linear
    let r : Range ℚ := ⟨10, 4, .belowMin, .warn⟩
    (r.check (-8)).result = .ok 4 ∧ (r.check 30).result = .ok 10 ∧
      (r.normalize (-8) >>= r.denormalize).result = .ok 4 := by
  intro _ r
  obtain ⟨hbrought, _, hback, _⟩ := wraps_by_fewest_turns (r := r) (by decide +kernel) (by decide)
  have hlow : min r.start r.stop = 4 := by decide +kernel
  have hhigh : max r.start r.stop = 10 := by decide +kernel
  rw [hlow, hhigh] at hbrought
  have hbelow : (r.check (-8)).result = .ok 4 := by
    obtain ⟨y, hy, h, _⟩ := hbrought (-8)
    obtain ⟨k, _, hk, hle, hlt⟩ := h.wrappedBelow (by norm_num) (.inl rfl)
    -- Two is the only number of widths between the bounds.
    have hkLow : (1 : ℚ) < k := by linarith
    have hkHigh : (k : ℚ) < 3 := by linarith
    obtain rfl : k = 2 := by
      have : (1 : ℤ) < k := by exact_mod_cast hkLow
      have : k < 3 := by exact_mod_cast hkHigh
      omega
    rw [hy, hk]
    norm_num
  refine ⟨hbelow, ?_, ?_⟩
  · obtain ⟨y, hy, h, _⟩ := hbrought 30
    rw [hy, h.heldAbove (by norm_num) (.inr rfl)]
  · rw [hback]
    exact hbelow

end Range

end Easing
