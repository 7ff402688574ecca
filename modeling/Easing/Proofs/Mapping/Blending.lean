import Easing.Proofs.Range.Turns

/-! # Blending

A ratio goes from the start of the blend range to its stop, and the value of a mapping
goes along from its own to that of its target. In exact arithmetic it is the mean of the
two by the share of the way that the ratio has gone. A ratio that has not set out yet
leaves the mapping alone, and one that has arrived leaves the target alone, whichever
of the bounds is the greater one.
-/

namespace Easing

namespace Rational

/-- The share that a ratio has gone of the way from the start of a range to its stop. -/
def share (r : Range ℚ) (ratio : ℚ) : ℚ :=
  max 0 (min 1 ((ratio - r.start) / (r.stop - r.start)))

/-- On the way from the start of a range to its stop, one number is not behind another. -/
def NotBehind (r : Range ℚ) (b a : ℚ) : Prop :=
  r.start < r.stop ∧ a ≤ b ∨ r.stop < r.start ∧ b ≤ a

/-- The mean of two numbers, of which the second has a share. -/
def mix (t y z : ℚ) : ℚ := (1 - t) * y + t * z

section Shares

variable {r : Range ℚ} {a b ratio t t' y z low high : ℚ}

theorem share_mem (r : Range ℚ) (ratio : ℚ) : 0 ≤ share r ratio ∧ share r ratio ≤ 1 :=
  ⟨le_max_left _ _, max_le zero_le_one (min_le_left _ _)⟩

theorem NotBehind.place_le (h : NotBehind r b a) :
    (a - r.start) / (r.stop - r.start) ≤ (b - r.start) / (r.stop - r.start) := by
  rcases h with ⟨hlt, hle⟩ | ⟨hlt, hle⟩
  · exact div_le_div_of_nonneg_right (by linarith) (by linarith)
  · exact div_le_div_of_nonpos_of_le (by linarith) (by linarith)

/-- A ratio that is farther on has a greater share. -/
theorem share_mono (h : NotBehind r b a) : share r a ≤ share r b :=
  max_le_max le_rfl (min_le_min le_rfl h.place_le)

theorem share_start (r : Range ℚ) : share r r.start = 0 := by
  rw [share, sub_self, zero_div, min_eq_right zero_le_one, max_self]

theorem share_stop (hne : r.start ≠ r.stop) : share r r.stop = 1 := by
  rw [share, div_self (sub_ne_zero.mpr hne.symm), min_self, max_eq_right zero_le_one]

theorem share_of_start_notBehind (h : NotBehind r r.start ratio) : share r ratio = 0 := by
  apply le_antisymm
  · rw [← share_start r]
    exact share_mono h
  · exact (share_mem r ratio).1

theorem share_of_notBehind_stop (h : NotBehind r ratio r.stop) : share r ratio = 1 := by
  have hne : r.start ≠ r.stop := by
    rcases h with ⟨hlt, _⟩ | ⟨hlt, _⟩
    · exact hlt.ne
    · exact hlt.ne'
  apply le_antisymm
  · exact (share_mem r ratio).2
  · rw [← share_stop hne]
    exact share_mono h

theorem mix_zero (y z : ℚ) : mix 0 y z = y := by
  rw [mix, sub_zero, one_mul, zero_mul, add_zero]

theorem mix_one (y z : ℚ) : mix 1 y z = z := by
  rw [mix, sub_self, zero_mul, one_mul, zero_add]

theorem mix_eq (t y z : ℚ) : mix t y z = y + t * (z - y) := by
  unfold mix
  ring

theorem mix_swap (t y z : ℚ) : mix t y z = mix (1 - t) z y := by
  unfold mix
  ring

theorem mix_mono (h : t ≤ t') (hle : y ≤ z) : mix t y z ≤ mix t' y z := by
  rw [mix_eq, mix_eq, add_le_add_iff_left]
  exact mul_le_mul_of_nonneg_right h (sub_nonneg.mpr hle)

theorem mix_anti (h : t ≤ t') (hle : z ≤ y) : mix t' y z ≤ mix t y z := by
  rw [mix_swap t', mix_swap t]
  exact mix_mono (sub_le_sub_left h 1) hle

/-- What lies between two numbers lies wherever both do. -/
theorem mix_mem (hshare : 0 ≤ t ∧ t ≤ 1) (hy : low ≤ y ∧ y ≤ high) (hz : low ≤ z ∧ z ≤ high) :
    low ≤ mix t y z ∧ mix t y z ≤ high := by
  have hrest : 0 ≤ 1 - t := sub_nonneg.mpr hshare.2
  constructor
  · calc low = (1 - t) * low + t * low := by ring
      _ ≤ mix t y z := add_le_add (mul_le_mul_of_nonneg_left hy.1 hrest)
          (mul_le_mul_of_nonneg_left hz.1 hshare.1)
  · calc mix t y z ≤ (1 - t) * high + t * high :=
          add_le_add (mul_le_mul_of_nonneg_left hy.2 hrest)
            (mul_le_mul_of_nonneg_left hz.2 hshare.1)
      _ = high := by ring

end Shares

variable [Elementary ℚ] {r : Range ℚ}

/-- Whatever a range does about numbers outside, those that it answers with are in it. -/
theorem within_of_check (hne : r.start ≠ r.stop) {x y : ℚ} (h : (r.check x).result = .ok y) :
    r.low ≤ y ∧ y ≤ r.high := by
  by_cases haction : r.onExceed = .fail
  · have hreport : (r.report x).result ≠ .ok () := by
      rw [Range.report, haction]
      intro hok
      cases hok
    unfold Range.check at h
    split at h
    next =>
      obtain ⟨_, hok, _⟩ := Outcome.result_bind_eq_ok_iff.mp h
      exact absurd hok hreport
    next hlow =>
      split at h
      next =>
        obtain ⟨_, hok, _⟩ := Outcome.result_bind_eq_ok_iff.mp h
        exact absurd hok hreport
      next hhigh =>
        cases h
        exact ⟨not_lt.mp hlow, not_lt.mp hhigh⟩
  · rw [result_check hne haction, Except.ok.injEq] at h
    rw [← h, low_eq, high_eq]
    exact fold_mem hne x

/-- The values of a link, looked up or evaluated, lie in its output range. -/
theorem within_of_eval {link : Link ℚ} (hne : link.output.start ≠ link.output.stop) {x y : ℚ}
    (h : (link.eval x).result = .ok y) : link.output.low ≤ y ∧ y ≤ link.output.high := by
  unfold Link.eval at h
  obtain ⟨place, _, h⟩ := Outcome.result_bind_eq_ok_iff.mp h
  split at h
  all_goals
    obtain ⟨_, _, hcheck⟩ := Outcome.result_bind_eq_ok_iff.mp h
    exact within_of_check hne hcheck

theorem toUnit_fold_of_held (hne : r.start ≠ r.stop) (hheld : r.repeats = .none) (ratio : ℚ) :
    r.toUnit (fold r ratio) = share r ratio := by
  have hshare : share r ratio = max 0 (min 1 (r.toUnit ratio)) := rfl
  have hstart : r.toUnit r.start = 0 := by
    change (r.start - r.start) / (r.stop - r.start) = 0
    rw [sub_self, zero_div]
  have hstop : r.toUnit r.stop = 1 := div_self (sub_ne_zero.mpr hne.symm)
  rw [fold_of_held hheld, hshare]
  -- Taking places keeps the order of a range that is counted upwards, and turns the other.
  rcases lt_or_gt_of_ne hne with hlt | hlt
  · have hmono : Monotone r.toUnit := fun _ _ hle => NotBehind.place_le (.inl ⟨hlt, hle⟩)
    rw [min_eq_left hlt.le, max_eq_right hlt.le, hmono.map_min, hmono.map_max, hstart, hstop,
      max_min_distrib_left, max_eq_right zero_le_one, min_comm, max_comm]
  · have hanti : Antitone r.toUnit := fun _ _ hle => NotBehind.place_le (.inr ⟨hlt, hle⟩)
    rw [min_eq_right hlt.le, max_eq_left hlt.le, hanti.map_min, hanti.map_max, hstart, hstop,
      max_comm, min_comm]

/-- A range that holds a ratio brings it to its share, whether the ratio is reported or not. -/
theorem result_normalize_of_held (hne : r.start ≠ r.stop) (haction : r.onExceed ≠ .fail)
    (hheld : r.repeats = .none) (ratio : ℚ) :
    (r.normalize ratio).result = .ok (share r ratio) := by
  rw [normalize_eq hne, map_eq_pure_bind, Outcome.result_bind, result_check hne haction,
    ← toUnit_fold_of_held hne hheld]
  rfl

end Rational

/-! ## Blended values -/

/-- A link whose ratios are held between two bounds and not refused. -/
structure Link.TakesRatios [Elementary ℚ] (link : Link ℚ) : Prop where
  bounds : link.blend.start ≠ link.blend.stop
  held : link.blend.repeats = .none
  action : link.blend.onExceed ≠ .fail

namespace Mapping

variable [Elementary ℚ] {m target : Mapping ℚ}

/-- Without a target the ratio changes nothing. -/
theorem result_map_of_no_target (htarget : m.target? = none) (x ratio : ℚ) :
    (m.map x (some ratio)).result = (m.map x none).result := by
  simp only [map, blend, htarget, Outcome.result_bind]
  cases (m.eval x).result <;> rfl

/-- A blended value is the mean of the values of a mapping and its target, the share of the
target being that of the ratio. -/
theorem result_map_of_target (hratios : m.head.TakesRatios) (htarget : m.target? = some target)
    (x ratio : ℚ) :
    (m.map x (some ratio)).result = do
      let y ← (m.map x none).result
      let z ← (target.map x none).result
      return Rational.mix (Rational.share m.head.blend ratio) y z := by
  have hshare := Rational.result_normalize_of_held hratios.bounds hratios.action hratios.held ratio
  simp only [map, blend, htarget, Outcome.result_bind, hshare, Rational.mix_eq]
  rfl

end Mapping

end Easing
