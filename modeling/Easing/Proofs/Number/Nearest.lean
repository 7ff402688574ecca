import Easing.Proofs.Number.Scientific

/-! # Every number has a nearest double

`ReadsBack` says which numbers become a given double. Conversely every number becomes
one, from the least positive double on, so sums and products need not be followed through
their rounding: their results are canonical, they are zero only where nothing else is left,
and they are in the order of the numbers that they stand for.
-/

namespace Easing.Binary64

open Float.Model Float.Model.UnpackedFloat

variable {m m' n : ℕ} {e e' t : ℤ} {v : ℚ}

/-! ## Existence -/

/-- Every number that is not negative has a nearest natural number. -/
theorem exists_rounds {u : ℚ} (hu : 0 ≤ u) : ∃ n, Rounds n u := by
  have hlow := Nat.floor_le hu
  have hhigh := Nat.lt_floor_add_one u
  generalize ⌊u⌋₊ = k at hlow hhigh
  rcases lt_trichotomy u (k + 1 / 2) with hlt | heq | hgt
  · refine ⟨k, ?_⟩
    unfold Rounds
    split <;> constructor <;> linarith
  -- Halfway between two naturals, the even one is taken.
  · rcases Nat.mod_two_eq_zero_or_one k with heven | hodd
    · refine ⟨k, ?_⟩
      rw [Rounds, if_pos heven]
      constructor <;> linarith
    · refine ⟨k + 1, ?_⟩
      rw [Rounds, if_pos (by omega)]
      push_cast
      constructor <;> linarith
  · refine ⟨k + 1, ?_⟩
    unfold Rounds
    push_cast
    split <;> constructor <;> linarith

/-- The place of the leading bit gives the exponent of the double that a number becomes. -/
theorem exists_exponent (hv : 2 ^ (-1074 : ℤ) ≤ v) :
    ∃ t : ℤ, -1074 ≤ t ∧ 1 ≤ v / 2 ^ t ∧ v / 2 ^ t < 2 ^ 53 ∧
      (-1074 < t → 2 ^ 52 ≤ v / 2 ^ t) := by
  have hpos : 0 < v := lt_of_lt_of_le (by positivity) hv
  have hlow := Int.zpow_log_le_self (b := 2) one_lt_two hpos
  have hhigh := Int.lt_zpow_succ_log_self (b := 2) one_lt_two v
  push_cast at hlow hhigh
  generalize Int.log 2 v = place at hlow hhigh
  have hquotient (t k : ℤ) (h : 2 ^ (t + k) ≤ v) : (2 : ℚ) ^ k ≤ v / 2 ^ t := by
    rwa [le_div_iff₀ (by positivity), ← zpow_add₀ two_ne_zero, add_comm]
  refine ⟨max (place - 52) (-1074), le_max_right _ _, ?_, ?_, ?_⟩
  · rcases le_total (place - 52) (-1074) with hle | hle
    · rw [max_eq_right hle]
      exact hquotient _ 0 hv
    · rw [max_eq_left hle]
      refine hquotient _ 0 (le_trans ?_ hlow)
      exact zpow_le_zpow_right₀ one_le_two (by omega)
  · rw [div_lt_iff₀ (by positivity)]
    refine hhigh.trans_le ?_
    calc (2 : ℚ) ^ (place + 1) ≤ 2 ^ (53 + max (place - 52) (-1074)) :=
          zpow_le_zpow_right₀ one_le_two (by omega)
      _ = 2 ^ 53 * 2 ^ max (place - 52) (-1074) := zpow_add₀ two_ne_zero _ _
  · intro hlt
    refine hquotient _ 52 (le_trans ?_ hlow)
    exact zpow_le_zpow_right₀ one_le_two (by omega)

/-- Every number becomes a double, from the least one on. -/
theorem exists_readsBack (hv : 2 ^ (-1074 : ℤ) ≤ v) :
    ∃ m e, Canonical m e ∧ ReadsBack m e v := by
  obtain ⟨t, hleast, hone, hlt, hnormal⟩ := exists_exponent hv
  obtain ⟨n, hn⟩ := exists_rounds (zero_le_one.trans hone)
  obtain ⟨hbelow, habove⟩ := hn.le
  have hpos : 0 < n := by
    have hlt : (0 : ℚ) < n := by linarith
    exact_mod_cast hlt
  have hle : n ≤ 2 ^ 53 := by
    have hlt : (n : ℚ) < (2 ^ 53 : ℕ) + 1 := by
      push_cast
      linarith
    exact Nat.le_of_lt_succ (by exact_mod_cast hlt)
  have hfull : -1074 < t → 2 ^ 52 ≤ n := by
    intro ht
    have hlt : ((2 ^ 52 : ℕ) : ℚ) < n + 1 := by
      have hlow := hnormal ht
      push_cast
      linarith
    exact Nat.le_of_lt_succ (by exact_mod_cast hlt)
  rcases hle.lt_or_eq with hsmall | rfl
  · refine ⟨n, t, ⟨hpos, hsmall, hleast, hfull⟩, ?_⟩
    unfold ReadsBack
    split
    next hpower =>
      have hlow := hnormal hpower.2
      rw [hpower.1] at habove ⊢
      push_cast at habove ⊢
      constructor <;> linarith
    next => exact hn
  -- Rounded up to a power of two, the significand is carried over.
  · have hhalf : v / 2 ^ (t + 1) = v / 2 ^ t / 2 := by
      rw [zpow_add_one₀ two_ne_zero, div_div]
    refine ⟨2 ^ 52, t + 1, ⟨by positivity, by norm_num, by omega, fun _ => le_rfl⟩, ?_⟩
    rw [ReadsBack, if_pos ⟨rfl, by omega⟩, hhalf]
    push_cast at hbelow ⊢
    constructor <;> linarith

/-- A double is at most half a unit of its last place above a number that becomes it. -/
theorem ReadsBack.sub_half_le (h : ReadsBack m e v) : (m : ℚ) - 1 / 2 ≤ v / 2 ^ e := by
  unfold ReadsBack at h
  split at h
  · linarith [h.1]
  · exact h.le.1

/-- A number that is at most a natural number does not become a double with a greater
integer part, unless they are so large that doubles lie far apart. -/
theorem ReadsBack.floor_le (h : ReadsBack m e v) (hc : Canonical m e) (hv : v ≤ n)
    (hn : n < 2 ^ 52 - 1) : ⌊(m : ℚ) * 2 ^ e⌋₊ ≤ n := by
  have hpos : (0 : ℚ) < 2 ^ e := by positivity
  have hhalf := h.sub_half_le
  rw [le_div_iff₀ hpos] at hhalf
  rcases le_or_gt e 0 with hle | hgt
  · have hone : (2 : ℚ) ^ e ≤ 1 := zpow_le_one_of_nonpos₀ one_le_two hle
    rw [← Nat.lt_succ_iff, Nat.floor_lt (by positivity)]
    push_cast
    linarith
  · have hm : ((2 ^ 52 : ℕ) : ℚ) ≤ m := by exact_mod_cast hc.normal (by omega)
    have hn' : (n : ℚ) + 1 < (2 ^ 52 : ℕ) := by exact_mod_cast Nat.add_lt_of_lt_sub hn
    have hone : (1 : ℚ) ≤ 2 ^ e := one_le_zpow₀ one_le_two hgt.le
    have hscale : (m : ℚ) - 1 / 2 ≤ (m - 1 / 2) * 2 ^ e := by
      apply le_mul_of_one_le_right _ hone
      push_cast at hm
      linarith
    linarith

/-! ## Integers as doubles -/

theorem log2_shiftLeft (hn : n ≠ 0) (k : ℕ) : (n <<< k).log2 = n.log2 + k := by
  have hlow := Nat.log2_self_le hn
  have hhigh : n < 2 ^ (n.log2 + 1) := Nat.lt_log2_self
  rw [Nat.shiftLeft_eq, Nat.log2_eq_iff (by positivity)]
  constructor
  · rw [pow_add]
    gcongr
  · rw [add_right_comm, pow_add _ (n.log2 + 1)]
    gcongr

/-- A significand is rounded with enough bits, whatever its exponent is. -/
theorem exists_round_eq (hn : n ≠ 0) (t : ℤ) (s : Sign) :
    ∃ M E, UnpackedFloat.round Format.binary64 s n t =
        roundWithAccuracy Format.binary64 s M E .exact ∧
      Describes (.ofMantissaAndAccuracy M .exact) (n * 2 ^ t / 2 ^ E) ∧
        E ≤ max (M.log2 + E - 52) (-1074) := by
  simp only [UnpackedFloat.round, decreaseExponent, targetExponent_eq]
  generalize hk : (t - max (n.log2 + t - 52) (-1074)).toNat = k
  refine ⟨_, _, rfl, ?_, ?_⟩
  · have hvalue : (n : ℚ) * 2 ^ t / 2 ^ (t - k) = (n <<< k : ℕ) := by
      rw [zpow_sub₀ two_ne_zero, zpow_natCast, Nat.shiftLeft_eq]
      push_cast
      field_simp
    rw [hvalue]
    exact .exact _
  · rw [log2_shiftLeft hn]
    omega

/-- An integer with an exponent is rounded to the double that it becomes. -/
theorem round_eq (hc : Canonical m e) (hn : n ≠ 0) (h : ReadsBack m e (n * 2 ^ t)) (s : Sign) :
    UnpackedFloat.round Format.binary64 s n t = .finite s m e hc.pos := by
  obtain ⟨M, E, hround, hdescribes, hE⟩ := exists_round_eq hn t s
  rw [hround]
  exact roundWithAccuracy_eq hc h hdescribes hE s

/-- Only zero is rounded to zero, if the exponent is not below the least one. -/
theorem exists_normalize {k : ℤ} (hk : k ≠ 0) (ht : -1074 ≤ t) (zero : Sign) :
    ∃ s m e, ∃ hc : Canonical m e,
      UnpackedFloat.normalize Format.binary64 k t zero = .finite s m e hc.pos := by
  have hround (n : ℕ) (hn : n ≠ 0) (sign : Sign) : ∃ s m e, ∃ hc : Canonical m e,
      UnpackedFloat.round Format.binary64 sign n t = .finite s m e hc.pos := by
    have hone : (1 : ℚ) ≤ n := by exact_mod_cast Nat.one_le_iff_ne_zero.mpr hn
    have hvalue : (2 : ℚ) ^ (-1074 : ℤ) ≤ n * 2 ^ t :=
      calc (2 : ℚ) ^ (-1074 : ℤ) ≤ 1 * 2 ^ t := by
            rw [one_mul]
            exact zpow_le_zpow_right₀ one_le_two ht
        _ ≤ n * 2 ^ t := by gcongr
    obtain ⟨m, e, hc, h⟩ := exists_readsBack hvalue
    exact ⟨sign, m, e, hc, round_eq hc hn h sign⟩
  unfold UnpackedFloat.normalize
  rcases lt_trichotomy k 0 with hneg | hzero | hpos
  · rw [Int.compare_eq_lt.mpr hneg]
    exact hround (-k).toNat (by omega) .negative
  · exact absurd hzero hk
  · rw [Int.compare_eq_gt.mpr hpos]
    exact hround k.toNat (by omega) .positive

@[simp] theorem unpack_pack_notANumber :
    (Float.Model.pack .notANumber).unpack = .notANumber := rfl

@[simp] theorem unpack_pack_infinity (s : Sign) :
    (Float.Model.pack (.infinity s)).unpack = .infinity s := by
  cases s <;> rfl

@[simp] theorem unpack_pack_zero (s : Sign) : (Float.Model.pack (.zero s)).unpack = .zero s := by
  cases s <;> rfl

/-- A form whose exponent is too large is infinite when it is read again. -/
theorem unpack_pack_of_lt (hc : Canonical m e) (he : 971 < e) (s : Sign) :
    (Float.Model.pack (.finite s m e hc.pos)).unpack = .infinity s := by
  have hinfinite : UnpackedFloat.pack Format.binary64 (.finite s m e hc.pos) =
      UnpackedFloat.pack Format.binary64 (.infinity s) := by
    rw [pack_finite, if_pos (by omega)]
    rfl
  change UnpackedFloat.unpack Format.binary64 (UnpackedFloat.pack Format.binary64 _) = _
  rw [hinfinite]
  exact unpack_pack_infinity s

/-- A double other than zero is not zero when it is read again, even if it is too large. -/
theorem unpack_pack_ne_zero (hc : Canonical m e) (s s' : Sign) :
    (Float.Model.pack (.finite s m e hc.pos)).unpack ≠ .zero s' := by
  rcases le_or_gt e 971 with hle | hgt
  · rw [unpack_pack hc hle]
    exact UnpackedFloat.noConfusion
  · rw [unpack_pack_of_lt hc hgt]
    exact UnpackedFloat.noConfusion

/-! ## Order -/

/-- A canonical form stands for at least what no form with a lesser exponent reaches. -/
theorem Canonical.pow_le_of_exponent_lt (hc' : Canonical m' e') (hleast : -1074 ≤ e)
    (h : e < e') : (2 : ℚ) ^ 53 * 2 ^ e ≤ m' * 2 ^ e' := by
  have hm' : (2 : ℚ) ^ 52 ≤ m' := by exact_mod_cast hc'.normal (hleast.trans_lt h)
  calc (2 : ℚ) ^ 53 * 2 ^ e = (2 : ℚ) ^ 52 * 2 ^ (e + 1) := by
        rw [zpow_add_one₀ two_ne_zero]
        ring
    _ ≤ (m' : ℚ) * 2 ^ e' := by
        gcongr
        · norm_num
        · omega

/-- Of two canonical forms, the one with the greater exponent stands for more. -/
theorem Canonical.lt_of_exponent_lt (hc : Canonical m e) (hc' : Canonical m' e') (h : e < e') :
    (m : ℚ) * 2 ^ e < m' * 2 ^ e' := by
  have hm : (m : ℚ) < 2 ^ 53 := by exact_mod_cast hc.lt
  calc (m : ℚ) * 2 ^ e < 2 ^ 53 * 2 ^ e := by gcongr
    _ ≤ m' * 2 ^ e' := hc'.pow_le_of_exponent_lt hc.least h

/-- Canonical forms are in the order of the numbers that they stand for. -/
theorem Canonical.compare_eq (hc : Canonical m e) (hc' : Canonical m' e') :
    (compare e e').then (compare m m') = compare ((m : ℚ) * 2 ^ e) (m' * 2 ^ e') := by
  rcases lt_trichotomy e e' with hlt | rfl | hgt
  · rw [compare_lt_iff_lt.mpr hlt, compare_lt_iff_lt.mpr (hc.lt_of_exponent_lt hc' hlt)]
    rfl
  · have hpos : (0 : ℚ) < 2 ^ e := by positivity
    rw [compare_eq_iff_eq.mpr rfl]
    change compare m m' = _
    rcases lt_trichotomy m m' with hlt | rfl | hgt
    · rw [compare_lt_iff_lt.mpr hlt, eq_comm, compare_lt_iff_lt]
      gcongr
    · rw [compare_eq_iff_eq.mpr rfl, compare_eq_iff_eq.mpr rfl]
    · rw [compare_gt_iff_gt.mpr hgt, eq_comm, compare_gt_iff_gt]
      gcongr
  · rw [compare_gt_iff_gt.mpr hgt, compare_gt_iff_gt.mpr (hc'.lt_of_exponent_lt hc hgt)]
    rfl

end Easing.Binary64
