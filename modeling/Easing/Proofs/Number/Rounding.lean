import Easing.Proofs.Number.Decoding

/-! # Rounding to the nearest double

Products, quotients and integers are computed as a significand with two further
bits, which say where the exact number lies between it and the next one. The
rounded significand is the one that the exact number is nearest to, of two the
even one. `ReadsBack` states which exact numbers become a given double, and
`roundWithAccuracy_eq` that rounding agrees.
-/

namespace Easing.Binary64

open Float.Model Float.Model.UnpackedFloat

/-- A significand with two further bits describes a number: the first bit adds a
half, and the second says whether there is more, but less than a half. -/
def Describes (em : ExtendedMantissa) (u : ℚ) : Prop :=
  let least : ℚ := em.mantissa + if em.roundBit then 1 / 2 else 0
  if em.stickyBit then least < u ∧ u < least + 1 / 2 else u = least

/-- The numbers that are nearest to a natural number, with the ends halfway to
its neighbours if it is even. -/
def Rounds (n : ℕ) (u : ℚ) : Prop :=
  if n % 2 = 0 then (n : ℚ) - 1 / 2 ≤ u ∧ u ≤ n + 1 / 2 else (n : ℚ) - 1 / 2 < u ∧ u < n + 1 / 2

theorem Rounds.le {n : ℕ} {u : ℚ} (h : Rounds n u) : (n : ℚ) - 1 / 2 ≤ u ∧ u ≤ n + 1 / 2 := by
  unfold Rounds at h
  split at h
  · exact h
  · exact ⟨h.1.le, h.2.le⟩

namespace Describes

variable {em : ExtendedMantissa} {u : ℚ}

theorem exact (n : ℕ) : Describes (.ofMantissaAndAccuracy n .exact) n := by
  simp [Describes, ExtendedMantissa.ofMantissaAndAccuracy]

/-- The significand is the integer part. -/
theorem floor (h : Describes em u) : (em.mantissa : ℚ) ≤ u ∧ u < em.mantissa + 1 := by
  obtain ⟨m, r, s⟩ := em
  cases r <;> cases s <;> simp only [Describes] at h <;> norm_num at h ⊢ <;>
    constructor <;> linarith

/-- The bit that is shifted out becomes the first further bit. -/
theorem shiftRightOne (h : Describes em u) : Describes em.shiftRightOne (u / 2) := by
  obtain ⟨m, r, s⟩ := em
  have hm : (m : ℚ) = 2 * (m / 2 : ℕ) + (m % 2 : ℕ) := by exact_mod_cast (Nat.div_add_mod m 2).symm
  rcases Nat.mod_two_eq_zero_or_one m with hbit | hbit <;> rw [hbit] at hm <;>
    cases r <;> cases s <;>
    simp only [Describes, ExtendedMantissa.shiftRightOne, hbit] at h ⊢ <;>
    norm_num at h hm ⊢ <;> (try constructor) <;> linarith

theorem shiftRight (h : Describes em u) (n : ℕ) : Describes (em >>> n) (u / 2 ^ n) := by
  change Describes (n.repeat ExtendedMantissa.shiftRightOne em) _
  induction n with
  | zero => simpa [Nat.repeat] using h
  | succ n ih =>
      rw [pow_succ, ← div_div]
      exact ih.shiftRightOne

/-- The rounded significand is the natural number that is nearest. -/
theorem roundedMantissa {n : ℕ} (h : Describes em u) (hn : Rounds n u) :
    em.roundedMantissa = n := by
  have hfloor := h.floor
  have hle := hn.le
  obtain ⟨m, r, s⟩ := em
  simp only at hfloor
  have hcases : n = m ∨ n = m + 1 := by
    have hlow : (m : ℚ) < n + 1 := by linarith
    have hhigh : (n : ℚ) < m + 2 := by linarith
    norm_cast at hlow hhigh
    omega
  simp only [ExtendedMantissa.roundedMantissa]
  cases r <;> cases s <;> simp only [Describes] at h <;> norm_num at h <;>
    simp only [ExtendedMantissa.accuracy, Accuracy.roundToNearestEven]
  · rcases hcases with rfl | rfl
    · rfl
    · push_cast at hle
      linarith
  · rcases hcases with rfl | rfl
    · rfl
    · push_cast at hle
      linarith
  -- Exactly between two naturals, the even one is the nearest.
  · subst h
    unfold Rounds at hn
    rcases hcases with rfl | rfl
    · split at hn <;> first | omega | linarith
    · push_cast at hn
      split at hn <;> first | omega | linarith
  · rcases hcases with rfl | rfl
    · linarith
    · rfl

end Describes

/-! ## Numbers that become a double -/

/-- A significand and an exponent as they are stored: the significand has 53
bits, or fewer at the least exponent. -/
structure Canonical (m : ℕ) (e : ℤ) : Prop where
  pos : 0 < m
  lt : m < 2 ^ 53
  least : -1074 ≤ e
  /-- Fewer than 53 bits occur at the least exponent only. -/
  normal : -1074 < e → 2 ^ 52 ≤ m

/-- The numbers that become a double when they are rounded: those up to halfway
to its neighbours, where below a power of two the neighbour is half as far. -/
def ReadsBack (m : ℕ) (e : ℤ) (v : ℚ) : Prop :=
  if m = 2 ^ 52 ∧ -1074 < e then
    (m : ℚ) - 1 / 4 ≤ v / 2 ^ e ∧ v / 2 ^ e ≤ m + 1 / 2
  else Rounds m (v / 2 ^ e)

variable {m : ℕ} {e : ℤ} {v : ℚ}

theorem ReadsBack.le (h : ReadsBack m e v) : v / 2 ^ e ≤ m + 1 / 2 := by
  unfold ReadsBack at h
  split at h
  · exact h.2
  · exact h.le.2

theorem ReadsBack.lt (h : ReadsBack m e v) (hc : Canonical m e) : v < 2 ^ (e + 53) := by
  have hm : (m : ℚ) + 1 ≤ 2 ^ 53 := by exact_mod_cast hc.lt
  have hle := h.le
  rw [zpow_add₀ two_ne_zero, mul_comm, ← div_lt_iff₀ (by positivity)]
  norm_num at hm ⊢
  linarith

theorem ReadsBack.ge (h : ReadsBack m e v) (hc : Canonical m e) : 2 ^ (e - 1) ≤ v := by
  have hm : (1 : ℚ) ≤ m := by exact_mod_cast hc.pos
  have hle : 1 / 2 ≤ v / 2 ^ e := by
    unfold ReadsBack at h
    split at h
    · linarith [h.1]
    · linarith [h.le.1]
  rw [zpow_sub_one₀ two_ne_zero]
  rw [le_div_iff₀ (by positivity)] at hle
  linarith

theorem ReadsBack.digits_pos {digits : ℕ} {exponent : ℤ}
    (h : ReadsBack m e (digits * 10 ^ exponent)) (hc : Canonical m e) : 0 < digits := by
  rcases Nat.eq_zero_or_pos digits with rfl | hpos
  · have hge := h.ge hc
    have htwo : (0 : ℚ) < 2 ^ (e - 1) := by positivity
    rw [Nat.cast_zero, zero_mul] at hge
    exact absurd hge htwo.not_ge
  · exact hpos

/-- A number that becomes a double has the same leading bit, or is just below
the power of two that the double is. -/
theorem ReadsBack.cases (h : ReadsBack m e v) (hc : Canonical m e) :
    (Rounds m (v / 2 ^ e) ∧ (e = -1074 ∨ 2 ^ (e + 52) ≤ v)) ∨
      (m = 2 ^ 52 ∧ -1074 < e ∧ Rounds (2 ^ 53) (v / 2 ^ (e - 1)) ∧ 2 ^ (e + 51) ≤ v ∧
        v < 2 ^ (e + 52)) := by
  have hpow (k : ℤ) : (2 : ℚ) ^ (e + k) ≤ v ↔ 2 ^ k ≤ v / 2 ^ e := by
    rw [zpow_add₀ two_ne_zero, le_div_iff₀ (by positivity), mul_comm]
  have hpow' (k : ℤ) : v < 2 ^ (e + k) ↔ v / 2 ^ e < 2 ^ k := by
    rw [← not_le, hpow, not_le]
  unfold ReadsBack at h
  split at h
  next hnarrow =>
    obtain ⟨rfl, he⟩ := hnarrow
    rw [hpow, hpow, hpow']
    by_cases hsame : (2 : ℚ) ^ (52 : ℤ) ≤ v / 2 ^ e
    · refine .inl ⟨?_, .inr hsame⟩
      norm_num [Rounds] at h hsame ⊢
      exact ⟨by linarith, h.2⟩
    · rw [not_le] at hsame
      refine .inr ⟨rfl, he, ?_, ?_, hsame⟩
      · have hhalf : v / 2 ^ (e - 1) = 2 * (v / 2 ^ e) := by
          rw [zpow_sub_one₀ two_ne_zero]
          field_simp
        rw [hhalf]
        norm_num [Rounds] at h hsame ⊢
        constructor <;> linarith
      · norm_num at h ⊢
        linarith
  next hwide =>
    refine .inl ⟨h, ?_⟩
    by_cases he : e = -1074
    · exact .inl he
    · have hlt : -1074 < e := lt_of_le_of_ne hc.least (Ne.symm he)
      have hm : 2 ^ 52 + 1 ≤ m :=
        lt_of_le_of_ne (hc.normal hlt) fun heq => hwide ⟨heq.symm, hlt⟩
      have hm' : (2 : ℚ) ^ 52 + 1 ≤ m := by exact_mod_cast hm
      have hle := h.le.1
      right
      rw [hpow]
      norm_num
      linarith

section Target

variable {M : ℕ} {E : ℤ} {accuracy : Accuracy}

theorem targetExponent_eq (M : ℕ) (E : ℤ) :
    Format.binary64.targetExponent (totalExponent M E) = max (M.log2 + E - 52) (-1074) := by
  simp only [Format.targetExponent, totalExponent, Format.mantissaBits, Format.minExponent]
  norm_num
  omega

/-- The leading bit of the integer part is that of the number. -/
theorem zpow_le_iff (hM : M ≠ 0) (hle : (M : ℚ) * 2 ^ E ≤ v) (hlt : v < (M + 1) * 2 ^ E) (k : ℤ) :
    (2 : ℚ) ^ k ≤ v ↔ k ≤ M.log2 + E := by
  have hlow : (2 : ℚ) ^ (M.log2 + E) ≤ v := by
    refine le_trans ?_ hle
    rw [zpow_add₀ two_ne_zero, zpow_natCast]
    gcongr
    exact_mod_cast Nat.log2_self_le hM
  have hhigh : v < (2 : ℚ) ^ (M.log2 + E + 1) := by
    refine lt_of_lt_of_le hlt ?_
    rw [add_right_comm, zpow_add₀ two_ne_zero]
    gcongr
    exact_mod_cast Nat.lt_log2_self
  constructor
  · intro hk
    have hexp := (zpow_lt_zpow_iff_right₀ one_lt_two).mp (hk.trans_lt hhigh)
    omega
  · intro hk
    exact (zpow_le_zpow_right₀ one_le_two hk).trans hlow

theorem mantissa_ofMantissaAndAccuracy (M : ℕ) (accuracy : Accuracy) :
    (ExtendedMantissa.ofMantissaAndAccuracy M accuracy).mantissa = M := by
  cases accuracy with
  | exact => rfl
  | inexact o => cases o <;> rfl

/-- The exponent that a number is shifted to is given by its leading bit. -/
theorem targetExponent_of_zpow {t : ℤ} (hM : M = 0 → E ≤ -1074)
    (hfloor : Describes (.ofMantissaAndAccuracy M accuracy) (v / 2 ^ E)) (hleast : -1074 ≤ t)
    (hlow : t = -1074 ∨ 2 ^ (t + 52) ≤ v) (hhigh : v < 2 ^ (t + 53)) :
    Format.binary64.targetExponent (totalExponent M E) = t := by
  obtain ⟨hle, hlt⟩ := hfloor.floor
  rw [mantissa_ofMantissaAndAccuracy] at hle hlt
  rw [le_div_iff₀ (by positivity)] at hle
  rw [div_lt_iff₀ (by positivity)] at hlt
  rw [targetExponent_eq]
  by_cases hzero : M = 0
  -- Without a leading bit the number is too small for any but the least exponent.
  · have hE := hM hzero
    subst hzero
    have htiny : v < 2 ^ (-1074 : ℤ) := by
      refine hlt.trans_le ?_
      rw [Nat.cast_zero, zero_add, one_mul]
      exact zpow_le_zpow_right₀ one_le_two hE
    have ht : t = -1074 := by
      refine hlow.resolve_right fun hlow => ?_
      have hexp := (zpow_lt_zpow_iff_right₀ one_lt_two).mp (hlow.trans_lt htiny)
      omega
    rw [Nat.log2_zero, ht]
    omega
  · rw [zpow_le_iff hzero hle hlt] at hlow
    rw [← not_le, zpow_le_iff hzero hle hlt] at hhigh
    omega

/-- Shifting keeps what a significand describes. -/
theorem shiftToTargetExponent_eq {t : ℤ}
    (h : Describes (.ofMantissaAndAccuracy M accuracy) (v / 2 ^ E))
    (ht : Format.binary64.targetExponent (totalExponent M E) = t) (hE : E ≤ t) :
    ∃ em, shiftToTargetExponent Format.binary64 M E accuracy = (em, t) ∧
      Describes em (v / 2 ^ t) := by
  have hamount : E + (t - E).toNat = t := by omega
  refine ⟨ExtendedMantissa.ofMantissaAndAccuracy M accuracy >>> (t - E).toNat, ?_, ?_⟩
  · rw [shiftToTargetExponent, ht, shiftToExponent, hamount]
  · have hpow : (2 : ℚ) ^ t = 2 ^ E * 2 ^ (t - E).toNat := by
      rw [← zpow_natCast, ← zpow_add₀ two_ne_zero, hamount]
    rw [hpow, ← div_div]
    exact h.shiftRight _

/-- A significand that is a canonical one but for its exponent is shifted to it. -/
theorem shiftToTargetExponent_exact (hc : Canonical m e) {n : ℕ} {t : ℤ} (hn : n ≠ 0)
    (hvalue : (n : ℚ) * 2 ^ t = m * 2 ^ e) (ht : t ≤ e) :
    ∃ em, shiftToTargetExponent Format.binary64 n t .exact = (em, e) ∧ em.mantissa = m := by
  have hdescribes : Describes (.ofMantissaAndAccuracy n .exact) ((m : ℚ) * 2 ^ e / 2 ^ t) := by
    rw [← hvalue, mul_div_cancel_right₀ _ (by positivity)]
    exact .exact n
  have hpow (k : ℕ) : (2 : ℚ) ^ (e + k) = 2 ^ k * 2 ^ e := by
    rw [zpow_add₀ two_ne_zero, zpow_natCast, mul_comm]
  have htarget : Format.binary64.targetExponent (totalExponent n t) = e := by
    refine targetExponent_of_zpow (fun h => absurd h hn) hdescribes hc.least ?_ ?_
    · rcases hc.least.eq_or_lt with heq | hlt
      · exact .inl heq.symm
      · have hm : (2 : ℚ) ^ 52 ≤ m := by exact_mod_cast hc.normal hlt
        right
        rw [show (52 : ℤ) = (52 : ℕ) by rfl, hpow]
        gcongr
    · have hm : (m : ℚ) < 2 ^ 53 := by exact_mod_cast hc.lt
      rw [show (53 : ℤ) = (53 : ℕ) by rfl, hpow]
      gcongr
  obtain ⟨em, hshift, hem⟩ := shiftToTargetExponent_eq hdescribes htarget ht
  refine ⟨em, hshift, ?_⟩
  obtain ⟨hle, hlt⟩ := hem.floor
  rw [mul_div_cancel_right₀ _ (by positivity)] at hle hlt
  norm_cast at hle hlt
  omega

/-- A number that becomes a double is rounded to it, if enough bits are known. -/
theorem roundWithAccuracy_eq (hc : Canonical m e) (h : ReadsBack m e v)
    (hdescribes : Describes (.ofMantissaAndAccuracy M accuracy) (v / 2 ^ E))
    (hE : E ≤ max (M.log2 + E - 52) (-1074)) (sign : Sign) :
    roundWithAccuracy Format.binary64 sign M E accuracy = .finite sign m e hc.pos := by
  have hM : M = 0 → E ≤ -1074 := by
    rintro rfl
    rw [Nat.log2_zero] at hE
    omega
  obtain ⟨n, t, hrounds, hn, ht, hvalue, hleast, hlow, hhigh⟩ :
      ∃ (n : ℕ) (t : ℤ), Rounds n (v / 2 ^ t) ∧ n ≠ 0 ∧ t ≤ e ∧ (n : ℚ) * 2 ^ t = m * 2 ^ e ∧
        -1074 ≤ t ∧ (t = -1074 ∨ 2 ^ (t + 52) ≤ v) ∧ v < 2 ^ (t + 53) := by
    rcases h.cases hc with ⟨hrounds, hlow⟩ | ⟨rfl, he, hrounds, hlow, hhigh⟩
    · exact ⟨m, e, hrounds, hc.pos.ne', le_rfl, rfl, hc.least, hlow, h.lt hc⟩
    -- The significand is carried over into the next power of two and shifted back.
    · refine ⟨2 ^ 53, e - 1, hrounds, by norm_num, by omega, ?_, by omega, .inr ?_, ?_⟩
      · rw [zpow_sub_one₀ two_ne_zero]
        norm_num
        ring
      · rwa [show e - 1 + 52 = e + 51 by ring]
      · rwa [show e - 1 + 53 = e + 52 by ring]
  have htarget := targetExponent_of_zpow hM hdescribes hleast hlow hhigh
  obtain ⟨em, hshift, hem⟩ := shiftToTargetExponent_eq hdescribes htarget (by
    rw [targetExponent_eq] at htarget
    omega)
  obtain ⟨em', hshift', hmantissa⟩ := shiftToTargetExponent_exact hc hn hvalue ht
  subst hmantissa
  simp only [roundWithAccuracy, hshift, hem.roundedMantissa hrounds, hshift']
  rw [dif_neg hc.pos.ne']

end Target

end Easing.Binary64
