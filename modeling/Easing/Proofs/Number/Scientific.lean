import Easing.Decimal.Reading
import Easing.Proofs.Decimal.Shortest
import Easing.Proofs.Number.Packing

/-! # Doubles read off decimals

A product or a quotient of doubles is the double that the exact value becomes.
So is a decimal, whether it is small enough to be computed from two exact
doubles or goes through integers of any size.
-/

namespace Easing.Binary64

open Float.Model Float.Model.UnpackedFloat

variable {m : ℕ} {e : ℤ}

theorem ReadsBack.self (m : ℕ) (e : ℤ) : ReadsBack m e (m * 2 ^ e) := by
  unfold ReadsBack Rounds
  rw [mul_div_cancel_right₀ _ (by positivity)]
  split
  · constructor <;> linarith
  · split <;> constructor <;> linarith

section Operations

variable {m₁ m₂ : ℕ} {e₁ e₂ : ℤ} {s₁ s₂ : Sign} {h₁ : 0 < m₁} {h₂ : 0 < m₂}

theorem describes_mul (m₁ m₂ : ℕ) (e₁ e₂ : ℤ) :
    Describes (.ofMantissaAndAccuracy (m₁ * m₂) .exact)
      (m₁ * 2 ^ e₁ * (m₂ * 2 ^ e₂) / 2 ^ (e₁ + e₂)) := by
  have hquotient : (m₁ * 2 ^ e₁ * (m₂ * 2 ^ e₂) : ℚ) / 2 ^ (e₁ + e₂) = (m₁ * m₂ : ℕ) := by
    rw [zpow_add₀ two_ne_zero]
    push_cast
    field_simp
  rw [hquotient]
  exact .exact _

/-- A product of at least 53 bits is rounded to the double it becomes. -/
theorem mul_eq (hc : Canonical m e) (h : ReadsBack m e (m₁ * 2 ^ e₁ * (m₂ * 2 ^ e₂)))
    (hbits : 2 ^ 52 ≤ m₁ * m₂) :
    UnpackedFloat.mul Format.binary64 (.finite s₁ m₁ e₁ h₁) (.finite s₂ m₂ e₂ h₂) =
      .finite (s₁ * s₂) m e hc.pos := by
  have hlog : 52 ≤ (m₁ * m₂).log2 := (Nat.le_log2 (by positivity)).mpr hbits
  exact roundWithAccuracy_eq hc h (describes_mul m₁ m₂ e₁ e₂) (by omega) _

/-- A natural number and a proper fraction describe their sum. -/
theorem describes_add (q : ℕ) {r d : ℕ} (hlt : r < d) :
    Describes (.ofMantissaAndAccuracy q (accuracyOfFraction r d)) ((q : ℚ) + r / d) := by
  have hd : (0 : ℚ) < d := by exact_mod_cast (Nat.zero_le r).trans_lt hlt
  have hpart : (r : ℚ) / d < 1 := by
    rw [div_lt_one hd]
    exact_mod_cast hlt
  unfold accuracyOfFraction
  by_cases hr : r = 0
  · subst hr
    simp [Describes, ExtendedMantissa.ofMantissaAndAccuracy]
  · have hpos : 0 < (r : ℚ) / d := by positivity
    rw [if_neg hr]
    -- The first of the further bits says on which side of a half the fraction lies.
    cases ho : compare (2 * r) d with
    | lt =>
        have hlt : (2 * r : ℚ) < d := by exact_mod_cast compare_lt_iff_lt.mp ho
        have hhalf : (r : ℚ) / d < 1 / 2 := by
          rw [div_lt_iff₀ hd]
          linarith
        simp only [Describes, ExtendedMantissa.ofMantissaAndAccuracy]
        norm_num
        exact ⟨hpos, by linarith⟩
    | eq =>
        have heq : (2 * r : ℚ) = d := by exact_mod_cast compare_eq_iff_eq.mp ho
        have hhalf : (r : ℚ) / d = 1 / 2 := by
          rw [div_eq_iff hd.ne']
          linarith
        simp only [Describes, ExtendedMantissa.ofMantissaAndAccuracy]
        norm_num
        linarith
    | gt =>
        have hgt : (d : ℚ) < 2 * r := by exact_mod_cast compare_gt_iff_gt.mp ho
        have hhalf : 1 / 2 < (r : ℚ) / d := by
          rw [lt_div_iff₀ hd]
          linarith
        simp only [Describes, ExtendedMantissa.ofMantissaAndAccuracy]
        norm_num
        constructor <;> linarith

/-- The integer part of a quotient and what is left of it describe the quotient. -/
theorem describes_div (n : ℕ) {d : ℕ} (hd : 0 < d) :
    Describes (.ofMantissaAndAccuracy (n / d) (accuracyOfFraction (n % d) d)) ((n : ℚ) / d) := by
  have hd' : (d : ℚ) ≠ 0 := by exact_mod_cast hd.ne'
  have hsum : (n : ℚ) / d = (n / d : ℕ) + (n % d : ℕ) / d := by
    have hn : (n : ℚ) = d * (n / d : ℕ) + (n % d : ℕ) := by
      exact_mod_cast (Nat.div_add_mod n d).symm
    conv_lhs => rw [hn, add_div, mul_div_cancel_left₀ _ hd']
  rw [hsum]
  exact describes_add _ (Nat.mod_lt n hd)

/-- A quotient has at least 53 bits if the dividend is shifted far enough. -/
theorem le_log2_div (hm₁ : 0 < m₁) (hm₂ : 0 < m₂) {k : ℕ} (hk : 53 + m₂.log2 ≤ m₁.log2 + k) :
    52 ≤ ((m₁ <<< k) / m₂).log2 := by
  have hbits : 2 ^ 52 ≤ (m₁ <<< k) / m₂ := by
    rw [Nat.le_div_iff_mul_le hm₂, Nat.shiftLeft_eq]
    calc 2 ^ 52 * m₂ ≤ 2 ^ 52 * 2 ^ (m₂.log2 + 1) := by
          gcongr
          exact Nat.lt_log2_self.le
      _ = 2 ^ (53 + m₂.log2) := by ring
      _ ≤ 2 ^ (m₁.log2 + k) := Nat.pow_le_pow_right Nat.two_pos hk
      _ = 2 ^ m₁.log2 * 2 ^ k := pow_add 2 _ _
      _ ≤ m₁ * 2 ^ k := by
          gcongr
          exact Nat.log2_self_le hm₁.ne'
  exact (Nat.le_log2 (by omega)).mpr hbits

/-- A quotient is rounded with enough bits, whatever the exponents are. -/
theorem exists_div_eq (s₁ s₂ : Sign) (e₁ e₂ : ℤ) (h₁ : 0 < m₁) (h₂ : 0 < m₂) :
    ∃ M E accuracy,
      UnpackedFloat.div Format.binary64 (.finite s₁ m₁ e₁ h₁) (.finite s₂ m₂ e₂ h₂) =
          roundWithAccuracy Format.binary64 (s₁ / s₂) M E accuracy ∧
        Describes (.ofMantissaAndAccuracy M accuracy) (m₁ * 2 ^ e₁ / (m₂ * 2 ^ e₂) / 2 ^ E) ∧
          E ≤ max (M.log2 + E - 52) (-1074) := by
  simp only [UnpackedFloat.div, divCore]
  generalize hE : min (e₁ - e₂) (Format.binary64.targetExponent
    (totalExponent m₁ e₁ - totalExponent m₂ e₂)) = E
  have hmin : E ≤ e₁ - e₂ := by omega
  obtain ⟨k, hk⟩ : ∃ k : ℕ, e₁ - e₂ - E = k := ⟨(e₁ - e₂ - E).toNat, by omega⟩
  rw [hk, Int.toNat_natCast]
  refine ⟨_, _, _, rfl, ?_, ?_⟩
  · have hquotient : (m₁ * 2 ^ e₁ / (m₂ * 2 ^ e₂) : ℚ) / 2 ^ E = ((m₁ <<< k : ℕ) : ℚ) / m₂ := by
      have he₁ : e₁ = e₂ + E + k := by omega
      rw [Nat.shiftLeft_eq, he₁, zpow_add₀ two_ne_zero, zpow_add₀ two_ne_zero, zpow_natCast]
      push_cast
      field_simp
    rw [hquotient]
    exact describes_div _ h₂
  · have htarget : Format.binary64.targetExponent (totalExponent m₁ e₁ - totalExponent m₂ e₂) =
        max (m₁.log2 + e₁ - (m₂.log2 + e₂) - 53) (-1074) := by
      simp only [Format.targetExponent, totalExponent, Format.mantissaBits, Format.minExponent]
      norm_num
      omega
    rcases le_or_gt E (-1074) with hleast | hleast
    · omega
    · have hlog := le_log2_div h₁ h₂ (k := k) (by omega)
      omega

/-- A quotient is rounded to the double it becomes. -/
theorem div_eq (hc : Canonical m e) (h : ReadsBack m e (m₁ * 2 ^ e₁ / (m₂ * 2 ^ e₂))) :
    UnpackedFloat.div Format.binary64 (.finite s₁ m₁ e₁ h₁) (.finite s₂ m₂ e₂ h₂) =
      .finite (s₁ / s₂) m e hc.pos := by
  obtain ⟨M, E, accuracy, hdiv, hdescribes, hE⟩ := exists_div_eq s₁ s₂ e₁ e₂ h₁ h₂
  rw [hdiv]
  exact roundWithAccuracy_eq hc h hdescribes hE _

end Operations

/-! ## Exact doubles -/

/-- The significand of a natural number, with the leading bit in its place. -/
def significandOf (n : ℕ) : ℕ := n <<< (52 - n.log2)

section NatCast

variable {n : ℕ} (hpos : 0 < n) (hlt : n < 2 ^ 53)
include hpos hlt

theorem log2_lt_53 : n.log2 < 53 := (Nat.log2_lt hpos.ne').mpr hlt

theorem le_significandOf : 2 ^ 52 ≤ significandOf n ∧ significandOf n < 2 ^ 53 := by
  have hlog := log2_lt_53 hpos hlt
  have hlow := Nat.log2_self_le hpos.ne'
  have hhigh : n < 2 ^ (n.log2 + 1) := Nat.lt_log2_self
  rw [significandOf, Nat.shiftLeft_eq]
  constructor
  · calc 2 ^ 52 = 2 ^ n.log2 * 2 ^ (52 - n.log2) := by rw [← pow_add]; congr 1; omega
      _ ≤ n * 2 ^ (52 - n.log2) := by gcongr
  · calc n * 2 ^ (52 - n.log2) < 2 ^ (n.log2 + 1) * 2 ^ (52 - n.log2) := by gcongr
      _ = 2 ^ 53 := by rw [← pow_add]; congr 1; omega

theorem canonical_natCast : Canonical (significandOf n) (n.log2 - 52) := by
  obtain ⟨hlow, hhigh⟩ := le_significandOf hpos hlt
  exact ⟨by omega, hhigh, by omega, fun _ => hlow⟩

/-- Nothing is lost. -/
theorem value_natCast : (significandOf n : ℚ) * 2 ^ ((n.log2 : ℤ) - 52) = n := by
  have hlog := log2_lt_53 hpos hlt
  have hexp : (n.log2 : ℤ) - 52 = -((52 - n.log2 : ℕ) : ℤ) := by omega
  rw [significandOf, Nat.shiftLeft_eq, hexp, zpow_neg, zpow_natCast]
  push_cast
  field_simp

/-- The double of a natural number of at most 53 bits. -/
theorem unpack_ofUInt64 :
    (Float.Model.ofUInt64 n.toUInt64).unpack =
      .finite .positive (significandOf n) (n.log2 - 52) (canonical_natCast hpos hlt).pos := by
  have hlog := log2_lt_53 hpos hlt
  have hc := canonical_natCast hpos hlt
  have hcast : n.toUInt64.toNat = n := by
    rw [Nat.toUInt64, UInt64.toNat_ofNat', Nat.mod_eq_of_lt (by omega)]
  have htarget : (0 - Format.binary64.targetExponent (totalExponent n 0)).toNat = 52 - n.log2 := by
    rw [targetExponent_eq]
    omega
  have hexp : (0 : ℤ) - (52 - n.log2 : ℕ) = n.log2 - 52 := by omega
  have hround : UnpackedFloat.round Format.binary64 .positive n 0 =
      .finite .positive (significandOf n) (n.log2 - 52) hc.pos := by
    have hbits : 52 ≤ (significandOf n).log2 :=
      (Nat.le_log2 hc.pos.ne').mpr (le_significandOf hpos hlt).1
    simp only [UnpackedFloat.round, decreaseExponent, htarget, hexp]
    refine roundWithAccuracy_eq hc (.self _ _) ?_ (by rw [← significandOf]; omega) _
    rw [mul_div_cancel_right₀ _ (by positivity)]
    exact .exact _
  rw [← unpack_pack hc (by omega) .positive, ← hround]
  simp only [Float.Model.ofUInt64, UnpackedFloat.ofUInt64, UnpackedFloat.ofNat, UnpackedFloat.ofInt,
    UnpackedFloat.normalize, hcast]
  rw [Int.compare_eq_gt.mpr (by omega)]
  rfl

end NatCast

/-- What a double stands for determines its unpacked form. -/
theorem unpack_of_ofFloat {x : Float} {m : ℕ} {e : ℤ} (hm : 0 < m)
    (h : ofFloat x = .finite false m e) : x.toModel.unpack = .finite .positive m e hm := by
  rw [ofFloat_eq_ofUnpacked] at h
  cases hx : x.toModel.unpack with
  | notANumber => simp [hx, ofUnpacked] at h
  | infinity s => simp [hx, ofUnpacked] at h
  | zero s =>
      simp only [hx, ofUnpacked, finite.injEq] at h
      omega
  | finite s m' e' h' =>
      simp only [hx, ofUnpacked, finite.injEq] at h
      obtain ⟨hs, rfl, rfl⟩ := h
      cases s with
      | negative => cases hs
      | positive => rfl

/-- The powers of ten that are doubles. -/
theorem ofFloat_powersOfTen : ∀ i : ℕ, i < 23 →
    Float.exactlyRepresentablePowersOfTen[i]?.map ofFloat =
      some (.finite false (significandOf (5 ^ i)) (i + ((5 ^ i).log2 - 52))) := by
  decide +kernel

theorem unpack_powersOfTen {i : ℕ} (hi : i ≤ 22) {power : Float}
    (h : Float.exactlyRepresentablePowersOfTen[i]? = some power) :
    ∃ m e hm, power.toModel.unpack = .finite .positive m e hm ∧ (m : ℚ) * 2 ^ e = 10 ^ i := by
  have hlt : 5 ^ i < 2 ^ 53 := by
    calc 5 ^ i ≤ 5 ^ 22 := Nat.pow_le_pow_right (by norm_num) hi
      _ < 2 ^ 53 := by norm_num
  have hpower := ofFloat_powersOfTen i (by omega)
  rw [h, Option.map_some, Option.some.injEq] at hpower
  have hfive := value_natCast (n := 5 ^ i) (by positivity) hlt
  refine ⟨_, _, (canonical_natCast (by positivity) hlt).pos, unpack_of_ofFloat _ hpower, ?_⟩
  rw [zpow_add₀ two_ne_zero, mul_left_comm, hfive, zpow_natCast]
  push_cast
  rw [← mul_pow]
  norm_num

end Easing.Binary64

namespace Easing.Float64

open Float.Model Easing.Binary64

variable {m : ℕ} {e : ℤ} {digits : ℕ} {exponent : ℤ}

theorem zpow_of_neg (h : exponent < 0) : (10 : ℚ) ^ exponent = (10 ^ exponent.natAbs)⁻¹ := by
  have heq : exponent = -(exponent.natAbs : ℤ) := by omega
  rw [heq, zpow_neg, zpow_natCast, Int.natAbs_neg, Int.natAbs_natCast]

theorem zpow_of_nonneg (h : ¬ exponent < 0) : (10 : ℚ) ^ exponent = 10 ^ exponent.natAbs := by
  have heq : exponent = (exponent.natAbs : ℤ) := by omega
  rw [heq, zpow_natCast, Int.natAbs_natCast]

section

variable (hc : Canonical m e) (hdigits : 0 < digits) (h : ReadsBack m e (digits * 10 ^ exponent))
include hdigits h

/-- Small digits and a small power of ten are doubles themselves. -/
theorem ofScientific_small (hlt : digits < 2 ^ 53) (hsmall : exponent.natAbs ≤ 22) {power : Float}
    (hget : Float.exactlyRepresentablePowersOfTen[exponent.natAbs]? = some power) :
    (if exponent < 0 then digits.toUInt64.toFloat / power else digits.toUInt64.toFloat * power) =
      .ofModel (.pack (.finite .positive m e hc.pos)) := by
  have hn := unpack_ofUInt64 hdigits hlt
  have hvalue := value_natCast hdigits hlt
  obtain ⟨m', e', hm', hpower, hten⟩ := unpack_powersOfTen hsmall hget
  split
  next hneg =>
    change Float.ofModel (.pack (UnpackedFloat.div Format.binary64
      (Float.Model.ofUInt64 digits.toUInt64).unpack power.toModel.unpack)) = _
    rw [hn, hpower, div_eq hc]
    · rfl
    · rwa [hvalue, hten, div_eq_mul_inv, ← zpow_of_neg hneg]
  next hneg =>
    have hbits : 2 ^ 52 ≤ significandOf digits * m' :=
      (le_significandOf hdigits hlt).1.trans (Nat.le_mul_of_pos_right _ hm')
    change Float.ofModel (.pack (UnpackedFloat.mul Format.binary64
      (Float.Model.ofUInt64 digits.toUInt64).unpack power.toModel.unpack)) = _
    rw [hn, hpower, mul_eq hc _ hbits]
    · rfl
    · rwa [hvalue, hten, ← zpow_of_nonneg hneg]

/-- Other decimals are products and quotients of integers. -/
theorem ofScientific_large (hlow : -2048 ≤ exponent) (hhigh : exponent ≤ 2048) :
    UnpackedFloat.ofScientific Format.binary64 digits exponent =
      .finite .positive m e hc.pos := by
  unfold UnpackedFloat.ofScientific
  rw [dif_neg hdigits.ne', if_neg (by norm_num; omega), if_neg (by norm_num; omega)]
  split
  next hpos =>
    have hwidth : Format.binary64.mantissaBits = 53 := by decide
    have hbits : 2 ^ 52 ≤ digits <<< 53 * 10 ^ exponent.toNat := by
      rw [Nat.shiftLeft_eq]
      calc 2 ^ 52 ≤ 1 * 2 ^ 53 * 1 := by norm_num
        _ ≤ digits * 2 ^ 53 * 10 ^ exponent.toNat := by
          gcongr
          · exact hdigits
          · exact Nat.one_le_pow _ _ (by norm_num)
    have hvalue : ((digits <<< 53 : ℕ) : ℚ) * 2 ^ (-(53 : ℕ) : ℤ) *
        ((10 ^ exponent.toNat : ℕ) * 2 ^ (0 : ℤ)) = digits * 10 ^ exponent := by
      rw [zpow_of_nonneg (by omega), Nat.shiftLeft_eq, zpow_neg, zpow_natCast,
        show exponent.toNat = exponent.natAbs by omega]
      push_cast
      field_simp
      norm_num
    simp only [hwidth]
    rw [mul_eq hc (by rwa [hvalue]) hbits]
    rfl
  next hneg =>
    have hvalue : (digits : ℚ) * 2 ^ (0 : ℤ) / ((10 ^ (-exponent).toNat : ℕ) * 2 ^ (0 : ℤ)) =
        digits * 10 ^ exponent := by
      rw [zpow_of_neg (by omega), show (-exponent).toNat = exponent.natAbs by omega]
      push_cast
      field_simp
    rw [div_eq hc (by rwa [hvalue])]
    rfl

end

/-- A decimal is computed as the double that it becomes. -/
theorem ofScientific_eq (hc : Canonical m e) (hdigits : 0 < digits) (hlow : -2048 ≤ exponent)
    (hhigh : exponent ≤ 2048) (h : ReadsBack m e (digits * 10 ^ exponent)) :
    Float.ofScientific digits (decide (exponent < 0)) exponent.natAbs =
      .ofModel (.pack (.finite .positive m e hc.pos)) := by
  unfold Float.ofScientific
  split
  next hfast =>
    have hsize : exponent.natAbs < Float.exactlyRepresentablePowersOfTen.size := by
      have heq : Float.exactlyRepresentablePowersOfTen.size = 23 := rfl
      omega
    simp only [decide_eq_true_eq]
    exact ofScientific_small hc hdigits h hfast.1 hfast.2 (Array.getElem?_eq_getElem hsize)
  next =>
    have hexponent : (if decide (exponent < 0) = true then Int.negOfNat exponent.natAbs
        else Int.ofNat exponent.natAbs) = exponent := by
      rw [Int.negOfNat_eq, Int.ofNat_eq_natCast]
      split
      next hneg =>
        rw [decide_eq_true_eq] at hneg
        omega
      next hneg =>
        rw [decide_eq_true_eq] at hneg
        omega
    simp only [hexponent, Float.Model.ofScientific, ofScientific_large hc hdigits h hlow hhigh]

/-- A decimal that becomes a double has an exponent of moderate size. -/
theorem exponent_bounds (hc : Canonical m e) (he : e ≤ 971) (hdigits : 0 < digits)
    (hlt : digits < 10 ^ 18) (h : ReadsBack m e (digits * 10 ^ exponent)) :
    -342 < exponent ∧ exponent < 309 := by
  have hten : (0 : ℚ) < 10 ^ exponent := by positivity
  have hdigits' : (1 : ℚ) ≤ digits := by exact_mod_cast hdigits
  have hlt' : (digits : ℚ) < 10 ^ (18 : ℤ) := by exact_mod_cast hlt
  constructor
  · have hlow : (10 : ℚ) ^ (-324 : ℤ) < 10 ^ (18 + exponent) := by
      have hpower : (2 : ℚ) ^ 1075 < 10 ^ 324 := by
        exact_mod_cast (by decide +kernel : 2 ^ 1075 < 10 ^ 324)
      calc (10 : ℚ) ^ (-324 : ℤ) < 2 ^ (-1074 - 1 : ℤ) :=
            inv_strictAnti₀ (by positivity) hpower
        _ ≤ 2 ^ (e - 1) := zpow_le_zpow_right₀ one_le_two (by have := hc.least; omega)
        _ ≤ digits * 10 ^ exponent := h.ge hc
        _ < 10 ^ (18 : ℤ) * 10 ^ exponent := by gcongr
        _ = 10 ^ (18 + exponent) := (zpow_add₀ (by norm_num) _ _).symm
    have hexp := (zpow_lt_zpow_iff_right₀ (by norm_num : (1 : ℚ) < 10)).mp hlow
    omega
  · have hhigh : (10 : ℚ) ^ exponent < 10 ^ (309 : ℤ) := by
      calc (10 : ℚ) ^ exponent ≤ digits * 10 ^ exponent := le_mul_of_one_le_left hten.le hdigits'
        _ < 2 ^ (e + 53) := h.lt hc
        _ ≤ 2 ^ (1024 : ℤ) := zpow_le_zpow_right₀ one_le_two (by omega)
        _ < 10 ^ (309 : ℤ) := by exact_mod_cast (by decide +kernel : 2 ^ 1024 < 10 ^ 309)
    exact (zpow_lt_zpow_iff_right₀ (by norm_num : (1 : ℚ) < 10)).mp hhigh

/-- The double that a decimal of at most eighteen digits becomes. -/
theorem ofDecimal_eq (hc : Canonical m e) (he : e ≤ 971) (hlt : digits < 10 ^ 18)
    (h : ReadsBack m e (digits * 10 ^ exponent)) :
    ofDecimal digits exponent = .ofModel (.pack (.finite .positive m e hc.pos)) := by
  have hdigits := h.digits_pos hc
  obtain ⟨hlow, hhigh⟩ := exponent_bounds hc he hdigits hlt h
  -- Neither of the two shortcuts for numbers out of range is taken.
  have hlog : digits.log2 < 60 := (Nat.log2_lt hdigits.ne').mpr (hlt.trans (by norm_num))
  have hplace := Decimal.leadingPlace_eq_or digits 0
  unfold Decimal.estimate at hplace
  unfold ofDecimal
  simp only
  rw [if_neg hdigits.ne', if_neg (by omega), if_neg (by omega)]
  exact ofScientific_eq hc hdigits (by omega) (by omega) h

end Easing.Float64
