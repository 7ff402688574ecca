import Easing.Proofs.Number.Monotone

/-! # The arithmetic of doubles

Sums, differences, products and quotients of finite doubles are the exact ones rounded, as
long as they are not too large. Doubles therefore are numbers that compute up to rounding,
and what is said about such numbers is said about them.
-/

namespace Easing.Binary64

open Float.Model Float.Model.UnpackedFloat

variable {M n : ℕ} {E t : ℤ} {u v w : ℚ} {accuracy : Accuracy} {a b : UnpackedFloat}

/-! ## Rounding a significand -/

/-- Up to half the least double nothing is left of a significand. -/
theorem roundWithAccuracy_zero (hlow : 0 ≤ v) (hhigh : v ≤ 2 ^ (-1075 : ℤ))
    (hdescribes : Describes (.ofMantissaAndAccuracy M accuracy) (v / 2 ^ E))
    (hE : E ≤ max (M.log2 + E - 52) (-1074)) (s : Sign) :
    roundWithAccuracy Format.binary64 s M E accuracy = .zero s := by
  have hM : M = 0 → E ≤ -1074 := by
    rintro rfl
    rw [Nat.log2_zero] at hE
    omega
  have hbelow : v < 2 ^ (-1074 + 53 : ℤ) :=
    hhigh.trans_lt (zpow_lt_zpow_right₀ one_lt_two (by norm_num))
  have htarget := targetExponent_of_zpow hM hdescribes le_rfl (.inl rfl) hbelow
  obtain ⟨em, hshift, hem⟩ := shiftToTargetExponent_eq hdescribes htarget (by
    rw [targetExponent_eq] at htarget
    omega)
  have hhalf : v / 2 ^ (-1074 : ℤ) ≤ 1 / 2 := by
    rwa [← not_lt, ← half_least_lt_iff, not_lt]
  have hnonneg : 0 ≤ v / 2 ^ (-1074 : ℤ) := by positivity
  have hrounds : Rounds 0 (v / 2 ^ (-1074 : ℤ)) := by
    rw [Rounds, if_pos rfl, Nat.cast_zero]
    generalize v / 2 ^ (-1074 : ℤ) = q at hhalf hnonneg
    constructor <;> linarith
  have hagain : shiftToTargetExponent Format.binary64 0 (-1074) .exact =
      (.ofMantissaAndAccuracy 0 .exact, -1074) := rfl
  simp only [roundWithAccuracy, hshift, hem.roundedMantissa hrounds, hagain]
  rfl

/-- A number is rounded to the double that it becomes, if enough bits are known. -/
theorem Nearest.roundWithAccuracy (h : Nearest v w)
    (hdescribes : Describes (.ofMantissaAndAccuracy M accuracy) (v / 2 ^ E))
    (hE : E ≤ max (M.log2 + E - 52) (-1074)) (s : Sign) :
    Denotes (UnpackedFloat.roundWithAccuracy Format.binary64 s M E accuracy) (signed s w) := by
  cases h with
  | zero hlow hhigh =>
      rw [roundWithAccuracy_zero hlow hhigh hdescribes hE, signed_zero]
      exact .zero s
  | finite hc he h =>
      rw [roundWithAccuracy_eq hc h hdescribes hE]
      exact .finite s hc he

theorem Nearest.round (hn : n ≠ 0) (h : Nearest (n * 2 ^ t) w) (s : Sign) :
    Denotes (UnpackedFloat.round Format.binary64 s n t) (signed s w) := by
  obtain ⟨M, E, hround, hdescribes, hE⟩ := exists_round_eq hn t s
  rw [hround]
  exact h.roundWithAccuracy hdescribes hE s

theorem RoundsTo.normalize {k : ℤ} (h : RoundsTo (k * 2 ^ t) w) (zero : Sign) :
    Denotes (UnpackedFloat.normalize Format.binary64 k t zero) w := by
  unfold UnpackedFloat.normalize
  rcases lt_trichotomy k 0 with hneg | rfl | hpos
  · rw [Int.compare_eq_lt.mpr hneg]
    have hcast : (((-k).toNat : ℕ) : ℚ) = -k := by
      exact_mod_cast Int.toNat_of_nonneg (neg_nonneg.mpr hneg.le)
    have hvalue : (k : ℚ) * 2 ^ t = signed .negative (((-k).toNat : ℕ) * 2 ^ t) := by
      rw [hcast, signed, neg_mul, neg_neg]
    rw [hvalue] at h
    obtain ⟨b, hb, rfl⟩ := h.exists_of_signed (by positivity)
    exact hb.round (by omega) .negative
  · rw [Int.cast_zero, zero_mul] at h
    rw [(h.nearest le_rfl).eq_zero]
    exact .zero zero
  · rw [Int.compare_eq_gt.mpr hpos]
    have hcast : ((k.toNat : ℕ) : ℚ) = k := by
      exact_mod_cast Int.toNat_of_nonneg hpos.le
    rw [← hcast] at h
    exact (h.nearest (by positivity)).round (by omega) .positive

/-! ## Operations -/

/-- A number of either sign at a lesser exponent. -/
theorem cast_apply_decreaseExponent (s : Sign) (m : ℕ) {e t : ℤ} (h : t ≤ e) :
    ((s.apply (decreaseExponent m e t).1 : ℤ) : ℚ) * 2 ^ t = signed s (m * 2 ^ e) := by
  have hvalue := Float64.cast_decreaseExponent m h
  cases s with
  | positive => exact hvalue
  | negative =>
      rw [Sign.apply, Int.cast_neg, neg_mul]
      exact congrArg Neg.neg hvalue

/-- A product has enough bits, unless both factors are subnormal. Then its exponent is far
below the least one. -/
theorem Canonical.mul_exponent_le {m m' : ℕ} {e e' : ℤ} (hc : Canonical m e)
    (hc' : Canonical m' e') : e + e' ≤ max ((m * m').log2 + (e + e') - 52) (-1074) := by
  have hpos : 0 < m * m' := Nat.mul_pos hc.pos hc'.pos
  by_cases hsubnormal : e = -1074 ∧ e' = -1074
  · obtain ⟨rfl, rfl⟩ := hsubnormal
    exact le_max_of_le_right (by norm_num)
  · have hbits : 2 ^ 52 ≤ m * m' := by
      have hleast := hc.least
      have hleast' := hc'.least
      rcases (show -1074 < e ∨ -1074 < e' by omega) with hlt | hlt
      · exact (hc.normal hlt).trans (Nat.le_mul_of_pos_right m hc'.pos)
      · exact (hc'.normal hlt).trans (Nat.le_mul_of_pos_left m' hc.pos)
    have hlog := (Nat.le_log2 hpos.ne').mpr hbits
    omega

namespace Denotes

theorem add (ha : Denotes a v) (hb : Denotes b w) (h : RoundsTo (v + w) u) :
    Denotes (UnpackedFloat.add Format.binary64 a b) u := by
  cases ha with
  | zero s =>
      rw [zero_add] at h
      obtain rfl := h.eq hb.roundsTo
      cases hb with
      | zero s' =>
          simp only [UnpackedFloat.add]
          split
          · exact .zero s
          · exact .zero .positive
      | finite s' hc' he' => exact .finite s' hc' he'
  | @finite s m e hc he =>
      cases hb with
      | zero s' =>
          rw [add_zero] at h
          obtain rfl := h.eq (Denotes.finite s hc he).roundsTo
          exact .finite s hc he
      | @finite s' m' e' hc' he' =>
          rw [← cast_apply_decreaseExponent s m (min_le_left e e'),
            ← cast_apply_decreaseExponent s' m' (min_le_right e e'), ← add_mul, ← Int.cast_add] at h
          exact h.normalize .positive

theorem sub (ha : Denotes a v) (hb : Denotes b w) (h : RoundsTo (v - w) u) :
    Denotes (UnpackedFloat.sub Format.binary64 a b) u := by
  cases ha with
  | zero s =>
      rw [zero_sub] at h
      obtain rfl := h.eq hb.neg.roundsTo
      cases hb with
      | zero s' =>
          rw [neg_zero]
          simp only [UnpackedFloat.sub]
          split
          · exact .zero s
          · exact .zero .positive
      | finite s' hc' he' => exact (Denotes.finite s' hc' he').neg
  | @finite s m e hc he =>
      cases hb with
      | zero s' =>
          rw [sub_zero] at h
          obtain rfl := h.eq (Denotes.finite s hc he).roundsTo
          exact .finite s hc he
      | @finite s' m' e' hc' he' =>
          rw [← cast_apply_decreaseExponent s m (min_le_left e e'),
            ← cast_apply_decreaseExponent s' m' (min_le_right e e'), ← sub_mul, ← Int.cast_sub] at h
          exact h.normalize .positive

theorem mul (ha : Denotes a v) (hb : Denotes b w) (h : RoundsTo (v * w) u) :
    Denotes (UnpackedFloat.mul Format.binary64 a b) u := by
  cases ha with
  | zero s =>
      rw [zero_mul] at h
      obtain rfl := (h.nearest le_rfl).eq_zero
      cases hb with
      | zero s' => exact .zero (s * s')
      | finite s' hc' he' => exact .zero (s * s')
  | @finite s m e hc he =>
      cases hb with
      | zero s' =>
          rw [mul_zero] at h
          obtain rfl := (h.nearest le_rfl).eq_zero
          exact .zero (s * s')
      | @finite s' m' e' hc' he' =>
          rw [← signed_mul] at h
          obtain ⟨x, hx, rfl⟩ := h.exists_of_signed (by positivity)
          exact hx.roundWithAccuracy (describes_mul m m' e e') (hc.mul_exponent_le hc') (s * s')

theorem div (ha : Denotes a v) (hb : Denotes b w) (hw : w ≠ 0) (h : RoundsTo (v / w) u) :
    Denotes (UnpackedFloat.div Format.binary64 a b) u := by
  cases hb with
  | zero s' => exact absurd rfl hw
  | @finite s' m' e' hc' he' =>
      cases ha with
      | zero s =>
          rw [zero_div] at h
          obtain rfl := (h.nearest le_rfl).eq_zero
          exact .zero (s / s')
      | @finite s m e hc he =>
          rw [← signed_div] at h
          obtain ⟨x, hx, rfl⟩ := h.exists_of_signed (by positivity)
          obtain ⟨M, E, accuracy, hdiv, hdescribes, hE⟩ :=
            exists_div_eq s s' e e' hc.pos hc'.pos
          rw [hdiv]
          exact hx.roundWithAccuracy hdescribes hE (s / s')

end Denotes

end Easing.Binary64

namespace Easing.Float64

open Float.Model Float.Model.UnpackedFloat Binary64

variable {x y : Float} {u v w : ℚ}

/-- The integer part is rounded towards zero. -/
theorem Value.truncate_eq (h : Value x v) :
    Scalar.truncate x = .ok (if 0 ≤ v then ⌊v⌋ else ⌈v⌉) := by
  change (ofFloat x).truncate = _
  rw [ofFloat_eq_ofUnpacked]
  unfold Value at h
  generalize x.toModel.unpack = a at h
  cases h with
  | zero s =>
      cases s <;> simp [ofUnpacked, truncate, isMinus]
  | @finite s m e hc he =>
      have hpos := hc.value_pos
      change Except.ok (if isMinus s = true then _ else _) = _
      rw [shift_eq_floor]
      cases s with
      | positive =>
          have hnonneg : 0 ≤ signed .positive ((m : ℚ) * 2 ^ e) := hpos.le
          rw [if_pos hnonneg]
          exact congrArg Except.ok (Int.natCast_floor_eq_floor hpos.le)
      | negative =>
          have hneg : ¬ 0 ≤ signed .negative ((m : ℚ) * 2 ^ e) :=
            not_le.mpr (neg_neg_of_pos hpos)
          rw [if_neg hneg]
          change Except.ok (-((⌊(m : ℚ) * 2 ^ e⌋₊ : ℕ) : ℤ)) = .ok ⌈-((m : ℚ) * 2 ^ e)⌉
          rw [Int.ceil_neg, Int.natCast_floor_eq_floor hpos.le]

theorem value_zero : Value 0 0 := .zero .positive

theorem value_of_ofFloat {m : ℕ} {e : ℤ} (hm : 0 < m) (h : ofFloat x = .finite false m e) :
    Value x (m * 2 ^ e) :=
  StandsFor.value ⟨m, e, hm, unpack_of_ofFloat hm h, rfl⟩

/-- Natural numbers are rounded to doubles like any other number. -/
theorem value_ofNat {n : ℕ} (h : Nearest n w) : Value (Float.ofNat n) w := by
  cases h with
  | zero _ hhigh =>
      have htiny : (2 : ℚ) ^ (-1075 : ℤ) < 1 := zpow_lt_one_of_neg₀ one_lt_two (by norm_num)
      have hlt : n < 1 := by exact_mod_cast hhigh.trans_lt htiny
      obtain rfl : n = 0 := by omega
      exact .zero .positive
  | @finite m e hc he h =>
      have hread : ReadsBack m e (n * 10 ^ (0 : ℤ)) := by rwa [zpow_zero, mul_one]
      have hofNat := ofScientific_eq hc (hread.digits_pos hc) (by norm_num) (by norm_num) hread
      change Value (Float.ofScientific n (decide ((0 : ℤ) < 0)) (0 : ℤ).natAbs) _
      rw [hofNat]
      exact .of_pack (.finite .positive hc he)

theorem value_natCast {n : ℕ} (hn : n ≤ Generator.unitCount) : Value (Float.ofNat n) n := by
  have hnearest := nearest_scaled (k := 0) hn (by norm_num) (by norm_num)
  rw [zpow_zero, mul_one] at hnearest
  exact value_ofNat hnearest

theorem value_intCast {n : ℤ} (hn : |n| ≤ Generator.unitCount) : Value (Float.ofInt n) n := by
  rw [Int.abs_eq_natAbs] at hn
  cases n with
  | ofNat n => exact value_natCast (Int.ofNat_le.mp hn)
  | negSucc n =>
      rw [Int.cast_negSucc]
      exact (value_natCast (n := n + 1) (Int.ofNat_le.mp hn)).neg

/-- Doubles of more than 53 bits before the point have none behind it. -/
theorem Value.lt_or_exists_natCast (h : Value x v) (hv : 0 ≤ v) : v < 2 ^ 53 ∨ ∃ n : ℕ, v = n := by
  unfold Value at h
  generalize x.toModel.unpack = a at h
  cases h with
  | zero s => exact .inl (by positivity)
  | @finite s m e hc he =>
      cases s with
      | negative => exact absurd hv (not_le.mpr (neg_neg_of_pos hc.value_pos))
      | positive =>
          rcases le_or_gt 0 e with hnonneg | hneg
          · refine .inr ⟨m * 2 ^ e.toNat, ?_⟩
            rw [signed, Nat.cast_mul, Nat.cast_pow, Nat.cast_ofNat, ← zpow_natCast,
              Int.toNat_of_nonneg hnonneg]
          · have hm : (m : ℚ) < 2 ^ 53 := by exact_mod_cast hc.lt
            have hle : (2 : ℚ) ^ e ≤ 1 := zpow_le_one_of_nonpos₀ one_le_two hneg.le
            exact .inl ((mul_le_of_le_one_right m.cast_nonneg hle).trans_lt hm)

/-- The integers next to a double are doubles. -/
theorem Value.floor_ceil (h : Value x v) (hv : 0 ≤ v) :
    Value (Float.ofInt ⌊v⌋) ⌊v⌋ ∧ Value (Float.ofInt ⌈v⌉) ⌈v⌉ := by
  rcases h.lt_or_exists_natCast hv with hlt | ⟨n, rfl⟩
  · have hfloor : 0 ≤ ⌊v⌋ := Int.floor_nonneg.mpr hv
    have hceil : ⌈v⌉ ≤ 2 ^ 53 := Int.ceil_le.mpr (by exact_mod_cast hlt.le)
    have hle : ⌊v⌋ ≤ ⌈v⌉ := Int.floor_le_ceil v
    have hcount : ((Generator.unitCount : ℕ) : ℤ) = 2 ^ 53 := by norm_num [Generator.unitCount]
    constructor <;> refine value_intCast ?_ <;> rw [hcount, abs_of_nonneg (by omega)] <;> omega
  · have hself : Value (Float.ofNat n) n := value_ofNat (h.roundsTo.nearest hv)
    rw [Int.floor_natCast, Int.ceil_natCast, Int.cast_natCast]
    exact ⟨hself, hself⟩

/-- The ceiling of a double that is not negative is the exact one. -/
theorem Value.ceiling_eq (h : Value x v) (hv : 0 ≤ v) : Scalar.ceiling x = .ok ⌈v⌉ := by
  have hceiling : Scalar.ceiling x = Scalar.truncate x >>= fun n =>
      pure (if Float.ofInt n < x then n + 1 else n) := rfl
  rw [hceiling, h.truncate_eq, if_pos hv, ← Rational.floor_step v]
  change Except.ok _ = Except.ok _
  simp only [Value.lt_iff (h.floor_ceil hv).1 h]

/-- Half the length of the unit circle is less than four. -/
theorem exists_value_pi : ∃ p, Value pi p ∧ 0 ≤ p ∧ p ≤ 4 := by
  have hvalue := value_of_ofFloat (x := pi) (m := 7074237752028440) (e := -51) (by norm_num)
    (by decide +kernel)
  exact ⟨_, hvalue, by positivity, by norm_num⟩

/-- Angles up to a full turn are doubles. -/
theorem exists_value_angle (hx : Value x v) (hlow : 0 ≤ v) (hhigh : v ≤ 1) :
    (∃ w, Value (pi * x) w) ∧ ∃ w, Value (Scalar.two * pi * x) w := by
  have height : RoundsTo 8 8 := Denotes.roundsTo (value_natCast (n := 8) (by decide))
  have hzero : RoundsTo 0 0 := value_zero.roundsTo
  have hmul {y z : Float} {v w : ℚ} (hy : Value y v) (hz : Value z w) (hlow : 0 ≤ v * w)
      (hhigh : v * w ≤ 8) : ∃ u, Value (y * z) u ∧ 0 ≤ u ∧ u ≤ 8 := by
    obtain ⟨u, hu⟩ := hzero.exists_between height hlow hhigh
    exact ⟨u, .of_pack (Denotes.mul hy hz hu), hzero.mono hu hlow, hu.mono height hhigh⟩
  obtain ⟨p, hp, hplow, hphigh⟩ := exists_value_pi
  have htwo : Value Scalar.two 2 := value_natCast (n := 2) (by decide)
  obtain ⟨q, hq, hqlow, hqhigh⟩ := hmul htwo hp (by positivity) (by linarith)
  obtain ⟨half, hhalf, _⟩ := hmul hp hx (by positivity) (by nlinarith)
  obtain ⟨full, hfull, _⟩ := hmul hq hx (by positivity) (by nlinarith)
  exact ⟨⟨half, hhalf⟩, full, hfull⟩

end Easing.Float64

namespace Easing

open Float64 Binary64

/-- Finite doubles compute up to rounding. -/
instance : Scalar.Rounded Float where
  Value := Float64.Value
  RoundsTo := Binary64.RoundsTo
  roundsTo_mono := RoundsTo.mono
  exists_roundsTo := RoundsTo.exists_between
  exists_roundsTo_add_one := Denotes.exists_add_one
  roundsTo_self := Denotes.roundsTo
  roundsTo_unit _ := roundsTo_part
  ne_zero_of_sub := RoundsTo.ne_zero_of_sub
  isFinite_iff := Float64.isFinite_iff
  lt_iff := Float64.Value.lt_iff
  le_iff := Float64.Value.le_iff
  beq_iff := Float64.Value.beq_iff
  value_zero := Float64.value_zero
  value_one := standsFor_one.value
  value_natCast := Float64.value_natCast
  value_intCast := Float64.value_intCast
  value_neg := Float64.Value.neg
  value_abs := Float64.Value.abs
  value_add hx hy h := .of_pack (Denotes.add hx hy h)
  value_sub hx hy h := .of_pack (Denotes.sub hx hy h)
  value_mul hx hy h := .of_pack (Denotes.mul hx hy h)
  value_div hx hy hne h := .of_pack (Denotes.div hx hy hne h)
  exists_value_angle := Float64.exists_value_angle
  truncate_eq := Float64.Value.truncate_eq

end Easing
