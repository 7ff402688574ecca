import Easing.Proofs.Number.Values
import Easing.Transform.Resolve

/-! # Numbers that tests can be relied on

A divisor is a difference, and what is tested is that its two numbers differ. A position
is the integer part of a share of a count, and what is tested is the count.
`Scalar.Guarded` names what has to be true of numbers for these tests to be enough, and
doubles are such numbers.
-/

namespace Easing

/-- Numbers for which tests of equality and of order rule out what they are meant to. -/
class Scalar.Guarded (α : Type) [Scalar α] : Prop extends Scalar.Ordered α where
  /-- Equality can be tested either way round. -/
  beq_comm (x y : α) : (x == y) = (y == x)
  /-- A number is not equal to one that it is below. -/
  beq_of_lt {x y : α} : x < y → (x == y) = false
  /-- Two defined numbers are equal unless one of them is below the other. -/
  beq_of_not_lt {x y : α} :
    isNaN x = false → isNaN y = false → ¬ x < y → ¬ y < x → (x == y) = true
  /-- No difference is zero but that of equal numbers. -/
  beq_of_sub {x y : α} : (x - y == 0) = true → (x == y) = true
  /-- A count of break points is a natural number, which is not zero. -/
  truncate_count {x : α} : isFinite x = true → 1 ≤ x → x ≤ (Transform.maxBreakPoints : α) →
    ∃ n : Nat, 0 < n ∧ n ≤ Transform.maxBreakPoints ∧ truncate x = .ok (n : Int)
  /-- A share of a count is at most the count, and it is undefined only as the share is. -/
  truncate_share {n : Nat} : 0 < n → n ≤ Transform.maxBreakPoints → ∀ x : α,
    truncate (clampUnit x * ((n : Int) : α)) = .error .integerOfNaN ∨
      ∃ k : Nat, k ≤ n ∧ truncate (clampUnit x * ((n : Int) : α)) = .ok (k : Int)
  /-- Only infinities and what is undefined have no integer part. -/
  truncate_error {x : α} {f : EvalFault} :
    truncate x = .error f → f = .integerOfNaN ∨ f = .integerOfInfinity
  sin_error {x : α} {f : EvalFault} : Scalar.sin x = .error f → f = .infiniteAngle
  cos_error {x : α} {f : EvalFault} : Scalar.cos x = .error f → f = .infiniteAngle
  /-- A magnitude is not a negative exponent, so its powers do not divide. -/
  pow_error {x y : α} {f : EvalFault} : Scalar.pow x (abs y) = .error f → f = .powerTooLarge

namespace Float64

open Float.Model Float.Model.UnpackedFloat Binary64

variable {x y : Float} {v w : ℚ} {n : ℕ}

/-! ## Equality and differences -/

theorem beq_eq_false_iff :
    (x == y) = false ↔ x.toModel.unpack.compare y.toModel.unpack ≠ some .eq := by
  rw [← Bool.not_eq_true, beq_iff, ne_eq]

/-- The doubles equal to zero are the two zeros. -/
theorem beq_zero_iff : (x == 0) = true ↔ ∃ s, x.toModel.unpack = .zero s := by
  rw [beq_iff]
  change x.toModel.unpack.compare (.zero .positive) = some .eq ↔ _
  rcases x.toModel.unpack with ⟨_ | _⟩ | _ | s | ⟨_ | _, m, e, h⟩ <;> simp [UnpackedFloat.compare]

/-- Finite doubles of the same value and sign are the same. -/
theorem compare_of_value {m m' : ℕ} {e e' : ℤ} (hc : Canonical m e) (hc' : Canonical m' e')
    (s : Sign) (hvalue : (m : ℚ) * 2 ^ e = m' * 2 ^ e') :
    UnpackedFloat.compare (.finite s m e hc.pos) (.finite s m' e' hc'.pos) = some .eq := by
  have heq := hc.compare_eq hc'
  rw [compare_eq_iff_eq.mpr hvalue] at heq
  cases s with
  | positive => simp only [UnpackedFloat.compare, heq]
  | negative => simp only [UnpackedFloat.compare, heq, Ordering.swap]

/-- The integers that two doubles are, at the lesser of their exponents. -/
theorem cast_decreaseExponent (m : ℕ) {e t : ℤ} (h : t ≤ e) :
    ((decreaseExponent m e t).1 : ℚ) * 2 ^ t = m * 2 ^ e := by
  have hexponent : e = (e - t).toNat + t := by omega
  conv_rhs => rw [hexponent, zpow_add₀ two_ne_zero, zpow_natCast]
  rw [decreaseExponent, Nat.shiftLeft_eq]
  push_cast
  ring

/-- A difference of finite doubles is zero only of equal ones. -/
theorem compare_of_sub_finite {s s' : Sign} {m m' : ℕ} {e e' : ℤ} (hc : Canonical m e)
    (hc' : Canonical m' e')
    (hzero : ∃ sign, (Float.Model.pack (UnpackedFloat.sub Format.binary64
      (.finite s m e hc.pos) (.finite s' m' e' hc'.pos))).unpack = .zero sign) :
    UnpackedFloat.compare (.finite s m e hc.pos) (.finite s' m' e' hc'.pos) = some .eq := by
  obtain ⟨sign, hzero⟩ := hzero
  have hvalue := cast_decreaseExponent m (min_le_left e e')
  have hvalue' := cast_decreaseExponent m' (min_le_right e e')
  have hpos : 0 < (decreaseExponent m e (min e e')).1 := by
    have hm : (0 : ℚ) < m := by exact_mod_cast hc.pos
    have hmul : (0 : ℚ) < (decreaseExponent m e (min e e')).1 * 2 ^ min e e' := by
      rw [hvalue]
      positivity
    exact_mod_cast pos_of_mul_pos_left hmul (by positivity)
  simp only [UnpackedFloat.sub] at hzero
  generalize (decreaseExponent m e (min e e')).1 = k at hvalue hpos hzero
  generalize (decreaseExponent m' e' (min e e')).1 = k' at hvalue' hzero
  by_cases hdifference : s.apply k - s'.apply k' = 0
  · have hsame : s = s' ∧ k = k' := by
      cases s <;> cases s' <;> simp only [Sign.apply] at hdifference <;>
        first
        | exact ⟨rfl, by omega⟩
        | omega
    obtain ⟨rfl, rfl⟩ := hsame
    exact compare_of_value hc hc' s (hvalue.symm.trans hvalue')
  · have hleast : -1074 ≤ min e e' := le_min hc.least hc'.least
    obtain ⟨s, m, e, hc, hnormal⟩ := exists_normalize hdifference hleast .positive
    rw [hnormal] at hzero
    exact absurd hzero (unpack_pack_ne_zero hc s sign)

theorem beq_of_sub (h : (x - y == 0) = true) : (x == y) = true := by
  obtain ⟨sign, hzero⟩ := beq_zero_iff.mp h
  change (Float.Model.pack (UnpackedFloat.sub Format.binary64 x.toModel.unpack
    y.toModel.unpack)).unpack = _ at hzero
  rw [beq_iff]
  rcases hx : x.toModel.unpack with s | _ | s | ⟨s, m, e, hm⟩ <;>
    rcases hy : y.toModel.unpack with s' | _ | s' | ⟨s', m', e', hm'⟩ <;> rw [hx, hy] at hzero
  case zero.zero => rfl
  case zero.finite =>
      have hc := (canonical_of_unpack hy).1
      exact absurd hzero (unpack_pack_ne_zero hc (-s') sign)
  case finite.zero =>
      have hc := (canonical_of_unpack hx).1
      exact absurd hzero (unpack_pack_ne_zero hc s sign)
  case finite.finite =>
      have hc := (canonical_of_unpack hx).1
      have hc' := (canonical_of_unpack hy).1
      exact compare_of_sub_finite hc hc' ⟨sign, hzero⟩
  case infinity.infinity =>
      simp only [UnpackedFloat.sub] at hzero
      split at hzero <;> simp at hzero
  all_goals simp [UnpackedFloat.sub] at hzero

/-! ## Integer parts -/

/-- A positive finite double and the number that it stands for. -/
def StandsFor (x : Float) (v : ℚ) : Prop :=
  ∃ m e h, x.toModel.unpack = .finite .positive m e h ∧ (m : ℚ) * 2 ^ e = v

theorem StandsFor.value (h : StandsFor x v) : Value x v := by
  obtain ⟨m, e, hm, hunpack, rfl⟩ := h
  obtain ⟨hc, he⟩ := canonical_of_unpack hunpack
  rw [Value, hunpack]
  exact .finite .positive hc he

theorem StandsFor.lt_iff (hx : StandsFor x v) (hy : StandsFor y w) : x < y ↔ v < w :=
  hx.value.lt_iff hy.value

theorem StandsFor.le_iff (hx : StandsFor x v) (hy : StandsFor y w) : x ≤ y ↔ v ≤ w :=
  hx.value.le_iff hy.value

/-- Shifting a significand by its exponent leaves the integer part. -/
theorem shift_eq_floor (m : ℕ) (e : ℤ) : m <<< e.toNat >>> (-e).toNat = ⌊(m : ℚ) * 2 ^ e⌋₊ := by
  rw [Nat.shiftRight_eq_div_pow, Nat.shiftLeft_eq]
  rcases le_total 0 e with hpos | hneg
  · obtain ⟨k, rfl⟩ := Int.eq_ofNat_of_zero_le hpos
    have hnone : (-(k : ℤ)).toNat = 0 := by omega
    rw [zpow_natCast, Int.toNat_natCast, hnone, pow_zero, Nat.div_one]
    exact_mod_cast (Nat.floor_natCast (m * 2 ^ k)).symm
  · obtain ⟨k, hk⟩ := Int.eq_ofNat_of_zero_le (neg_nonneg.mpr hneg)
    have hnone : e.toNat = 0 := by omega
    rw [hnone, pow_zero, mul_one, ← Nat.floor_div_eq_div (K := ℚ)]
    congr 1
    rw [hk, Int.toNat_natCast, ← neg_neg e, hk, zpow_neg, zpow_natCast, div_eq_mul_inv]
    push_cast
    rfl

/-- The integer part is that of the number. -/
theorem StandsFor.truncate_eq (hx : StandsFor x v) : Scalar.truncate x = .ok (⌊v⌋₊ : ℤ) := by
  obtain ⟨m, e, h, hunpack, rfl⟩ := hx
  change (ofFloat x).truncate = _
  rw [ofFloat_eq_ofUnpacked, hunpack, ← shift_eq_floor]
  rfl

/-- Natural numbers of a moderate size are doubles. -/
theorem unpack_ofNat (hpos : 0 < n) (hlt : n < 2 ^ 53) :
    (Float.ofNat n).toModel.unpack =
      .finite .positive (significandOf n) (n.log2 - 52) (canonical_natCast hpos hlt).pos := by
  have hc := canonical_natCast hpos hlt
  have hlog := log2_lt_53 hpos hlt
  have hread : ReadsBack (significandOf n) (n.log2 - 52) (n * 10 ^ (0 : ℤ)) := by
    have hself := ReadsBack.self (significandOf n) (n.log2 - 52)
    rwa [value_natCast hpos hlt, ← mul_one (n : ℚ), ← zpow_zero (10 : ℚ)] at hself
  have hofNat := ofScientific_eq hc hpos (by norm_num) (by norm_num) hread
  change (Float.ofScientific n (decide ((0 : ℤ) < 0)) (0 : ℤ).natAbs).toModel.unpack = _
  rw [hofNat]
  exact unpack_pack hc (by omega) .positive

theorem standsFor_ofNat (hpos : 0 < n) (hlt : n < 2 ^ 53) : StandsFor (Float.ofNat n) n :=
  ⟨_, _, _, unpack_ofNat hpos hlt, value_natCast hpos hlt⟩

theorem standsFor_one : StandsFor 1 1 := by
  refine ⟨2 ^ 52, -52, by norm_num, unpack_of_ofFloat _ ?_, by norm_num⟩
  change ofFloat 1.0 = _
  decide +kernel

/-! ## Angles and powers -/

theorem angular_error {function : Float → Float} {f : EvalFault}
    (h : angular function x = .error f) : f = .infiniteAngle := by
  unfold angular at h
  split at h
  · exact (Except.error.inj h).symm
  · cases h

/-- A magnitude is not negative. -/
theorem not_abs_lt_zero (x : Float) : ¬ Float.abs x < 0 := by
  rw [lt_iff]
  change ¬ UnpackedFloat.compare (Float.Model.pack x.toModel.unpack.abs).unpack
    (.zero .positive) = some .lt
  rcases hx : x.toModel.unpack with s | _ | s | ⟨s, m, e, h⟩
  · simp [UnpackedFloat.abs, UnpackedFloat.compare]
  · simp [UnpackedFloat.abs, UnpackedFloat.compare]
  · simp [UnpackedFloat.abs, UnpackedFloat.compare]
  · obtain ⟨hc, he⟩ := canonical_of_unpack hx
    simp [UnpackedFloat.abs, UnpackedFloat.compare, unpack_pack hc he]

theorem pow_error {f : EvalFault} (h : Float64.pow x (Float.abs y) = .error f) :
    f = .powerTooLarge := by
  unfold Float64.pow at h
  simp only [not_abs_lt_zero, decide_false, Bool.and_false, Bool.false_eq_true, ↓reduceIte] at h
  split at h
  · exact (Except.error.inj h).symm
  · cases h

/-! ## Shares of a count -/

/-- Unless it is undefined, a number that is held at zero from below is a zero or positive. -/
theorem larger_zero_cases (x : Float) :
    (Scalar.larger x 0).toModel.unpack = .notANumber ∨
      (∃ s, (Scalar.larger x 0).toModel.unpack = .zero s) ∨
        (Scalar.larger x 0).toModel.unpack = .infinity .positive ∨
          ∃ v, StandsFor (Scalar.larger x 0) v := by
  unfold Scalar.larger
  by_cases hneg : x < 0
  · rw [if_pos hneg]
    exact .inr (.inl ⟨.positive, rfl⟩)
  · rw [if_neg hneg]
    rw [lt_iff] at hneg
    change ¬ x.toModel.unpack.compare (.zero .positive) = some .lt at hneg
    rcases hx : x.toModel.unpack with ⟨_ | _⟩ | _ | s | ⟨_ | _, m, e, h⟩ <;> rw [hx] at hneg
    · exact absurd rfl hneg
    · exact .inr (.inr (.inl rfl))
    · exact .inl rfl
    · exact .inr (.inl ⟨s, rfl⟩)
    · exact absurd rfl hneg
    · exact .inr (.inr (.inr ⟨_, m, e, h, hx, rfl⟩))

/-- Unless it is undefined, a share is a zero or a number up to one. -/
theorem clampUnit_cases (x : Float) :
    (Scalar.clampUnit x).toModel.unpack = .notANumber ∨
      (∃ s, (Scalar.clampUnit x).toModel.unpack = .zero s) ∨
        ∃ v, v ≤ 1 ∧ StandsFor (Scalar.clampUnit x) v := by
  have hcases := larger_zero_cases x
  have hclamp : Scalar.clampUnit x =
      if 1 < Scalar.larger x 0 then 1 else Scalar.larger x 0 := rfl
  rw [hclamp]
  generalize Scalar.larger x 0 = z at hcases
  by_cases habove : 1 < z
  · rw [if_pos habove]
    exact .inr (.inr ⟨1, le_rfl, standsFor_one⟩)
  · rw [if_neg habove]
    rcases hcases with hnan | hzero | hinfinite | ⟨v, hv⟩
    · exact .inl hnan
    · exact .inr (.inl hzero)
    · obtain ⟨m, e, h, hone, _⟩ := standsFor_one
      rw [lt_iff, hone, hinfinite] at habove
      exact absurd rfl habove
    · rw [standsFor_one.lt_iff hv, not_lt] at habove
      exact .inr (.inr ⟨v, habove, hv⟩)

/-- A share of a count is rounded to no more than the count. -/
theorem StandsFor.exists_mul (hx : StandsFor x v) (hv : v ≤ 1) (hpos : 0 < n)
    (hn : n < 2 ^ 52 - 1) : ∃ w, StandsFor (x * Float.ofNat n) w ∧ ⌊w⌋₊ ≤ n := by
  obtain ⟨m, e, h, hunpack, rfl⟩ := hx
  have hlt : n < 2 ^ 53 := by omega
  have hvalue := value_natCast hpos hlt
  have hc := (canonical_of_unpack hunpack).1
  have hm : (1 : ℚ) ≤ m := by exact_mod_cast hc.pos
  have hone : (1 : ℚ) ≤ n := by exact_mod_cast hpos
  have hle : (m : ℚ) * 2 ^ e * (significandOf n * 2 ^ ((n.log2 : ℤ) - 52)) ≤ n := by
    rw [hvalue]
    exact mul_le_of_le_one_left n.cast_nonneg hv
  have hleast : (2 : ℚ) ^ (-1074 : ℤ) ≤
      m * 2 ^ e * (significandOf n * 2 ^ ((n.log2 : ℤ) - 52)) :=
    calc (2 : ℚ) ^ (-1074 : ℤ) ≤ 1 * 2 ^ e * 1 := by
          rw [one_mul, mul_one]
          exact zpow_le_zpow_right₀ one_le_two hc.least
      _ ≤ m * 2 ^ e * (significandOf n * 2 ^ ((n.log2 : ℤ) - 52)) := by
          rw [hvalue]
          gcongr
  obtain ⟨k, t, hk, hread⟩ := exists_readsBack hleast
  have ht : t ≤ 971 := by
    have hpower : (2 : ℚ) ^ (t - 1) < 2 ^ (52 : ℤ) := by
      refine ((hread.ge hk).trans hle).trans_lt ?_
      exact_mod_cast (by omega : n < 2 ^ 52)
    have hexponent := (zpow_lt_zpow_iff_right₀ one_lt_two).mp hpower
    omega
  have hbits : 2 ^ 52 ≤ m * significandOf n :=
    (le_significandOf hpos hlt).1.trans (Nat.le_mul_of_pos_left _ h)
  refine ⟨k * 2 ^ t, ⟨k, t, hk.pos, ?_, rfl⟩, hread.floor_le hk hle hn⟩
  change (Float.Model.pack (UnpackedFloat.mul Format.binary64 x.toModel.unpack
    (Float.ofNat n).toModel.unpack)).unpack = _
  rw [hunpack, unpack_ofNat hpos hlt, mul_eq hk hread hbits]
  exact unpack_pack hk ht .positive

/-- The position that a share of a count leads to. -/
theorem truncate_share (hpos : 0 < n) (hn : n < 2 ^ 52 - 1) (x : Float) :
    Scalar.truncate (Scalar.clampUnit x * Float.ofNat n) = .error .integerOfNaN ∨
      ∃ k : ℕ, k ≤ n ∧ Scalar.truncate (Scalar.clampUnit x * Float.ofNat n) = .ok (k : ℤ) := by
  have htruncate (u : UnpackedFloat) (h : UnpackedFloat.mul Format.binary64
      (Scalar.clampUnit x).toModel.unpack (Float.ofNat n).toModel.unpack = u) :
      Scalar.truncate (Scalar.clampUnit x * Float.ofNat n) =
        (ofUnpacked (Float.Model.pack u).unpack).truncate := by
    change (ofFloat _).truncate = _
    rw [ofFloat_eq_ofUnpacked, ← h]
    rfl
  have hcount := unpack_ofNat hpos (by omega)
  rcases clampUnit_cases x with hnan | ⟨s, hzero⟩ | ⟨v, hv, hx⟩
  · rw [htruncate .notANumber (by rw [hnan, hcount]; rfl)]
    exact .inl rfl
  · rw [htruncate (.zero (s * .positive)) (by rw [hzero, hcount]; rfl)]
    refine .inr ⟨0, Nat.zero_le n, ?_⟩
    cases s <;> rfl
  · obtain ⟨w, hw, hle⟩ := hx.exists_mul hv hpos hn
    exact .inr ⟨_, hle, hw.truncate_eq⟩

/-- Finite doubles from a positive one on are positive. -/
theorem StandsFor.exists_of_le (hy : StandsFor y w) (hle : y ≤ x)
    (hfinite : (ofFloat x).isFinite = true) : ∃ v, StandsFor x v := by
  obtain ⟨m, e, h, hunpack, _⟩ := hy
  rw [Float64.le_iff, hunpack] at hle
  obtain ⟨o, ho, hisLE⟩ := hle
  rw [ofFloat_eq_ofUnpacked] at hfinite
  rcases hx : x.toModel.unpack with s | _ | s | ⟨_ | _, m', e', h'⟩ <;> rw [hx] at ho hfinite
  case finite.positive => exact ⟨_, m', e', h', hx, rfl⟩
  case infinity | notANumber => cases hfinite
  case zero | finite.negative =>
      cases ho
      cases hisLE

/-- A number between one and a natural number has an integer part between them. -/
theorem truncate_count (hfinite : (ofFloat x).isFinite = true) (hone : 1 ≤ x)
    (hle : x ≤ Float.ofNat n) (hpos : 0 < n) (hn : n < 2 ^ 53) :
    ∃ k : ℕ, 0 < k ∧ k ≤ n ∧ Scalar.truncate x = .ok (k : ℤ) := by
  obtain ⟨v, hx⟩ := standsFor_one.exists_of_le hone hfinite
  rw [standsFor_one.le_iff hx] at hone
  rw [hx.le_iff (standsFor_ofNat hpos hn)] at hle
  refine ⟨⌊v⌋₊, ?_, ?_, hx.truncate_eq⟩
  · exact Nat.floor_pos.mpr hone
  · exact Nat.floor_le_of_le hle

end Float64

instance : Scalar.Guarded Float where
  beq_comm x y := by
    rw [Bool.eq_iff_iff, Float64.beq_iff, Float64.beq_iff, Float64.compare_swap]
    cases x.toModel.unpack.compare y.toModel.unpack with
    | none => simp
    | some o => cases o <;> simp
  beq_of_lt h := by
    rw [Float64.beq_eq_false_iff, Float64.lt_iff.mp h]
    exact Option.some_injective _ |>.ne Ordering.noConfusion
  beq_of_not_lt {x y} hx hy hlt hgt := by
    have hsome : ∃ o, x.toModel.unpack.compare y.toModel.unpack = some o := by
      rw [← Option.ne_none_iff_exists', ne_eq, Float64.compare_eq_none_iff, not_or]
      exact ⟨Float64.isNaN_eq_false_iff.mp hx, Float64.isNaN_eq_false_iff.mp hy⟩
    obtain ⟨o, ho⟩ := hsome
    rw [Float64.lt_iff] at hlt hgt
    rw [Float64.compare_swap, ho] at hgt
    rw [Float64.beq_iff, ho]
    rw [ho] at hlt
    cases o with
    | lt => exact absurd rfl hlt
    | eq => rfl
    | gt => exact absurd rfl hgt
  beq_of_sub h := Float64.beq_of_sub h
  truncate_count hfinite hone hle :=
    Float64.truncate_count hfinite hone hle (by decide) (by decide)
  truncate_share hpos hle x :=
    Float64.truncate_share hpos (hle.trans_lt (by decide)) x
  truncate_error {x f} h := by
    change (Binary64.ofFloat x).truncate = .error f at h
    cases hx : Binary64.ofFloat x with
    | nan =>
        rw [hx] at h
        cases h
        exact .inl rfl
    | infinite negative =>
        rw [hx] at h
        cases h
        exact .inr rfl
    | finite negative significand exponent =>
        rw [hx] at h
        cases h
  sin_error h := Float64.angular_error h
  cos_error h := Float64.angular_error h
  pow_error h := Float64.pow_error h

end Easing
