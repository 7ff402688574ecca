import Easing.Proofs.Number.Arithmetic

/-! # Results that are too large

A result that is too large for a double is infinite, and no later operation makes an infinite
or undefined double finite again. Conversely, where the last result is finite, every step
before it was, and each of them is the exact result rounded.
-/

namespace Easing

namespace Float64

open Float.Model Binary64

variable {x y : Float}

/-- The forms of the doubles that are not finite. -/
def Unbounded (u : UnpackedFloat) : Prop := u = .notANumber ∨ ∃ s, u = .infinity s

theorem isFinite_eq_false_iff : Scalar.isFinite x = false ↔ Unbounded x.toModel.unpack := by
  change (ofFloat x).isFinite = false ↔ _
  rw [ofFloat_eq_ofUnpacked]
  rcases x.toModel.unpack with s | _ | s | ⟨s, m, e, h⟩ <;>
    simp [ofUnpacked, Binary64.isFinite, Unbounded]

theorem Unbounded.unpack_pack {u : UnpackedFloat} (h : Unbounded u) :
    Unbounded (Float.Model.pack u).unpack := by
  rcases h with rfl | ⟨_ | _, rfl⟩
  · exact .inl rfl
  · exact .inr ⟨_, rfl⟩
  · exact .inr ⟨_, rfl⟩

theorem Unbounded.add {u v : UnpackedFloat} (h : Unbounded u ∨ Unbounded v) :
    Unbounded (UnpackedFloat.add Format.binary64 u v) := by
  rcases u with s | _ | s | ⟨s, m, e, hm⟩ <;> rcases v with s' | _ | s' | ⟨s', m', e', hm'⟩
  case infinity.infinity =>
    simp only [UnpackedFloat.add]
    split
    · exact .inr ⟨_, rfl⟩
    · exact .inl rfl
  all_goals simp_all [Unbounded, UnpackedFloat.add]

theorem Unbounded.sub {u v : UnpackedFloat} (h : Unbounded u ∨ Unbounded v) :
    Unbounded (UnpackedFloat.sub Format.binary64 u v) := by
  rcases u with s | _ | s | ⟨s, m, e, hm⟩ <;> rcases v with s' | _ | s' | ⟨s', m', e', hm'⟩
  case infinity.infinity =>
    simp only [UnpackedFloat.sub]
    split
    · exact .inr ⟨_, rfl⟩
    · exact .inl rfl
  all_goals simp_all [Unbounded, UnpackedFloat.sub]

theorem Unbounded.mul {u v : UnpackedFloat} (h : Unbounded u ∨ Unbounded v) :
    Unbounded (UnpackedFloat.mul Format.binary64 u v) := by
  rcases u with s | _ | s | ⟨s, m, e, hm⟩ <;>
    rcases v with s' | _ | s' | ⟨s', m', e', hm'⟩ <;>
    simp_all [Unbounded, UnpackedFloat.mul]

theorem Unbounded.div {u : UnpackedFloat} (h : Unbounded u) (v : UnpackedFloat) :
    Unbounded (UnpackedFloat.div Format.binary64 u v) := by
  rcases u with s | _ | s | ⟨s, m, e, hm⟩ <;>
    rcases v with s' | _ | s' | ⟨s', m', e', hm'⟩ <;>
    simp_all [Unbounded, UnpackedFloat.div]

/-- A difference is not finite if one of its operands is not. -/
theorem isFinite_sub (h : Scalar.isFinite x = false ∨ Scalar.isFinite y = false) :
    Scalar.isFinite (x - y) = false := by
  rw [isFinite_eq_false_iff, isFinite_eq_false_iff] at h
  rw [isFinite_eq_false_iff]
  exact (Unbounded.sub h).unpack_pack

/-- A sum is not finite if one of its operands is not. -/
theorem isFinite_add (h : Scalar.isFinite x = false ∨ Scalar.isFinite y = false) :
    Scalar.isFinite (x + y) = false := by
  rw [isFinite_eq_false_iff, isFinite_eq_false_iff] at h
  rw [isFinite_eq_false_iff]
  exact (Unbounded.add h).unpack_pack

/-- A product is not finite if one of its operands is not. -/
theorem isFinite_mul (h : Scalar.isFinite x = false ∨ Scalar.isFinite y = false) :
    Scalar.isFinite (x * y) = false := by
  rw [isFinite_eq_false_iff, isFinite_eq_false_iff] at h
  rw [isFinite_eq_false_iff]
  exact (Unbounded.mul h).unpack_pack

/-- A quotient is not finite if its dividend is not. -/
theorem isFinite_div (h : Scalar.isFinite x = false) (y : Float) :
    Scalar.isFinite (x / y) = false := by
  rw [isFinite_eq_false_iff] at h ⊢
  exact (h.div y.toModel.unpack).unpack_pack

end Float64

namespace Binary64

open Float.Model Float.Model.UnpackedFloat Float64

variable {M n : ℕ} {E t : ℤ} {v w : ℚ} {accuracy : Accuracy} {a b : UnpackedFloat}

/-! ## Rounding -/

/-- A number that would become a double only with a greater exponent than there is. -/
def TooLarge (v : ℚ) : Prop := ∃ m e, Canonical m e ∧ 971 < e ∧ ReadsBack m e v

theorem nearest_or_tooLarge (hv : 0 ≤ v) : (∃ w, Nearest v w) ∨ TooLarge v := by
  rcases le_or_gt v (2 ^ (-1075 : ℤ)) with htiny | hpos
  · exact .inl ⟨0, .zero hv htiny⟩
  · obtain ⟨m, e, hc, h⟩ := exists_readsBack_of_half_lt hpos
    rcases le_or_gt e 971 with hle | hgt
    · exact .inl ⟨_, .finite hc hle h⟩
    · exact .inr ⟨m, e, hc, hgt, h⟩

/-- The least number that is too large, halfway from the greatest double to where the next one
would be. -/
def limit : ℚ := (2 ^ 53 - 1 / 2) * 2 ^ (971 : ℤ)

theorem TooLarge.limit_le (h : TooLarge v) : limit ≤ v := by
  obtain ⟨m, e, hc, he, hread⟩ := h
  have hquarter := hread.quarter_le (hc.normal (by omega)) (by omega)
  rw [le_div_iff₀ (by positivity)] at hquarter
  calc limit = (2 ^ 52 - 1 / 4) * 2 ^ (971 + 1 : ℤ) := by
        rw [limit, zpow_add_one₀ two_ne_zero]
        ring
    _ ≤ (2 ^ 52 - 1 / 4) * 2 ^ e := by
        gcongr
        · norm_num
        · omega
    _ ≤ v := hquarter

theorem Nearest.lt_limit (h : Nearest v w) : v < limit := by
  have hpower : (2 : ℚ) ^ (970 + 53 : ℤ) < limit := by
    rw [limit, show (970 + 53 : ℤ) = 52 + 971 by norm_num, zpow_add₀ two_ne_zero]
    gcongr
    norm_num
  have hle {k : ℤ} (hk : k ≤ 970 + 53) : (2 : ℚ) ^ k < limit :=
    (zpow_le_zpow_right₀ one_le_two hk).trans_lt hpower
  cases h with
  | zero _ hhigh => exact hhigh.trans_lt (hle (by norm_num))
  | @finite m e hc he hread =>
      rcases he.lt_or_eq with hlt | rfl
      · exact (hread.lt hc).trans (hle (by omega))
      · rw [limit, ← div_lt_iff₀ (by positivity)]
        have hm := hc.lt
        -- The greatest significand is odd, so halfway above it is rounded upwards.
        rcases Nat.lt_or_ge m (2 ^ 53 - 1) with hless | hgreatest
        · have hm : (m : ℚ) + 2 ≤ 2 ^ 53 := by exact_mod_cast (by omega : m + 2 ≤ 2 ^ 53)
          linarith [hread.le]
        · obtain rfl : m = 2 ^ 53 - 1 := by omega
          have hhalf := (hread.lt_of_odd (by norm_num)).2
          rw [Nat.cast_sub (by norm_num)] at hhalf
          generalize v / (2 : ℚ) ^ (971 : ℤ) = q at hhalf ⊢
          push_cast at hhalf
          linarith

/-- The numbers below the limit are rounded to doubles, and no others are. -/
theorem exists_roundsTo_iff : (∃ w, RoundsTo v w) ↔ |v| < limit := by
  constructor
  · rintro ⟨w, s, u, b, h, rfl, rfl⟩
    rw [abs_signed, abs_of_nonneg h.nonneg]
    exact h.lt_limit
  · intro hlt
    obtain ⟨w, hw⟩ : ∃ w, Nearest |v| w :=
      (nearest_or_tooLarge (abs_nonneg v)).resolve_right fun hlarge => hlarge.limit_le.not_gt hlt
    rcases le_total 0 v with hpos | hneg
    · rw [abs_of_nonneg hpos] at hw
      exact ⟨w, hw.roundsTo .positive⟩
    · rw [abs_of_nonpos hneg] at hw
      refine ⟨-w, ?_⟩
      have hsigned := (hw.roundsTo .positive).neg
      rwa [signed, signed, neg_neg] at hsigned

namespace TooLarge

theorem roundWithAccuracy (h : TooLarge v)
    (hdescribes : Describes (.ofMantissaAndAccuracy M accuracy) (v / 2 ^ E))
    (hE : E ≤ max (M.log2 + E - 52) (-1074)) (s : Sign) :
    (Float.Model.pack
      (UnpackedFloat.roundWithAccuracy Format.binary64 s M E accuracy)).unpack = .infinity s := by
  obtain ⟨m, e, hc, he, hread⟩ := h
  rw [roundWithAccuracy_eq hc hread hdescribes hE, unpack_pack_of_lt hc he]

theorem round (hn : n ≠ 0) (h : TooLarge (n * 2 ^ t)) (s : Sign) :
    (Float.Model.pack (UnpackedFloat.round Format.binary64 s n t)).unpack = .infinity s := by
  obtain ⟨M, E, hround, hdescribes, hE⟩ := exists_round_eq hn t s
  rw [hround]
  exact h.roundWithAccuracy hdescribes hE s

end TooLarge

/-- An integer with an exponent is rounded to a finite form unless it is too large. -/
theorem normalize_cases (k : ℤ) (t : ℤ) (zero : Sign) :
    (∃ w, RoundsTo (k * 2 ^ t) w) ∨ ∃ s, (Float.Model.pack
      (UnpackedFloat.normalize Format.binary64 k t zero)).unpack = .infinity s := by
  have hround (m : ℕ) (hm : m ≠ 0) (s : Sign) :
      (∃ w, RoundsTo (signed s (m * 2 ^ t)) w) ∨
        (Float.Model.pack (UnpackedFloat.round Format.binary64 s m t)).unpack = .infinity s := by
    rcases nearest_or_tooLarge (show 0 ≤ (m : ℚ) * 2 ^ t by positivity) with ⟨w, hw⟩ | hlarge
    · exact .inl ⟨_, hw.roundsTo s⟩
    · exact .inr (hlarge.round hm s)
  unfold UnpackedFloat.normalize
  rcases lt_trichotomy k 0 with hneg | rfl | hpos
  · rw [Int.compare_eq_lt.mpr hneg]
    have hcast : (((-k).toNat : ℕ) : ℚ) = -k := by
      exact_mod_cast Int.toNat_of_nonneg (neg_nonneg.mpr hneg.le)
    have hrounded := hround (-k).toNat (by omega) .negative
    rw [hcast, signed, neg_mul, neg_neg] at hrounded
    exact hrounded.imp_right fun h => ⟨_, h⟩
  · exact .inl ⟨_, by rw [Int.cast_zero, zero_mul]; exact Nearest.of_zero.roundsTo .positive⟩
  · rw [Int.compare_eq_gt.mpr hpos]
    have hcast : ((k.toNat : ℕ) : ℚ) = k := by
      exact_mod_cast Int.toNat_of_nonneg hpos.le
    have hrounded := hround k.toNat (by omega) .positive
    rw [hcast, signed] at hrounded
    exact hrounded.imp_right fun h => ⟨_, h⟩

theorem exists_roundsTo_of_normalize {k : ℤ} {zero : Sign}
    (h : ¬ Unbounded (Float.Model.pack
      (UnpackedFloat.normalize Format.binary64 k t zero)).unpack) :
    ∃ w, RoundsTo (k * 2 ^ t) w :=
  (normalize_cases k t zero).resolve_right fun hinfinite => h (.inr hinfinite)

namespace Denotes

theorem exists_roundsTo_add (ha : Denotes a v) (hb : Denotes b w)
    (h : ¬ Unbounded (Float.Model.pack (UnpackedFloat.add Format.binary64 a b)).unpack) :
    ∃ u, RoundsTo (v + w) u := by
  cases ha with
  | zero s => exact ⟨w, by rw [zero_add]; exact hb.roundsTo⟩
  | @finite s m e hc he =>
      cases hb with
      | zero s' => exact ⟨_, by rw [add_zero]; exact (Denotes.finite s hc he).roundsTo⟩
      | @finite s' m' e' hc' he' =>
          rw [← cast_apply_decreaseExponent s m (min_le_left e e'),
            ← cast_apply_decreaseExponent s' m' (min_le_right e e'), ← add_mul, ← Int.cast_add]
          exact exists_roundsTo_of_normalize h

/-- A difference of finite forms is rounded to a finite form unless it is too large. -/
theorem sub_cases (ha : Denotes a v) (hb : Denotes b w) :
    (∃ u, RoundsTo (v - w) u) ∨
      ∃ s, (Float.Model.pack (UnpackedFloat.sub Format.binary64 a b)).unpack = .infinity s := by
  cases ha with
  | zero s => exact .inl ⟨-w, by rw [zero_sub]; exact hb.neg.roundsTo⟩
  | @finite s m e hc he =>
      cases hb with
      | zero s' => exact .inl ⟨_, by rw [sub_zero]; exact (Denotes.finite s hc he).roundsTo⟩
      | @finite s' m' e' hc' he' =>
          rw [← cast_apply_decreaseExponent s m (min_le_left e e'),
            ← cast_apply_decreaseExponent s' m' (min_le_right e e'), ← sub_mul, ← Int.cast_sub]
          exact normalize_cases _ _ .positive

theorem exists_roundsTo_sub (ha : Denotes a v) (hb : Denotes b w)
    (h : ¬ Unbounded (Float.Model.pack (UnpackedFloat.sub Format.binary64 a b)).unpack) :
    ∃ u, RoundsTo (v - w) u :=
  (ha.sub_cases hb).resolve_right fun hinfinite => h (.inr hinfinite)

theorem exists_roundsTo_mul (ha : Denotes a v) (hb : Denotes b w)
    (h : ¬ Unbounded (Float.Model.pack (UnpackedFloat.mul Format.binary64 a b)).unpack) :
    ∃ u, RoundsTo (v * w) u := by
  cases ha with
  | zero s => exact ⟨0, by rw [zero_mul]; exact Nearest.of_zero.roundsTo .positive⟩
  | @finite s m e hc he =>
      cases hb with
      | zero s' => exact ⟨0, by rw [mul_zero]; exact Nearest.of_zero.roundsTo .positive⟩
      | @finite s' m' e' hc' he' =>
          rw [← signed_mul]
          rcases nearest_or_tooLarge
            (show 0 ≤ (m : ℚ) * 2 ^ e * (m' * 2 ^ e') by positivity) with ⟨u, hu⟩ | hlarge
          · exact ⟨_, hu.roundsTo (s * s')⟩
          · exact absurd (.inr ⟨_, hlarge.roundWithAccuracy (describes_mul m m' e e')
              (hc.mul_exponent_le hc') (s * s')⟩) h

theorem exists_roundsTo_div (ha : Denotes a v) (hb : Denotes b w) (hw : w ≠ 0)
    (h : ¬ Unbounded (Float.Model.pack (UnpackedFloat.div Format.binary64 a b)).unpack) :
    ∃ u, RoundsTo (v / w) u := by
  cases hb with
  | zero s' => exact absurd rfl hw
  | @finite s' m' e' hc' he' =>
      cases ha with
      | zero s => exact ⟨0, by rw [zero_div]; exact Nearest.of_zero.roundsTo .positive⟩
      | @finite s m e hc he =>
          obtain ⟨M, E, accuracy, hdiv, hdescribes, hE⟩ :=
            exists_div_eq s s' e e' hc.pos hc'.pos
          rw [hdiv] at h
          rw [← signed_div]
          rcases nearest_or_tooLarge
            (show 0 ≤ (m : ℚ) * 2 ^ e / (m' * 2 ^ e') by positivity) with ⟨u, hu⟩ | hlarge
          · exact ⟨_, hu.roundsTo (s / s')⟩
          · exact absurd (.inr ⟨_, hlarge.roundWithAccuracy hdescribes hE (s / s')⟩) h

end Denotes

end Binary64

namespace Float64

open Binary64

variable {x y : Float} {v w : ℚ}

/-! ## Finite results -/

theorem not_unbounded_iff : ¬ Unbounded x.toModel.unpack ↔ ∃ v, Value x v := by
  rw [← isFinite_eq_false_iff, Bool.not_eq_false, isFinite_iff]

/-- A finite result has finite operands, if one that is not would show. -/
theorem exists_operands {z : Float} (hz : Scalar.isFinite z = true)
    (h : Unbounded x.toModel.unpack ∨ Unbounded y.toModel.unpack → Unbounded z.toModel.unpack) :
    ∃ v w, Value x v ∧ Value y w := by
  have hresult := not_unbounded_iff.mpr (isFinite_iff.mp hz)
  obtain ⟨v, hv⟩ := not_unbounded_iff.mp fun hx => hresult (h (.inl hx))
  obtain ⟨w, hw⟩ := not_unbounded_iff.mp fun hy => hresult (h (.inr hy))
  exact ⟨v, w, hv, hw⟩

/-- A finite sum is the exact sum of finite operands, rounded. -/
theorem exists_of_isFinite_add (h : Scalar.isFinite (x + y) = true) :
    ∃ v w u, Value x v ∧ Value y w ∧ RoundsTo (v + w) u ∧ Value (x + y) u := by
  obtain ⟨v, w, hv, hw⟩ := exists_operands h fun hxy => (Unbounded.add hxy).unpack_pack
  obtain ⟨u, hu⟩ :=
    Denotes.exists_roundsTo_add hv hw (not_unbounded_iff.mpr (isFinite_iff.mp h))
  exact ⟨v, w, u, hv, hw, hu, .of_pack (Denotes.add hv hw hu)⟩

/-- A finite difference is the exact difference of finite operands, rounded. -/
theorem exists_of_isFinite_sub (h : Scalar.isFinite (x - y) = true) :
    ∃ v w u, Value x v ∧ Value y w ∧ RoundsTo (v - w) u ∧ Value (x - y) u := by
  obtain ⟨v, w, hv, hw⟩ := exists_operands h fun hxy => (Unbounded.sub hxy).unpack_pack
  obtain ⟨u, hu⟩ :=
    Denotes.exists_roundsTo_sub hv hw (not_unbounded_iff.mpr (isFinite_iff.mp h))
  exact ⟨v, w, u, hv, hw, hu, .of_pack (Denotes.sub hv hw hu)⟩

/-- A finite product is the exact product of finite operands, rounded. -/
theorem exists_of_isFinite_mul (h : Scalar.isFinite (x * y) = true) :
    ∃ v w u, Value x v ∧ Value y w ∧ RoundsTo (v * w) u ∧ Value (x * y) u := by
  obtain ⟨v, w, hv, hw⟩ := exists_operands h fun hxy => (Unbounded.mul hxy).unpack_pack
  obtain ⟨u, hu⟩ :=
    Denotes.exists_roundsTo_mul hv hw (not_unbounded_iff.mpr (isFinite_iff.mp h))
  exact ⟨v, w, u, hv, hw, hu, .of_pack (Denotes.mul hv hw hu)⟩

/-- A finite quotient by a finite number is the exact quotient of a finite dividend, rounded. -/
theorem exists_of_isFinite_div (hy : Value y w) (hw : w ≠ 0)
    (h : Scalar.isFinite (x / y) = true) :
    ∃ v u, Value x v ∧ RoundsTo (v / w) u ∧ Value (x / y) u := by
  have hresult := not_unbounded_iff.mpr (isFinite_iff.mp h)
  obtain ⟨v, hv⟩ := not_unbounded_iff.mp fun hx => hresult (hx.div _).unpack_pack
  obtain ⟨u, hu⟩ := Denotes.exists_roundsTo_div hv hy hw hresult
  exact ⟨v, u, hv, hu, .of_pack (Denotes.div hv hy hw hu)⟩

/-! ## Infinite doubles -/

def Infinite (x : Float) : Prop := ∃ s, x.toModel.unpack = .infinity s

/-- A difference of finite doubles is the exact one, rounded, or infinite. -/
theorem Value.sub_cases (hx : Value x v) (hy : Value y w) :
    (∃ u, RoundsTo (v - w) u ∧ Value (x - y) u) ∨ Infinite (x - y) :=
  (Denotes.sub_cases hx hy).imp (fun ⟨u, hu⟩ => ⟨u, hu, .of_pack (Denotes.sub hx hy hu)⟩) id

/-- Divided by an infinite double, a finite one becomes zero. -/
theorem Value.div_infinite (hx : Value x v) (hy : Infinite y) : Value (x / y) 0 := by
  obtain ⟨s', hy⟩ := hy
  have hzero : ∃ s, Float.Model.UnpackedFloat.div Float.Model.Format.binary64 x.toModel.unpack
      y.toModel.unpack = .zero s := by
    rw [hy]
    unfold Value at hx
    generalize x.toModel.unpack = a at hx
    cases hx with
    | zero s => exact ⟨s / s', rfl⟩
    | finite s hc he => exact ⟨s / s', rfl⟩
  obtain ⟨s, hs⟩ := hzero
  have hvalue : Value (.ofModel (.pack (.zero s))) 0 := .of_pack (.zero s)
  rw [← hs] at hvalue
  exact hvalue

theorem Infinite.isFinite (h : Infinite x) : Scalar.isFinite x = false :=
  isFinite_eq_false_iff.mpr (.inr h)

/-- Divided by an infinite double, an infinite one becomes undefined. -/
theorem Infinite.isNaN_div (hx : Infinite x) (hy : Infinite y) : Scalar.isNaN (x / y) = true := by
  obtain ⟨s, hx⟩ := hx
  obtain ⟨s', hy⟩ := hy
  rw [← Bool.not_eq_false, isNaN_eq_false_iff, not_not]
  change (Float.Model.pack (Float.Model.UnpackedFloat.div Float.Model.Format.binary64
    x.toModel.unpack y.toModel.unpack)).unpack = _
  rw [hx, hy]
  exact unpack_pack_notANumber

end Float64

end Easing
