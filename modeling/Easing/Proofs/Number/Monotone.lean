import Easing.Proofs.Number.Guards
import Easing.Proofs.Number.Rounded

/-! # Rounding keeps the order

A number is rounded to the double that it becomes. Up to half the least double nothing is
left but zero, and beyond the greatest double there is nothing to become. In between a
greater number never becomes a smaller double: halfway between two doubles a number becomes
the even one, and neighbours are never both even.
-/

namespace Easing.Binary64

open Float.Model Float.Model.UnpackedFloat

variable {m m' : ℕ} {e e' : ℤ} {v v' w w' : ℚ} {s : Sign} {a b : UnpackedFloat}

/-! ## Ties -/

/-- Half the least double. -/
theorem half_least_lt_iff : 2 ^ (-1075 : ℤ) < v ↔ 1 / 2 < v / 2 ^ (-1074 : ℤ) := by
  rw [lt_div_iff₀ (by positivity), show (-1075 : ℤ) = -1 + -1074 by norm_num,
    zpow_add₀ two_ne_zero, zpow_neg_one, one_div]

namespace ReadsBack

/-- Halfway to a neighbour, a number does not become an odd double. -/
theorem lt_of_odd (h : ReadsBack m e v) (hodd : m % 2 = 1) :
    (m : ℚ) - 1 / 2 < v / 2 ^ e ∧ v / 2 ^ e < m + 1 / 2 := by
  unfold ReadsBack at h
  split at h
  next hnarrow =>
    rw [hnarrow.1] at hodd
    norm_num at hodd
  next =>
    rwa [Rounds, if_neg (by omega)] at h

/-- Below a power of two the double before is only half as far away. -/
theorem quarter_le (h : ReadsBack m e v) (hm : 2 ^ 52 ≤ m) (he : -1074 < e) :
    (2 : ℚ) ^ 52 - 1 / 4 ≤ v / 2 ^ e := by
  unfold ReadsBack at h
  split at h
  next hnarrow =>
    rw [hnarrow.1] at h
    exact_mod_cast h.1
  next hwide =>
    have hlt : 2 ^ 52 + 1 ≤ m := lt_of_le_of_ne hm fun heq => hwide ⟨heq.symm, he⟩
    have hlt : (2 : ℚ) ^ 52 + 1 ≤ m := by exact_mod_cast hlt
    linarith [h.le.1]

/-- A greater number does not become a smaller double. -/
theorem mono (h : ReadsBack m e v) (hc : Canonical m e) (h' : ReadsBack m' e' v')
    (hc' : Canonical m' e') (hv : v ≤ v') : (m : ℚ) * 2 ^ e ≤ m' * 2 ^ e' := by
  by_contra hlt
  rw [not_le] at hlt
  have hhigh := h'.le
  rcases lt_trichotomy e e' with hbelow | rfl | habove
  · exact (hc.lt_of_exponent_lt hc' hbelow).asymm hlt
  · have hm : m' < m := by
      have hlt := lt_of_mul_lt_mul_right hlt (by positivity)
      exact_mod_cast hlt
    have hquotient : v / 2 ^ e ≤ v' / 2 ^ e := by gcongr
    have hlow := h.sub_half_le
    have hstep : (m' : ℚ) + 1 ≤ m := by exact_mod_cast hm
    -- Of two neighbours one is odd.
    rcases (show m % 2 = 1 ∨ m' % 2 = 1 ∨ m' + 2 ≤ m by omega) with hodd | hodd | hfar
    · linarith [(h.lt_of_odd hodd).1]
    · linarith [(h'.lt_of_odd hodd).2]
    · have hfar : (m' : ℚ) + 2 ≤ m := by exact_mod_cast hfar
      linarith
  · have hleast := hc'.least.trans_lt habove
    have hlow := h.quarter_le (hc.normal hleast) hleast
    have hv' : 0 ≤ v' := le_trans (by positivity) ((h.ge hc).trans hv)
    have hpower : (2 : ℚ) ^ e' ≤ 2 ^ (e - 1) := zpow_le_zpow_right₀ one_le_two (by omega)
    have hdouble : 2 * (v / 2 ^ e) ≤ v' / 2 ^ e' :=
      calc 2 * (v / 2 ^ e) = v / 2 ^ (e - 1) := by
            rw [zpow_sub_one₀ two_ne_zero]
            field_simp
        _ ≤ v' / 2 ^ (e - 1) := by gcongr
        _ ≤ v' / 2 ^ e' := by gcongr
    have hm' := hc'.lt
    have hstep : (m' : ℚ) + 1 ≤ 2 ^ 53 := by exact_mod_cast hm'
    -- The last double before a power of two is odd.
    rcases (show m' % 2 = 1 ∨ m' + 2 ≤ 2 ^ 53 by omega) with hodd | hfar
    · linarith [(h'.lt_of_odd hodd).2]
    · have hfar : (m' : ℚ) + 2 ≤ 2 ^ 53 := by exact_mod_cast hfar
      linarith

/-- What becomes a double is more than half the least one. -/
theorem half_lt (h : ReadsBack m e v) (hc : Canonical m e) : 2 ^ (-1075 : ℤ) < v := by
  rcases hc.least.eq_or_lt with rfl | hlt
  · rw [half_least_lt_iff]
    have hpos := hc.pos
    have hone : (1 : ℚ) ≤ m := by exact_mod_cast hpos
    rcases (show m % 2 = 1 ∨ 2 ≤ m by omega) with hodd | hfar
    · linarith only [(h.lt_of_odd hodd).1, hone]
    · have hfar : (2 : ℚ) ≤ m := by exact_mod_cast hfar
      linarith only [h.sub_half_le, hfar]
  · exact (zpow_lt_zpow_right₀ one_lt_two (by omega)).trans_le (h.ge hc)

end ReadsBack

/-- Every number becomes a double, if it is more than half the least one. -/
theorem exists_readsBack_of_half_lt (hv : 2 ^ (-1075 : ℤ) < v) :
    ∃ m e, Canonical m e ∧ ReadsBack m e v := by
  rcases le_or_gt (2 ^ (-1074 : ℤ)) v with hge | hlt
  · exact exists_readsBack hge
  -- Between half the least double and the least one.
  · refine ⟨1, -1074, ⟨one_pos, by norm_num, le_rfl, fun h => absurd h (lt_irrefl _)⟩, ?_⟩
    have hlow : 1 / 2 < v / 2 ^ (-1074 : ℤ) := half_least_lt_iff.mp hv
    have hhigh : v / 2 ^ (-1074 : ℤ) < 1 := by
      rwa [div_lt_one (by positivity)]
    rw [ReadsBack, if_neg (by norm_num), Rounds, if_neg (by norm_num), Nat.cast_one]
    generalize v / 2 ^ (-1074 : ℤ) = q at hlow hhigh
    constructor <;> linarith

/-! ## Rounding -/

/-- A number that is not negative and what it is rounded to. -/
inductive Nearest : ℚ → ℚ → Prop
  | zero {v : ℚ} (hlow : 0 ≤ v) (hhigh : v ≤ 2 ^ (-1075 : ℤ)) : Nearest v 0
  | finite {v : ℚ} {m : ℕ} {e : ℤ} (hc : Canonical m e) (he : e ≤ 971) (h : ReadsBack m e v) :
      Nearest v (m * 2 ^ e)

namespace Nearest

theorem nonneg (h : Nearest v w) : 0 ≤ v := by
  cases h with
  | zero hlow _ => exact hlow
  | finite hc he h => exact le_trans (by positivity) (h.ge hc)

theorem value_nonneg (h : Nearest v w) : 0 ≤ w := by
  cases h with
  | zero _ _ => exact le_rfl
  | finite hc he h => exact hc.value_pos.le

theorem mono (h : Nearest v w) (h' : Nearest v' w') (hv : v ≤ v') : w ≤ w' := by
  cases h with
  | zero _ _ => exact h'.value_nonneg
  | finite hc he h =>
      cases h' with
      | zero _ hhigh => exact absurd (h.half_lt hc) (hv.trans hhigh).not_gt
      | finite hc' he' h' => exact h.mono hc h' hc' hv

/-- Zero is not rounded. -/
theorem of_zero : Nearest 0 0 := .zero le_rfl (by positivity)

theorem eq_zero (h : Nearest 0 w) : w = 0 := le_antisymm (h.mono of_zero le_rfl) h.value_nonneg

/-- Doubles are not rounded. -/
theorem self (hc : Canonical m e) (he : e ≤ 971) : Nearest (m * 2 ^ e) (m * 2 ^ e) :=
  .finite hc he (.self m e)

/-- What is at most a number that is rounded is rounded. -/
theorem exists_le (h : Nearest v w) (hv' : 0 ≤ v') (hle : v' ≤ v) : ∃ w', Nearest v' w' := by
  rcases le_or_gt v' (2 ^ (-1075 : ℤ)) with htiny | hpos
  · exact ⟨0, .zero hv' htiny⟩
  · obtain ⟨m', e', hc', h'⟩ := exists_readsBack_of_half_lt hpos
    refine ⟨m' * 2 ^ e', .finite hc' ?_ h'⟩
    cases h with
    | zero _ hhigh => exact absurd (hpos.trans_le hle) hhigh.not_gt
    | finite hc he h =>
        by_contra hgt
        have hlt := hc.lt_of_exponent_lt hc' (he.trans_lt (not_le.mp hgt))
        exact absurd hlt (h'.mono hc' h hc hle).not_gt

end Nearest

/-- A number and what it is rounded to. The sign does not matter. -/
def RoundsTo (v w : ℚ) : Prop := ∃ s u b, Nearest u b ∧ v = signed s u ∧ w = signed s b

theorem Nearest.roundsTo (h : Nearest v w) (s : Sign) : RoundsTo (signed s v) (signed s w) :=
  ⟨s, v, w, h, rfl, rfl⟩

namespace RoundsTo

theorem neg (h : RoundsTo v w) : RoundsTo (-v) (-w) := by
  obtain ⟨s, u, b, h, rfl, rfl⟩ := h
  rw [← signed_neg, ← signed_neg]
  exact h.roundsTo (-s)

/-- Numbers that are not negative are rounded to such numbers. -/
theorem nearest (h : RoundsTo v w) (hv : 0 ≤ v) : Nearest v w := by
  obtain ⟨s, u, b, h, rfl, rfl⟩ := h
  cases s with
  | positive => exact h
  | negative =>
      obtain rfl : u = 0 := le_antisymm (neg_nonneg.mp hv) h.nonneg
      obtain rfl := h.eq_zero
      rw [signed_zero]
      exact h

theorem exists_of_signed (h : RoundsTo (signed s v) w) (hv : 0 ≤ v) :
    ∃ b, Nearest v b ∧ w = signed s b := by
  cases s with
  | positive => exact ⟨w, h.nearest hv, rfl⟩
  | negative =>
      refine ⟨-w, ?_, (neg_neg w).symm⟩
      have hneg := h.neg
      rw [signed, neg_neg] at hneg
      exact hneg.nearest hv

theorem mono (h : RoundsTo v w) (h' : RoundsTo v' w') (hv : v ≤ v') : w ≤ w' := by
  rcases le_total 0 v with hpos | hneg
  · exact (h.nearest hpos).mono (h'.nearest (hpos.trans hv)) hv
  · have hw := (h.neg.nearest (neg_nonneg.mpr hneg)).value_nonneg
    rcases le_total 0 v' with hpos' | hneg'
    · have hw' := (h'.nearest hpos').value_nonneg
      linarith
    · have hle := (h'.neg.nearest (neg_nonneg.mpr hneg')).mono (h.neg.nearest (neg_nonneg.mpr hneg))
        (neg_le_neg hv)
      linarith

theorem eq (h : RoundsTo v w) (h' : RoundsTo v w') : w = w' :=
  le_antisymm (h.mono h' le_rfl) (h'.mono h le_rfl)

/-- What lies between numbers that are rounded is rounded. -/
theorem exists_between {u : ℚ} (h : RoundsTo v w) (h' : RoundsTo v' w') (hlow : v ≤ u)
    (hhigh : u ≤ v') : ∃ b, RoundsTo u b := by
  rcases le_total 0 u with hpos | hneg
  · obtain ⟨b, hb⟩ := (h'.nearest (hpos.trans hhigh)).exists_le hpos hhigh
    exact ⟨b, hb.roundsTo .positive⟩
  · have hv := h.neg.nearest (neg_nonneg.mpr (hlow.trans hneg))
    obtain ⟨b, hb⟩ := hv.exists_le (neg_nonneg.mpr hneg) (neg_le_neg hlow)
    refine ⟨-b, ?_⟩
    have hneg := (hb.roundsTo .positive).neg
    rwa [signed, neg_neg] at hneg

end RoundsTo

theorem Denotes.roundsTo (h : Denotes a v) : RoundsTo v v := by
  cases h with
  | zero s => exact Nearest.of_zero.roundsTo .positive
  | finite s hc he => exact (Nearest.self hc he).roundsTo s

/-! ## Differences -/

/-- All doubles are multiples of the least one. -/
theorem Denotes.exists_multiple (h : Denotes a v) : ∃ k : ℤ, v = k * 2 ^ (-1074 : ℤ) := by
  cases h with
  | zero s =>
      refine ⟨0, ?_⟩
      rw [Int.cast_zero, zero_mul]
  | @finite s m e hc he =>
      obtain ⟨n, hn⟩ : ∃ n : ℕ, e = n + -1074 := ⟨(e + 1074).toNat, by have := hc.least; omega⟩
      have hvalue : (m : ℚ) * 2 ^ e = (m * 2 ^ n : ℕ) * 2 ^ (-1074 : ℤ) := by
        rw [hn, zpow_add₀ two_ne_zero, zpow_natCast, Nat.cast_mul, Nat.cast_pow, Nat.cast_ofNat,
          mul_assoc]
      refine ⟨s.apply (m * 2 ^ n : ℕ), ?_⟩
      rw [hvalue]
      cases s with
      | positive => rfl
      | negative =>
          rw [Sign.apply, Int.cast_neg, neg_mul]
          rfl

/-- A difference is at least the least double, so it is not rounded to zero. -/
theorem RoundsTo.ne_zero_of_sub {u : ℚ} (ha : Denotes a v) (hb : Denotes b w) (hne : v ≠ w)
    (h : RoundsTo (v - w) u) : u ≠ 0 := by
  obtain ⟨k, rfl⟩ := ha.exists_multiple
  obtain ⟨k', rfl⟩ := hb.exists_multiple
  obtain ⟨s, x, y, hnearest, hx, rfl⟩ := h
  have hdifference : (1 : ℚ) ≤ |(k : ℚ) - k'| := by
    have hsub : k - k' ≠ 0 := sub_ne_zero.mpr fun heq => hne (by rw [heq])
    exact_mod_cast Int.one_le_abs hsub
  have hmagnitude : x = |(k : ℚ) - k'| * 2 ^ (-1074 : ℤ) := by
    have hpos : (0 : ℚ) < 2 ^ (-1074 : ℤ) := by positivity
    rw [← abs_of_pos hpos, ← abs_mul, sub_mul, hx, abs_signed, abs_of_nonneg hnearest.nonneg]
  cases hnearest with
  | zero _ hhigh =>
      have hleast : (2 : ℚ) ^ (-1074 : ℤ) ≤ x := by
        rw [hmagnitude]
        exact le_mul_of_one_le_left (by positivity) hdifference
      have hhalf : (2 : ℚ) ^ (-1075 : ℤ) < 2 ^ (-1074 : ℤ) :=
        zpow_lt_zpow_right₀ one_lt_two (by norm_num)
      exact absurd (hleast.trans hhigh) hhalf.not_ge
  | finite hc he _ =>
      cases s with
      | positive => exact hc.value_pos.ne'
      | negative => exact neg_ne_zero.mpr hc.value_pos.ne'

/-! ## The greatest double -/

theorem canonical_greatest : Canonical (2 ^ 53 - 1) 971 :=
  ⟨by norm_num, by norm_num, by norm_num, fun _ => by norm_num⟩

theorem Denotes.abs_le_greatest (h : Denotes a v) : |v| ≤ (2 ^ 53 - 1 : ℕ) * 2 ^ (971 : ℤ) := by
  cases h with
  | zero s =>
      rw [abs_zero]
      exact canonical_greatest.value_pos.le
  | @finite s m e hc he =>
      rw [abs_signed, abs_of_pos hc.value_pos]
      have hm : m ≤ 2 ^ 53 - 1 := Nat.le_sub_one_of_lt hc.lt
      have hpower : (2 : ℚ) ^ e ≤ 2 ^ (971 : ℤ) := zpow_le_zpow_right₀ one_le_two he
      gcongr

theorem exists_roundsTo_of_abs_le (h : |v| ≤ (2 ^ 53 - 1 : ℕ) * 2 ^ (971 : ℤ)) :
    ∃ w, RoundsTo v w := by
  obtain ⟨hlow, hhigh⟩ := abs_le.mp h
  have hself := Nearest.self canonical_greatest le_rfl
  exact (hself.roundsTo .negative).exists_between (hself.roundsTo .positive) hlow hhigh

/-- One more than the greatest double is rounded to it. -/
theorem Denotes.exists_add_one (h : Denotes a v) : ∃ w, RoundsTo (v + 1) w := by
  have hread : ReadsBack (2 ^ 53 - 1) 971 ((2 ^ 53 - 1 : ℕ) * 2 ^ (971 : ℤ) + 1) := by
    have hpos : (0 : ℚ) < 2 ^ (971 : ℤ) := by positivity
    have htwo : (2 : ℚ) < 2 ^ (971 : ℤ) :=
      (zpow_one 2).symm.trans_lt (zpow_lt_zpow_right₀ one_lt_two (by norm_num))
    have hsmall : 1 / (2 : ℚ) ^ (971 : ℤ) < 1 / 2 := one_div_lt_one_div_of_lt two_pos htwo
    have hpos : 0 < 1 / (2 : ℚ) ^ (971 : ℤ) := one_div_pos.mpr hpos
    rw [ReadsBack, if_neg (by norm_num), Rounds, if_neg (by norm_num), add_div,
      mul_div_cancel_right₀ _ (by positivity)]
    generalize 1 / (2 : ℚ) ^ (971 : ℤ) = part at hsmall hpos
    constructor <;> linarith
  have habove := Nearest.finite canonical_greatest le_rfl hread
  have hbelow := Nearest.self canonical_greatest le_rfl
  obtain ⟨hlow, hhigh⟩ := abs_le.mp h.abs_le_greatest
  refine (hbelow.roundsTo .negative).exists_between (habove.roundsTo .positive) ?_ ?_
  · exact hlow.trans (le_add_of_nonneg_right zero_le_one)
  · exact add_le_add_left hhigh 1

/-! ## Numbers of few bits -/

/-- Natural numbers of up to 53 bits are not rounded, if their exponent is moderate. -/
theorem nearest_scaled {n : ℕ} {k : ℤ} (hn : n ≤ 2 ^ 53) (hlow : -1074 ≤ k) (hhigh : k ≤ 970) :
    Nearest (n * 2 ^ k) (n * 2 ^ k) := by
  rcases Nat.eq_zero_or_pos n with rfl | hpos
  · rw [Nat.cast_zero, zero_mul]
    exact .of_zero
  · rcases hn.eq_or_lt with rfl | hlt
    · have hc : Canonical (2 ^ 52) (k + 1) :=
        ⟨by norm_num, by norm_num, by omega, fun _ => le_rfl⟩
      have hvalue : ((2 ^ 53 : ℕ) : ℚ) * 2 ^ k = (2 ^ 52 : ℕ) * 2 ^ (k + 1) := by
        rw [zpow_add_one₀ two_ne_zero]
        push_cast
        ring
      rw [hvalue]
      exact .self hc (by omega)
    -- The leading bit is moved to its place, as far as the least exponent allows.
    · have hlog := log2_lt_53 hpos hlt
      rcases le_or_gt (-1074) (n.log2 - 52 + k) with hnormal | hsubnormal
      · have hc := canonical_natCast hpos hlt
        have hmoved : Canonical (significandOf n) (n.log2 - 52 + k) :=
          ⟨hc.pos, hc.lt, hnormal, fun _ => (le_significandOf hpos hlt).1⟩
        rw [← value_natCast hpos hlt, mul_assoc, ← zpow_add₀ two_ne_zero]
        exact .self hmoved (by omega)
      · obtain ⟨j, rfl⟩ : ∃ j : ℕ, k = j + -1074 := ⟨(k + 1074).toNat, by omega⟩
        have hbits : n * 2 ^ j < 2 ^ 53 :=
          calc n * 2 ^ j < 2 ^ (n.log2 + 1) * 2 ^ j := by
                gcongr
                exact Nat.lt_log2_self
            _ = 2 ^ (n.log2 + 1 + j) := (pow_add _ _ _).symm
            _ ≤ 2 ^ 53 := Nat.pow_le_pow_right two_pos (by omega)
        have hc : Canonical (n * 2 ^ j) (-1074) :=
          ⟨by positivity, hbits, le_rfl, fun h => absurd h (lt_irrefl _)⟩
        have hvalue : (n : ℚ) * 2 ^ ((j : ℤ) + -1074) = (n * 2 ^ j : ℕ) * 2 ^ (-1074 : ℤ) := by
          rw [zpow_add₀ two_ne_zero, zpow_natCast, Nat.cast_mul, Nat.cast_pow, Nat.cast_ofNat,
            mul_assoc]
        rw [hvalue]
        exact .self hc (by norm_num)

/-- Integers of up to 53 bits are not rounded, if their exponent is moderate. -/
theorem roundsTo_scaled {j k : ℤ} (hj : |j| ≤ 2 ^ 53) (hlow : -1074 ≤ k) (hhigh : k ≤ 970) :
    RoundsTo (j * 2 ^ k) (j * 2 ^ k) := by
  have hle : j.natAbs ≤ 2 ^ 53 := by
    rw [Int.abs_eq_natAbs] at hj
    omega
  have hnearest := nearest_scaled hle hlow hhigh
  rcases Int.natAbs_eq j with heq | heq
  · rw [heq]
    exact hnearest.roundsTo .positive
  · rw [heq, Int.cast_neg, neg_mul]
    exact hnearest.roundsTo .negative

/-- The multiples of what is drawn between zero and one are doubles. -/
theorem roundsTo_part {k : ℤ} (hk : |k| ≤ Generator.unitCount) :
    RoundsTo (k / Generator.unitCount) (k / Generator.unitCount) := by
  have hpart : (k : ℚ) / (Generator.unitCount : ℕ) = k * 2 ^ (-53 : ℤ) := by
    norm_num [Generator.unitCount]
    ring
  rw [hpart]
  exact roundsTo_scaled hk (by norm_num) (by norm_num)

end Easing.Binary64
