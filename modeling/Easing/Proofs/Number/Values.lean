import Easing.Proofs.Number.Nearest
import Easing.Proofs.Number.Order

/-! # The numbers that doubles stand for

A finite double stands for a number: zero, of either sign, or its significand times a power
of two. Finite doubles are in the order of their numbers, and changing the sign of a double
changes that of its number.
-/

namespace Easing.Binary64

open Float.Model Float.Model.UnpackedFloat

variable {m : ℕ} {e : ℤ} {v w : ℚ} {a b : UnpackedFloat}

def signed (s : Sign) (v : ℚ) : ℚ :=
  match s with
  | .positive => v
  | .negative => -v

@[simp] theorem signed_zero (s : Sign) : signed s 0 = 0 := by
  cases s with
  | positive => rfl
  | negative => exact neg_zero

theorem signed_neg (s : Sign) (v : ℚ) : signed (-s) v = -signed s v := by
  cases s with
  | positive => rfl
  | negative => exact (neg_neg v).symm

theorem signed_mul (s s' : Sign) (v w : ℚ) : signed (s * s') (v * w) = signed s v * signed s' w := by
  cases s with
  | positive =>
      cases s' with
      | positive => rfl
      | negative => exact (mul_neg v w).symm
  | negative =>
      cases s' with
      | positive => exact (neg_mul v w).symm
      | negative => exact (neg_mul_neg v w).symm

theorem signed_div (s s' : Sign) (v w : ℚ) : signed (s / s') (v / w) = signed s v / signed s' w := by
  cases s with
  | positive =>
      cases s' with
      | positive => rfl
      | negative => exact (div_neg v).symm
  | negative =>
      cases s' with
      | positive => exact (neg_div w v).symm
      | negative => exact (neg_div_neg_eq v w).symm

theorem abs_signed (s : Sign) (v : ℚ) : |signed s v| = |v| := by
  cases s with
  | positive => rfl
  | negative => exact abs_neg v

/-- Changing the signs turns the order round. -/
theorem compare_neg_neg (v w : ℚ) : compare (-v) (-w) = (compare v w).swap := by
  rcases lt_trichotomy v w with hlt | rfl | hgt
  · rw [compare_lt_iff_lt.mpr hlt, compare_gt_iff_gt.mpr (neg_lt_neg hlt)]
    rfl
  · rw [compare_eq_iff_eq.mpr rfl, compare_eq_iff_eq.mpr rfl]
    rfl
  · rw [compare_gt_iff_gt.mpr hgt, compare_lt_iff_lt.mpr (neg_lt_neg hgt)]
    rfl

/-- A finite unpacked form that comes back from being packed, and its number. -/
inductive Denotes : UnpackedFloat → ℚ → Prop
  | zero (s : Sign) : Denotes (.zero s) 0
  | finite (s : Sign) {m : ℕ} {e : ℤ} (hc : Canonical m e) (he : e ≤ 971) :
      Denotes (.finite s m e hc.pos) (signed s (m * 2 ^ e))

theorem Canonical.value_pos (hc : Canonical m e) : (0 : ℚ) < m * 2 ^ e := by
  have hm : (0 : ℚ) < m := Nat.cast_pos.mpr hc.pos
  positivity

/-- A number has one canonical form. -/
theorem Canonical.unique {m' : ℕ} {e' : ℤ} (hc : Canonical m e) (hc' : Canonical m' e')
    (h : (m : ℚ) * 2 ^ e = m' * 2 ^ e') : m = m' ∧ e = e' := by
  have hcompare := hc.compare_eq hc'
  rw [h, compare_eq_iff_eq.mpr rfl, Ordering.then_eq_eq, compare_eq_iff_eq,
    compare_eq_iff_eq] at hcompare
  exact hcompare.symm

namespace Denotes

theorem unpack_pack (h : Denotes a v) : (Float.Model.pack a).unpack = a := by
  cases h with
  | zero s => exact unpack_pack_zero s
  | finite s hc he => exact Binary64.unpack_pack hc he s

/-- Finite forms are in the order of their numbers. -/
theorem compare_eq (ha : Denotes a v) (hb : Denotes b w) : a.compare b = some (compare v w) := by
  cases ha with
  | zero s =>
      cases hb with
      | zero s' => simp [UnpackedFloat.compare]
      | finite s' hc' he' =>
          have hpos := hc'.value_pos
          cases s' with
          | positive => simp only [UnpackedFloat.compare, signed, compare_lt_iff_lt.mpr hpos]
          | negative =>
              simp only [UnpackedFloat.compare, signed, compare_gt_iff_gt.mpr (neg_neg_of_pos hpos)]
  | finite s hc he =>
      have hpos := hc.value_pos
      cases hb with
      | zero s' =>
          cases s with
          | positive => simp only [UnpackedFloat.compare, signed, compare_gt_iff_gt.mpr hpos]
          | negative =>
              simp only [UnpackedFloat.compare, signed, compare_lt_iff_lt.mpr (neg_neg_of_pos hpos)]
      | finite s' hc' he' =>
          have hpos' := hc'.value_pos
          have hcompare := hc.compare_eq hc'
          cases s <;> cases s' <;> simp only [UnpackedFloat.compare, signed]
          case positive.positive => rw [hcompare]
          case positive.negative => rw [compare_gt_iff_gt.mpr (by linarith)]
          case negative.positive => rw [compare_lt_iff_lt.mpr (by linarith)]
          case negative.negative => rw [hcompare, compare_neg_neg]

/-- Other than zero, which has two signs, a number has one form. -/
theorem unique (ha : Denotes a v) (hb : Denotes b v) (hv : v ≠ 0) : a = b := by
  cases ha with
  | zero s => exact absurd rfl hv
  | @finite s m e hc he =>
      generalize hvalue : signed s (m * 2 ^ e) = v at hb hv
      cases hb with
      | zero s' => exact absurd rfl hv
      | @finite s' m' e' hc' he' =>
          have hpos := hc.value_pos
          have hpos' := hc'.value_pos
          cases s <;> cases s' <;> simp only [signed] at hvalue
          case positive.negative => linarith
          case negative.positive => linarith
          all_goals
            obtain ⟨rfl, rfl⟩ := hc.unique hc' (by linarith)
            rfl

theorem neg (h : Denotes a v) : Denotes a.neg (-v) := by
  cases h with
  | zero s =>
      rw [neg_zero]
      exact .zero (-s)
  | finite s hc he =>
      rw [← signed_neg]
      exact .finite (-s) hc he

theorem abs (h : Denotes a v) : Denotes a.abs |v| := by
  cases h with
  | zero s =>
      rw [abs_zero]
      exact .zero .positive
  | @finite s m e hc he =>
      rw [abs_signed, abs_of_pos hc.value_pos]
      exact .finite .positive hc he

end Denotes

end Easing.Binary64

namespace Easing.Float64

open Float.Model Float.Model.UnpackedFloat Binary64

variable {x y : Float} {v w : ℚ}

/-- A finite double and its number. -/
def Value (x : Float) (v : ℚ) : Prop := Denotes x.toModel.unpack v

theorem Value.of_pack {a : UnpackedFloat} (h : Denotes a v) :
    Value (.ofModel (.pack a)) v := by
  rw [← h.unpack_pack] at h
  exact h

theorem isFinite_iff : Scalar.isFinite x = true ↔ ∃ v, Value x v := by
  change (ofFloat x).isFinite = true ↔ _
  rw [ofFloat_eq_ofUnpacked]
  unfold Value
  rcases hx : x.toModel.unpack with s | _ | s | ⟨s, m, e, h⟩
  · exact ⟨fun h => absurd h Bool.false_ne_true, fun ⟨v, h⟩ => by cases h⟩
  · exact ⟨fun h => absurd h Bool.false_ne_true, fun ⟨v, h⟩ => by cases h⟩
  · exact ⟨fun _ => ⟨0, .zero s⟩, fun _ => rfl⟩
  · obtain ⟨hc, he⟩ := canonical_of_unpack hx
    exact ⟨fun _ => ⟨_, .finite s hc he⟩, fun _ => rfl⟩

namespace Value

theorem lt_iff (hx : Value x v) (hy : Value y w) : x < y ↔ v < w := by
  rw [Float64.lt_iff, Denotes.compare_eq hx hy, Option.some.injEq, compare_lt_iff_lt]

theorem le_iff (hx : Value x v) (hy : Value y w) : x ≤ y ↔ v ≤ w := by
  rw [Float64.le_iff, Denotes.compare_eq hx hy]
  simp only [Option.some.injEq, exists_eq_left', Ordering.isLE_iff_ne_gt, compare_gt_iff_gt,
    not_lt]

theorem beq_iff (hx : Value x v) (hy : Value y w) : (x == y) = true ↔ v = w := by
  rw [Float64.beq_iff, Denotes.compare_eq hx hy, Option.some.injEq, compare_eq_iff_eq]

/-- Other than zero, a number has one double. -/
theorem eq (hx : Value x v) (hy : Value y v) (hv : v ≠ 0) : x = y := by
  have hself (z : Float) : Float.ofModel (.pack z.toModel.unpack) = z := by rw [pack_unpack]
  rw [← hself x, ← hself y, Denotes.unique hx hy hv]

theorem neg (h : Value x v) : Value (-x) (-v) := .of_pack (Denotes.neg h)

theorem abs (h : Value x v) : Value (Scalar.abs x) |v| := .of_pack (Denotes.abs h)

end Value

end Easing.Float64
