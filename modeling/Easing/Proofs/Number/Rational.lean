import Easing.Proofs.Mapping.Tabulated
import Mathlib

/-! # Exact numbers

Rational numbers are numbers that curves compute with, once it is said what an
angle and a power are: those have no exact value in general, so they are left
open. In exact arithmetic a place of a range is recovered from the number there.
-/

namespace Easing

/-- Values of the functions that elementary arithmetic does not give. -/
class Elementary (α : Type) where
  pi : α
  sin : α → Except EvalFault α
  cos : α → Except EvalFault α
  pow : α → α → Except EvalFault α

variable [Elementary ℚ]

instance : Scalar ℚ where
  decideLT _ _ := inferInstance
  decideLE _ _ := inferInstance
  abs x := |x|
  isFinite _ := true
  pi := Elementary.pi
  truncate x := .ok (x.num.tdiv x.den)
  sin := Elementary.sin
  cos := Elementary.cos
  pow := Elementary.pow

theorem Rational.checkBounds_eq_ok_iff {start stop : ℚ} :
    Range.checkBounds start stop = .ok () ↔ start ≠ stop := by
  change (if (start == stop) = true then _ else _) = _ ↔ _
  by_cases h : start = stop
  · simp [h]
  · simp [h]

instance : Scalar.HasUnit ℚ where
  checkBounds_zero_one := Rational.checkBounds_eq_ok_iff.mpr zero_ne_one

instance : Scalar.Exact ℚ where
  toUnit_fromUnit {r} h place := by
    have hspan : r.stop - r.start ≠ 0 :=
      sub_ne_zero.mpr (Rational.checkBounds_eq_ok_iff.mp h).symm
    change ((r.start + place * (r.stop - r.start)) - r.start) / (r.stop - r.start) = place
    rw [add_sub_cancel_left, mul_div_cancel_right₀ place hspan]

end Easing
