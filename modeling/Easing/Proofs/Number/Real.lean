import Easing.Number.Scalar
import Mathlib

/-! # Real numbers

Powers of rational numbers are not rational in general. In real arithmetic nothing is left
open: an angle has its sine and cosine, and a magnitude has its powers. Real numbers are
numbers that curves compute with, though nothing is computed with them.
-/

namespace Easing

/-- The one power that does not exist is a negative power of zero. Only powers of magnitudes
are ever taken. -/
noncomputable instance : Scalar ℝ where
  decideLT _ _ := inferInstance
  decideLE _ _ := inferInstance
  abs x := |x|
  isFinite _ := true
  pi := Real.pi
  truncate x := .ok (if 0 ≤ x then ⌊x⌋ else ⌈x⌉)
  sin x := .ok (Real.sin x)
  cos x := .ok (Real.cos x)
  pow x y := if x = 0 ∧ y < 0 then .error .divisionByZero else .ok (x ^ y)

namespace Scalar

theorem real_two : (two : ℝ) = 2 := Nat.cast_ofNat

/-- Powers with an exponent that is not negative are those of the library. -/
theorem real_pow {x y : ℝ} (hy : 0 ≤ y) : pow x y = .ok (x ^ y) :=
  if_neg fun h => absurd h.2 (not_lt.mpr hy)

end Scalar

end Easing
