import Easing.Proofs.Number.Decoding

/-! # The order of doubles

Two doubles compare the other way round when they are exchanged, and they have
an order unless one of them is undefined. That is all that is used about the
order of doubles: `Scalar.Ordered` names the four laws, and what is said about
bounds is said for all numbers that obey them.
-/

namespace Easing

/-- Numbers in an order that leaves out nothing but the undefined ones. -/
class Scalar.Ordered (α : Type) [Scalar α] : Prop where
  le_of_lt {x y : α} : x < y → x ≤ y
  /-- No two numbers are below each other. -/
  lt_asymm {x y : α} : x < y → ¬ y < x
  /-- A number that is not below another is at least that one. -/
  le_of_not_lt {x y : α} : isNaN x = false → isNaN y = false → ¬ x < y → y ≤ x
  /-- Finite numbers are defined. -/
  isNaN_of_isFinite {x : α} : isFinite x = true → isNaN x = false

namespace Float64

open Float.Model

/-- Exchanging two doubles turns their order round. -/
theorem compare_swap (a b : UnpackedFloat) : b.compare a = (a.compare b).map Ordering.swap := by
  rcases a with ⟨_ | _⟩ | _ | ⟨_ | _⟩ | ⟨_ | _, m, e, _⟩ <;>
    rcases b with ⟨_ | _⟩ | _ | ⟨_ | _⟩ | ⟨_ | _, n, f, _⟩ <;>
    first
    | rfl
    | simp only [UnpackedFloat.compare, Option.map_some, Ordering.swap_then,
        ← Std.OrientedCmp.eq_swap]

/-- Only an undefined double has no order with another. -/
theorem compare_eq_none_iff {a b : UnpackedFloat} :
    a.compare b = none ↔ a = .notANumber ∨ b = .notANumber := by
  rcases a with ⟨_ | _⟩ | _ | ⟨_ | _⟩ | ⟨_ | _, m, e, _⟩ <;>
    rcases b with ⟨_ | _⟩ | _ | ⟨_ | _⟩ | ⟨_ | _, n, f, _⟩ <;>
    simp [UnpackedFloat.compare]

theorem compare_self {a : UnpackedFloat} (h : a ≠ .notANumber) : a.compare a = some .eq := by
  have hsome : ∃ o, a.compare a = some o := by
    rw [← Option.ne_none_iff_exists', ne_eq, compare_eq_none_iff]
    exact fun hor => h (or_self_iff.mp hor)
  obtain ⟨o, ho⟩ := hsome
  -- The only order that is its own reverse.
  have hswap := compare_swap a a
  rw [ho, Option.map_some, Option.some.injEq] at hswap
  cases o with
  | eq => exact ho
  | lt => cases hswap
  | gt => cases hswap

theorem lt_iff {x y : Float} : x < y ↔ x.toModel.unpack.compare y.toModel.unpack = some .lt := by
  change Float.lt x y = true ↔ _
  change decide (UnpackedFloat.lt x.toModel.unpack y.toModel.unpack = true) = true ↔ _
  rw [decide_eq_true_iff, UnpackedFloat.lt, beq_iff_eq]

theorem le_iff {x y : Float} :
    x ≤ y ↔ ∃ o, x.toModel.unpack.compare y.toModel.unpack = some o ∧ o.isLE := by
  change decide (UnpackedFloat.le x.toModel.unpack y.toModel.unpack = true) = true ↔ _
  rw [decide_eq_true_iff, UnpackedFloat.le, Option.any_eq_true]

theorem beq_iff {x y : Float} :
    (x == y) = true ↔ x.toModel.unpack.compare y.toModel.unpack = some .eq := by
  change UnpackedFloat.beq x.toModel.unpack y.toModel.unpack = true ↔ _
  rw [UnpackedFloat.beq, beq_iff_eq]

/-- A double is undefined exactly if its unpacked form says so. -/
theorem isNaN_eq_false_iff {x : Float} :
    Scalar.isNaN x = false ↔ x.toModel.unpack ≠ .notANumber := by
  rw [Scalar.isNaN, Bool.not_eq_false', beq_iff]
  constructor
  · intro hself hnan
    rw [hnan] at hself
    cases hself
  · exact compare_self

end Float64

instance : Scalar.Ordered Float where
  le_of_lt {x y} h := by
    rw [Float64.le_iff]
    exact ⟨.lt, Float64.lt_iff.mp h, rfl⟩
  lt_asymm {x y} hxy hyx := by
    have hswap := Float64.compare_swap x.toModel.unpack y.toModel.unpack
    rw [Float64.lt_iff.mp hxy, Float64.lt_iff.mp hyx] at hswap
    cases hswap
  le_of_not_lt {x y} hx hy h := by
    have hsome : ∃ o, x.toModel.unpack.compare y.toModel.unpack = some o := by
      rw [← Option.ne_none_iff_exists', ne_eq, Float64.compare_eq_none_iff, not_or]
      exact ⟨Float64.isNaN_eq_false_iff.mp hx, Float64.isNaN_eq_false_iff.mp hy⟩
    obtain ⟨o, ho⟩ := hsome
    have hlt : o ≠ .lt := by
      rintro rfl
      exact h (Float64.lt_iff.mpr ho)
    rw [Float64.le_iff]
    refine ⟨o.swap, by rw [Float64.compare_swap, ho, Option.map_some], ?_⟩
    cases o with
    | lt => exact absurd rfl hlt
    | eq => rfl
    | gt => rfl
  isNaN_of_isFinite {x} h := by
    rw [Float64.isNaN_eq_false_iff]
    intro hnan
    change (Binary64.ofFloat x).isFinite = true at h
    rw [Binary64.ofFloat_eq_ofUnpacked, hnan] at h
    cases h

end Easing
