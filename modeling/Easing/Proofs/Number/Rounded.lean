import Easing.Proofs.Range.Folding
import Easing.Random.Generator

/-! # Rounded arithmetic

What curves need of their numbers is less than exact arithmetic and more than an order:
finite numbers stand for exact ones, an operation gives the exact result rounded, and
rounding keeps the order. A result between two bounds that are not rounded themselves
is then rounded to a number between the same bounds. Exact numbers are the case where
nothing is rounded.
-/

namespace Easing

open Generator (unitCount)

/-- Numbers that stand for exact ones and compute with them up to rounding. -/
class Scalar.Rounded (α : Type) [Scalar α] where
  /-- A finite number and what it stands for. -/
  Value : α → ℚ → Prop
  /-- An exact number and what it is rounded to. Numbers that are too large are not
  rounded to anything. -/
  RoundsTo : ℚ → ℚ → Prop
  /-- Rounding keeps the order, and equal numbers are rounded alike. -/
  roundsTo_mono {v v' w w' : ℚ} : RoundsTo v w → RoundsTo v' w' → v ≤ v' → w ≤ w'
  /-- What lies between numbers that are not too large is not too large. -/
  exists_roundsTo {a a' b b' v : ℚ} :
    RoundsTo a a' → RoundsTo b b' → a ≤ v → v ≤ b → ∃ w, RoundsTo v w
  /-- Counting goes on for ever, though perhaps not on to greater numbers. -/
  exists_roundsTo_add_one {x : α} {v : ℚ} : Value x v → ∃ w, RoundsTo (v + 1) w
  /-- What a number stands for is not rounded. -/
  roundsTo_self {x : α} {v : ℚ} : Value x v → RoundsTo v v
  /-- The multiples of what is drawn between zero and one are not rounded. -/
  roundsTo_unit (k : ℤ) : |k| ≤ unitCount → RoundsTo (k / unitCount) (k / unitCount)
  /-- No difference is rounded to zero. -/
  ne_zero_of_sub {x y : α} {v w u : ℚ} :
    Value x v → Value y w → v ≠ w → RoundsTo (v - w) u → u ≠ 0
  isFinite_iff {x : α} : isFinite x = true ↔ ∃ v, Value x v
  lt_iff {x y : α} {v w : ℚ} : Value x v → Value y w → (x < y ↔ v < w)
  le_iff {x y : α} {v w : ℚ} : Value x v → Value y w → (x ≤ y ↔ v ≤ w)
  beq_iff {x y : α} {v w : ℚ} : Value x v → Value y w → ((x == y) = true ↔ v = w)
  value_zero : Value 0 0
  value_one : Value 1 1
  value_natCast {n : ℕ} : n ≤ unitCount → Value (n : α) n
  value_intCast {n : ℤ} : |n| ≤ unitCount → Value (n : α) n
  value_neg {x : α} {v : ℚ} : Value x v → Value (-x) (-v)
  value_abs {x : α} {v : ℚ} : Value x v → Value (abs x) |v|
  value_add {x y : α} {v w u : ℚ} :
    Value x v → Value y w → RoundsTo (v + w) u → Value (x + y) u
  value_sub {x y : α} {v w u : ℚ} :
    Value x v → Value y w → RoundsTo (v - w) u → Value (x - y) u
  value_mul {x y : α} {v w u : ℚ} :
    Value x v → Value y w → RoundsTo (v * w) u → Value (x * y) u
  value_div {x y : α} {v w u : ℚ} :
    Value x v → Value y w → w ≠ 0 → RoundsTo (v / w) u → Value (x / y) u
  /-- Angles up to a full turn are not too large. -/
  exists_value_angle {x : α} {v : ℚ} : Value x v → 0 ≤ v → v ≤ 1 →
    (∃ w, Value (pi * x) w) ∧ ∃ w, Value (two * pi * x) w
  truncate_eq {x : α} {v : ℚ} : Value x v → truncate x = .ok (if 0 ≤ v then ⌊v⌋ else ⌈v⌉)

namespace Scalar

open Rounded

/-- In exact arithmetic every number stands for itself. -/
instance [Elementary ℚ] : Rounded ℚ where
  Value x v := x = v
  RoundsTo v w := v = w
  roundsTo_mono := by
    rintro v v' _ _ rfl rfl h
    exact h
  exists_roundsTo _ _ _ _ := ⟨_, rfl⟩
  exists_roundsTo_add_one _ := ⟨_, rfl⟩
  roundsTo_self _ := rfl
  roundsTo_unit _ _ := rfl
  ne_zero_of_sub := by
    rintro x y _ _ _ rfl rfl hne rfl
    exact sub_ne_zero.mpr hne
  isFinite_iff := ⟨fun _ => ⟨_, rfl⟩, fun _ => rfl⟩
  lt_iff := by
    rintro x y _ _ rfl rfl
    exact Iff.rfl
  le_iff := by
    rintro x y _ _ rfl rfl
    exact Iff.rfl
  beq_iff := by
    rintro x y _ _ rfl rfl
    exact beq_iff_eq
  value_zero := rfl
  value_one := rfl
  value_natCast _ := rfl
  value_intCast _ := rfl
  value_neg h := congrArg _ h
  value_abs h := congrArg _ h
  value_add := by
    rintro x y _ _ _ rfl rfl rfl
    rfl
  value_sub := by
    rintro x y _ _ _ rfl rfl rfl
    rfl
  value_mul := by
    rintro x y _ _ _ rfl rfl rfl
    rfl
  value_div := by
    rintro x y _ _ _ rfl rfl _ rfl
    rfl
  exists_value_angle _ _ _ := ⟨⟨_, rfl⟩, _, rfl⟩
  truncate_eq := by
    rintro x _ rfl
    exact Rational.truncate_eq x

variable {α : Type} [Scalar α] [Rounded α] {x y : α} {v w a b : ℚ}

/-- A number of the unit interval. -/
def InUnit (x : α) : Prop := ∃ v, Value x v ∧ 0 ≤ v ∧ v ≤ 1

/-- A function that has values for the numbers of the unit interval, and there. -/
def KeepsUnit (f : α → Except EvalFault α) : Prop :=
  ∀ x, InUnit x → ∃ y, f x = .ok y ∧ InUnit y

variable (α) in
/-- Angles and powers keep to the intervals that those of exact arithmetic keep to. -/
structure InRange : Prop where
  sin {x : α} {v : ℚ} : Value x v →
    ∃ y w, Scalar.sin x = .ok y ∧ Value y w ∧ -1 ≤ w ∧ w ≤ 1
  cos {x : α} {v : ℚ} : Value x v →
    ∃ y w, Scalar.cos x = .ok y ∧ Value y w ∧ -1 ≤ w ∧ w ≤ 1
  sin_pi_mul {x y : α} {w : ℚ} :
    InUnit x → Scalar.sin (Scalar.pi * x) = .ok y → Value y w → 0 ≤ w
  pow {x y : α} {w : ℚ} : InUnit x → Value y w → 0 < w →
    ∃ z, Scalar.pow x y = .ok z ∧ InUnit z

/-! ## Results between bounds -/

/-- What lies between two numbers is rounded to something between what they are
rounded to. -/
theorem exists_roundsTo_between {a a' b b' : ℚ} (ha : RoundsTo α a a') (hb : RoundsTo α b b')
    (hle : a ≤ v) (hge : v ≤ b) : ∃ u, RoundsTo α v u ∧ a' ≤ u ∧ u ≤ b' := by
  obtain ⟨u, hu⟩ := exists_roundsTo ha hb hle hge
  exact ⟨u, hu, roundsTo_mono ha hu hle, roundsTo_mono hu hb hge⟩

/-- What is not rounded is rounded to itself alone. -/
theorem eq_of_roundsTo_self (hself : RoundsTo α v v) (h : RoundsTo α v w) : w = v :=
  le_antisymm (roundsTo_mono h hself le_rfl) (roundsTo_mono hself h le_rfl)

theorem roundsTo_zero : RoundsTo α 0 0 := roundsTo_self value_zero

theorem roundsTo_one : RoundsTo α 1 1 := roundsTo_self value_one

/-- What lies between zero and another number is rounded to something between zero and what
the other one is rounded to. -/
theorem exists_roundsTo_nonneg {b b' : ℚ} (hb : RoundsTo α b b') (hlow : 0 ≤ v) (hhigh : v ≤ b) :
    ∃ u, RoundsTo α v u ∧ 0 ≤ u ∧ u ≤ b' :=
  exists_roundsTo_between roundsTo_zero hb hlow hhigh

variable (α) in
theorem exists_roundsTo_unit (hlow : 0 ≤ v) (hhigh : v ≤ 1) :
    ∃ u, RoundsTo α v u ∧ 0 ≤ u ∧ u ≤ 1 :=
  exists_roundsTo_nonneg roundsTo_one hlow hhigh

theorem value_two : Value (two : α) 2 := value_natCast (by decide)

theorem roundsTo_half : RoundsTo α (1 / 2) (1 / 2) := by
  have hunit : RoundsTo α _ _ := roundsTo_unit (2 ^ 52) (by decide)
  norm_num [unitCount] at hunit ⊢
  exact hunit

theorem value_half : Value (half : α) (1 / 2) := value_div value_one value_two two_ne_zero roundsTo_half

theorem Rounded.divide_eq_ok (hy : Value y w) (hw : w ≠ 0) (x : α) :
    divide x y = .ok (x / y) := by
  have hzero : (y == 0) = false := by
    rw [← Bool.not_eq_true, beq_iff hy value_zero]
    exact hw
  unfold divide
  rw [hzero]
  rfl

/-! ## The unit interval -/

theorem inUnit_zero : InUnit (0 : α) := ⟨0, value_zero, le_rfl, zero_le_one⟩

theorem inUnit_one : InUnit (1 : α) := ⟨1, value_one, zero_le_one, le_rfl⟩

theorem InUnit.one_sub (hx : InUnit x) : InUnit (1 - x) := by
  obtain ⟨v, hv, hlow, hhigh⟩ := hx
  obtain ⟨u, hu, hulow, huhigh⟩ := exists_roundsTo_unit α (show 0 ≤ 1 - v by linarith) (by linarith)
  exact ⟨u, value_sub value_one hv hu, hulow, huhigh⟩

theorem InUnit.abs (hx : InUnit x) : InUnit (abs x) := by
  obtain ⟨v, hv, hlow, hhigh⟩ := hx
  refine ⟨v, ?_, hlow, hhigh⟩
  rw [← abs_of_nonneg hlow]
  exact value_abs hv

/-- A part of something is a number of the unit interval. -/
theorem exists_ratio (hx : Value x v) (hy : Value y w) (hlow : 0 ≤ v) (hle : v ≤ w)
    (hw : w ≠ 0) : ∃ z, divide x y = .ok z ∧ InUnit z := by
  obtain ⟨u, hu, hulow, huhigh⟩ := exists_roundsTo_unit α (div_nonneg hlow (hlow.trans hle))
    (div_le_one_of_le₀ hle (hlow.trans hle))
  exact ⟨x / y, Rounded.divide_eq_ok hy hw x, u, value_div hx hy hw hu, hulow, huhigh⟩

/-- The nearest number of the unit interval to one that is there. -/
theorem clampUnit_eq (hx : InUnit x) : clampUnit x = x := by
  obtain ⟨v, hv, hlow, hhigh⟩ := hx
  have hlarger : larger x 0 = x := if_neg (by rwa [lt_iff hv value_zero, not_lt])
  have hsmaller : smaller x 1 = x := if_neg (by rwa [lt_iff value_one hv, not_lt])
  rw [clampUnit, hlarger, hsmaller]

/-- Whole numbers as far as a number is away from zero are not rounded. -/
def IntegersUpTo (α : Type) [Scalar α] [Rounded α] (v : ℚ) : Prop :=
  ∀ n : ℤ, |(n : ℚ)| ≤ |v| → Value (n : α) n

/-- What is behind the point is in the unit interval. -/
theorem inUnit_fract (hx : Value x v) (hintegers : IntegersUpTo α v) : InUnit (fract x) := by
  obtain ⟨n, hn, habs, hlow, hhigh⟩ : ∃ n : ℤ,
      truncate x = .ok n ∧ |(n : ℚ)| ≤ |v| ∧ -1 ≤ v - n ∧ v - n ≤ 1 := by
    refine ⟨_, truncate_eq hx, ?_⟩
    by_cases hnonneg : 0 ≤ v
    · have hfloor : (0 : ℚ) ≤ ⌊v⌋ := by exact_mod_cast Int.floor_nonneg.mpr hnonneg
      rw [if_pos hnonneg, abs_of_nonneg hnonneg, abs_of_nonneg hfloor]
      exact ⟨Int.floor_le v, by linarith [Int.floor_le v], by linarith [Int.lt_floor_add_one v]⟩
    · have hneg : v ≤ 0 := (not_le.mp hnonneg).le
      have hceil : (⌈v⌉ : ℚ) ≤ 0 := by exact_mod_cast Int.ceil_le.mpr (by exact_mod_cast hneg)
      rw [if_neg hnonneg, abs_of_nonpos hneg, abs_of_nonpos hceil]
      exact ⟨neg_le_neg (Int.le_ceil v), by linarith [Int.ceil_lt_add_one v],
        by linarith [Int.le_ceil v]⟩
  have hminus : RoundsTo α (-1) (-1) := roundsTo_self (value_neg value_one)
  obtain ⟨u, hu, hulow, huhigh⟩ := exists_roundsTo_between hminus roundsTo_one hlow hhigh
  have hrest : Value (x - (n : α)) u := value_sub hx (hintegers n habs) hu
  unfold fract
  rw [hn]
  simp only
  split
  · exact inUnit_zero
  · split
    next hneg =>
      have hneg : u < 0 := (lt_iff hrest value_zero).mp hneg
      obtain ⟨z, hz, hzlow, hzhigh⟩ := exists_roundsTo_unit α (show 0 ≤ u + 1 by linarith)
        (by linarith)
      exact ⟨z, value_add hrest value_one hz, hzlow, hzhigh⟩
    next hnonneg =>
      have hnonneg : ¬ u < 0 := mt (lt_iff hrest value_zero).mpr hnonneg
      exact ⟨u, hrest, not_lt.mp hnonneg, huhigh⟩

end Scalar

end Easing
