import Easing.Proofs.Expression.UnitInterval

/-! # Default arguments

All transforms accept their default arguments, and except for the weight, which scales
a chain, they keep to the unit interval with them. A default is a natural number, a half
or a number of tenths. Only tenths are rounded, and they stay between the eighths around
them.
-/

namespace Easing

open Scalar.Rounded

namespace Transform

variable {α : Type} [Scalar α] [Scalar.Rounded α]

/-- A number of tenths lies between the eighths around it. -/
theorem exists_value_tenths {n k : ℕ} (hlow : 5 * k ≤ 4 * n) (hhigh : 4 * n ≤ 5 * (k + 1))
    (hk : k < 8) :
    ∃ v, Value (tenths n : α) v ∧ (k : ℚ) / 8 ≤ v ∧ v ≤ ((k + 1 : ℕ) : ℚ) / 8 := by
  have heighths (j : ℕ) (hj : j ≤ 8) : RoundsTo α ((j : ℚ) / 8) (j / 8) := by
    have hself : RoundsTo α _ _ := roundsTo_unit ((j * 2 ^ 50 : ℕ) : ℤ) (by
      rw [Nat.abs_cast, Generator.unitCount]
      omega)
    have hequal : (((j * 2 ^ 50 : ℕ) : ℤ) : ℚ) / (Generator.unitCount : ℕ) = j / 8 := by
      rw [Generator.unitCount]
      push_cast
      ring
    rwa [hequal] at hself
  have hlow : (k : ℚ) / 8 ≤ n / 10 := by
    rw [div_le_div_iff₀ (by norm_num) (by norm_num)]
    exact_mod_cast (by omega : k * 10 ≤ n * 8)
  have hhigh : (n : ℚ) / 10 ≤ ((k + 1 : ℕ) : ℚ) / 8 := by
    rw [div_le_div_iff₀ (by norm_num) (by norm_num)]
    exact_mod_cast (by omega : n * 8 ≤ (k + 1) * 10)
  obtain ⟨v, hv, hvlow, hvhigh⟩ :=
    Scalar.exists_roundsTo_between (heighths k hk.le) (heighths (k + 1) hk) hlow hhigh
  refine ⟨v, ?_, hvlow, hvhigh⟩
  have hcount (m : ℕ) (hm : m ≤ 10) : Value (m : α) m := value_natCast (hm.trans (by decide))
  exact value_div (hcount n (by omega)) (hcount 10 le_rfl) (by norm_num) (by exact_mod_cast hv)

variable {t : Transform}

/-- The default arguments by their positions. -/
def default (t : Transform) (i : ℕ) : α := (t.defaults : List α).getD i 0

omit [Scalar.Rounded α] in
theorem defaults_eq (t : Transform) :
    (t.defaults : List α) = (List.range t.parameterCount).map t.default := by
  cases t <;> rfl

theorem accepts_default (t : Transform) : t.accepts (t.default : ℕ → α) = true := by
  have htwo : Value (Scalar.two : α) 2 := Scalar.value_two
  have hcount (m : ℕ) (hm : m ≤ maxBreakPoints) : Value (m : α) m :=
    value_natCast (hm.trans (by decide))
  have hdiffer {x y : α} {v w : ℚ} (hx : Value x v) (hy : Value y w) (hne : v ≠ w) :
      (!(x == y)) = true := by
    rw [Bool.not_eq_true', ← Bool.not_eq_true, beq_iff hx hy]
    exact hne
  cases t with
  | exp | outward | inward => exact hdiffer htwo value_zero (by norm_num)
  | cycle => exact hdiffer htwo value_one (by norm_num)
  | narrow =>
      obtain ⟨v, hv, _, hvhigh⟩ := exists_value_tenths (α := α) (n := 2) (k := 1) (by norm_num)
        (by norm_num) (by norm_num)
      obtain ⟨w, hw, hwlow, _⟩ := exists_value_tenths (α := α) (n := 8) (k := 6) (by norm_num)
        (by norm_num) (by norm_num)
      norm_num at hvhigh hwlow
      exact hdiffer hv hw (by linarith)
  | peak =>
      obtain ⟨v, hv, hvlow, hvhigh⟩ := exists_value_tenths (α := α) (n := 8) (k := 6) (by norm_num)
        (by norm_num) (by norm_num)
      norm_num at hvlow hvhigh
      change (decide (0 < (tenths 8 : α)) && decide ((tenths 8 : α) < 1)) = true
      rw [Bool.and_eq_true, decide_eq_true_eq, decide_eq_true_eq, lt_iff value_zero hv,
        lt_iff hv value_one]
      constructor <;> linarith
  | triangle =>
      change (decide (0 < (Scalar.half : α)) && decide ((Scalar.half : α) < 1)) = true
      rw [Bool.and_eq_true, decide_eq_true_eq, decide_eq_true_eq,
        lt_iff value_zero Scalar.value_half, lt_iff Scalar.value_half value_one]
      norm_num
  | random | squareRandom =>
      change (Scalar.isFinite ((6 : ℕ) : α) && decide (1 ≤ ((6 : ℕ) : α))
        && decide (((6 : ℕ) : α) ≤ (maxBreakPoints : α))) = true
      have hsix : Value ((6 : ℕ) : α) 6 := hcount 6 (by decide)
      rw [Bool.and_eq_true, Bool.and_eq_true, decide_eq_true_eq, decide_eq_true_eq,
        le_iff value_one hsix, le_iff hsix (hcount _ le_rfl), isFinite_iff]
      exact ⟨⟨⟨6, hsix⟩, by norm_num⟩, by norm_num [maxBreakPoints]⟩
  | _ => rfl

theorem mild_default (h : t ≠ weight) : t.Mild (t.default : ℕ → α) := by
  have htwo : Value (Scalar.two : α) 2 := Scalar.value_two
  have hintegers {v : ℚ} (hv : |v| ≤ 2) : Scalar.IntegersUpTo α v := by
    intro n hn
    apply value_intCast
    have hle : |(n : ℚ)| ≤ (2 : ℤ) := hn.trans (by exact_mod_cast hv)
    exact (by exact_mod_cast hle : |n| ≤ 2).trans (by decide)
  have hone (x : α) (v : ℚ) (hx : Value x v) (i : ℕ) : ∃ v, Value ([x].getD i 0) v := by
    cases i with
    | zero => exact ⟨v, hx⟩
    | succ i => exact ⟨0, value_zero⟩
  obtain ⟨v, hv, hvlow, hvhigh⟩ := exists_value_tenths (α := α) (n := 8) (k := 6) (by norm_num)
    (by norm_num) (by norm_num)
  cases t with
  | constant => exact ⟨1 / 2, Scalar.value_half, by norm_num, by norm_num⟩
  | narrow =>
      obtain ⟨w, hw, hwlow, hwhigh⟩ := exists_value_tenths (α := α) (n := 2) (k := 1) (by norm_num)
        (by norm_num) (by norm_num)
      norm_num at hvlow hvhigh hwlow hwhigh
      obtain ⟨d, hd, _⟩ := Scalar.exists_roundsTo_unit α (show 0 ≤ v - w by linarith) (by linarith)
      exact ⟨w, v, d, hw, hv, hd⟩
  | cycle => exact ⟨2, htwo, hintegers (by norm_num)⟩
  | mirror => exact ⟨1, value_one, hintegers (by norm_num)⟩
  | weight => exact absurd rfl h
  | identity | invert | sin | fullSin | cos | fullCos => exact fun _ => ⟨0, value_zero⟩
  | exp | outward | inward => exact hone _ 2 htwo
  | peak => exact hone _ v hv
  | triangle => exact hone _ _ Scalar.value_half
  | random | squareRandom => exact hone _ _ (value_natCast (by decide))
  | trapez =>
      obtain ⟨w, hw, _⟩ := exists_value_tenths (α := α) (n := 3) (k := 2) (by norm_num)
        (by norm_num) (by norm_num)
      obtain ⟨u, hu, _⟩ := exists_value_tenths (α := α) (n := 7) (k := 5) (by norm_num)
        (by norm_num) (by norm_num)
      intro i
      match i with
      | 0 => exact ⟨w, hw⟩
      | 1 => exact ⟨u, hu⟩
      | i + 2 => exact ⟨0, value_zero⟩

end Transform

end Easing
