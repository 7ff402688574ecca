import Easing.Proofs.Expression.UnitInterval
import Easing.Proofs.Mapping.Lookup
import Easing.Proofs.Number.Arithmetic

/-! # Break points

The random transforms compute with numbers that were drawn once. As many are drawn as the
curve has ends of segments, or plateaus, and one more entry stands behind them, so that the
right end of the unit interval can be read like any other place. Doubles find a value at
every place that is defined, an infinite one included. In exact arithmetic the curve is the
one that joins the break points, or holds them, and the entry behind them is not seen.
-/

namespace Easing

open Scalar (InUnit)
open Scalar.Rounded

/-! ## Places that are held in the unit interval -/

namespace Scalar

variable {α : Type} [Scalar α] {x : α}

/-- A number is held in the unit interval by being left alone or taken to an end. -/
theorem clampUnit_cases (x : α) : clampUnit x = x ∨ clampUnit x = 0 ∨ clampUnit x = 1 := by
  unfold clampUnit smaller
  split
  · exact .inr (.inr rfl)
  · unfold larger
    split
    · exact .inr (.inl rfl)
    · exact .inl rfl

theorem clampUnit_of_neg [Rounded α] (h : x < 0) : clampUnit x = 0 := by
  have hlarger : larger x 0 = 0 := if_pos h
  have hone : ¬ (1 : α) < 0 := by
    rw [lt_iff value_one value_zero]
    exact not_lt.mpr zero_le_one
  rw [clampUnit, hlarger]
  exact if_neg hone

theorem clampUnit_of_not_neg (h : ¬ x < 0) : clampUnit x = if 1 < x then 1 else x := by
  have hlarger : larger x 0 = x := if_neg h
  rw [clampUnit, hlarger, smaller]

end Scalar

namespace Float64

open Float.Model Binary64

variable {x : Float}

theorem inUnit_clampUnit (h : Scalar.isNaN x = false) : InUnit (Scalar.clampUnit x) := by
  rcases Scalar.clampUnit_cases x with heq | heq | heq
  · rcases clampUnit_cases x with hnan | ⟨s, hzero⟩ | ⟨v, hv, hx⟩
    · rw [heq] at hnan
      exact absurd hnan (isNaN_eq_false_iff.mp h)
    · refine ⟨0, ?_, le_rfl, zero_le_one⟩
      change Denotes (Scalar.clampUnit x).toModel.unpack 0
      rw [hzero]
      exact .zero s
    · obtain ⟨m, e, hm, _, hvalue⟩ := id hx
      have hpos : (0 : ℚ) < m := Nat.cast_pos.mpr hm
      refine ⟨v, hx.value, ?_, hv⟩
      rw [← hvalue]
      positivity
  · rw [heq]
    exact Scalar.inUnit_zero
  · rw [heq]
    exact Scalar.inUnit_one

/-- No double is at least one and below zero. -/
theorem not_neg_of_one_le (h : 1 ≤ x) : ¬ x < 0 := by
  intro hneg
  obtain ⟨m, e, hm, hone, _⟩ := standsFor_one
  rw [lt_iff] at hneg
  change x.toModel.unpack.compare (.zero .positive) = some .lt at hneg
  rw [le_iff, hone] at h
  obtain ⟨o, ho, hle⟩ := h
  rcases hx : x.toModel.unpack with ⟨_ | _⟩ | _ | s | ⟨_ | _, m', e', hm'⟩ <;>
    rw [hx] at hneg ho <;> simp [UnpackedFloat.compare] at hneg ho
  all_goals
    subst ho
    cases hle

theorem isNaN_of_one_le (h : 1 ≤ x) : Scalar.isNaN x = false := by
  rw [isNaN_eq_false_iff]
  intro hnan
  rw [le_iff, hnan] at h
  obtain ⟨o, ho, _⟩ := h
  rw [compare_eq_none_iff.mpr (.inr rfl)] at ho
  exact (nomatch ho)

theorem value_clampUnit_of_one_le (h : 1 ≤ x) : Value (Scalar.clampUnit x) 1 := by
  have hclamp : Scalar.clampUnit x = if 1 < x then 1 else x :=
    Scalar.clampUnit_of_not_neg (not_neg_of_one_le h)
  obtain ⟨v, hv, _, hle⟩ := inUnit_clampUnit (isNaN_of_one_le h)
  rw [hclamp] at hv ⊢
  split at hv
  next habove =>
    rw [if_pos habove]
    exact standsFor_one.value
  next hbelow =>
    rw [if_neg hbelow]
    have hge : 1 ≤ v := (standsFor_one.value.le_iff hv).mp h
    rwa [le_antisymm hle hge] at hv

end Float64

/-! ## What is drawn -/

namespace Transform

section Rounded

variable {α : Type} [Scalar α] [Scalar.Rounded α] {count x : α} {v : ℚ} {n k : ℕ}
  {points : Array α} {t : Transform}

/-- An accepted count is a number whose integer part is a count. -/
theorem exists_count (ht : t = random ∨ t = squareRandom)
    (haccepted : t.rejected? [count] = .ok none) :
    ∃ v, Value count v ∧ 0 < ⌊v⌋₊ ∧ ⌊v⌋₊ ≤ maxBreakPoints ∧
      Scalar.truncate count = .ok (⌊v⌋₊ : ℤ) := by
  have hrule : t.rejected? [count] = .ok (if Scalar.isFinite count ∧ 1 ≤ count ∧
      count ≤ (maxBreakPoints : α) then none else some count) := by
    rcases ht with rfl | rfl <;> rfl
  rw [hrule] at haccepted
  split at haccepted
  next h =>
    obtain ⟨hfinite, hone, hle⟩ := h
    obtain ⟨v, hv⟩ := isFinite_iff.mp hfinite
    have hone : 1 ≤ v := (le_iff value_one hv).mp hone
    have hle : v ≤ maxBreakPoints := (le_iff hv (value_natCast (by decide))).mp hle
    have hnonneg : 0 ≤ v := zero_le_one.trans hone
    refine ⟨v, hv, Nat.floor_pos.mpr hone, Nat.floor_le_of_le hle, ?_⟩
    rw [truncate_eq hv, if_pos hnonneg, Int.natCast_floor_eq_floor hnonneg]
  next => cases haccepted

omit [Scalar.Rounded α] in
theorem resolve_random (haccepted : random.rejected? [count] = .ok none)
    (hcount : Scalar.truncate count = .ok (n : ℤ)) (g : Generator) :
    (random.resolve [count] g).1 = ⟨[], .ok (Generator.units (n + 2) g).1.toArray⟩ := by
  unfold resolve
  rw [haccepted]
  change ((Build.ofOutcome (.ofEval (Scalar.truncate count)) >>=
    fun m => segmentPoints m.toNat : Build α _) g).1 = _
  rw [hcount]
  rfl

omit [Scalar.Rounded α] in
theorem resolve_squareRandom (haccepted : squareRandom.rejected? [count] = .ok none)
    (hcount : Scalar.truncate count = .ok (n : ℤ)) (g : Generator) :
    (squareRandom.resolve [count] g).1 = ⟨[], .ok ((Generator.units n g).1 ++
      (Generator.units n g : List α × Generator).1.getLast?.toList).toArray⟩ := by
  unfold resolve
  rw [haccepted]
  change ((Build.ofOutcome (.ofEval (Scalar.truncate count)) >>=
    fun m => plateauPoints m.toNat : Build α _) g).1 = _
  rw [hcount]
  rfl

omit [Scalar α] [Scalar.Rounded α] in
/-- The last of the heights stands at the end once more. -/
theorem heights_last {heights : List α} (hlength : heights.length = n) (hpos : 0 < n) :
    (heights ++ heights.getLast?.toList).toArray.size = n + 1 ∧
      (heights ++ heights.getLast?.toList).toArray[n]? =
        (heights ++ heights.getLast?.toList).toArray[n - 1]? ∧
      ∀ p ∈ (heights ++ heights.getLast?.toList).toArray, p ∈ heights := by
  have hne : heights ≠ [] := List.ne_nil_of_length_pos (hlength ▸ hpos)
  have hlast : heights.getLast?.toList = [heights.getLast hne] := by
    rw [List.getLast?_eq_some_getLast hne, Option.toList_some]
  rw [hlast]
  refine ⟨?size, ?twice, ?mem⟩
  case size => rw [List.size_toArray, List.length_append, hlength, List.length_singleton]
  case twice =>
    rw [List.getElem?_toArray, List.getElem?_toArray, ← hlength, List.getElem?_concat_length,
      List.getElem?_append_left (by omega), ← List.getLast?_eq_getElem?,
      List.getLast?_eq_some_getLast hne]
  case mem =>
    intro p hp
    rcases List.mem_append.mp (List.mem_toArray.mp hp) with hp | hp
    · exact hp
    · rw [List.mem_singleton.mp hp]
      exact List.getLast_mem hne

/-! ## Places of break points -/

section Node

variable (hn : n ≤ maxBreakPoints) (hx : Value (Scalar.clampUnit x) v) (hk : v * n = k)
  (hle : k ≤ n)
include hn hx hk hle

/-- A whole number of segments along, the position is that number and nothing is left. -/
theorem value_along : Value (Scalar.clampUnit x * ((n : ℤ) : α)) k := by
  have hcount (i : ℕ) (hi : i ≤ n) : Value ((i : ℤ) : α) i := by
    have hmost : maxBreakPoints ≤ Generator.unitCount := by decide
    exact_mod_cast (value_intCast (α := α) (n := i) (by rw [Nat.abs_cast]; omega))
  have hself : RoundsTo α (v * n) k := by
    rw [hk]
    exact roundsTo_self (hcount k hle)
  exact value_mul hx (hcount n le_rfl) hself

theorem truncate_along : Scalar.truncate (Scalar.clampUnit x * ((n : ℤ) : α)) = .ok (k : ℤ) := by
  rw [truncate_eq (value_along hn hx hk hle), if_pos k.cast_nonneg, Int.floor_natCast]

/-- At the place of a break point the curve has its height, although the next one is read. -/
theorem segments_node (hsize : points.size = n + 2) (hdrawn : ∀ p ∈ points, Drawn p) :
    ∃ y, segments points x = .ok y ∧ (y == points.getD k 0) = true := by
  have hcount : (points.size : ℤ) - 2 = n := by omega
  have hleft : Samples.get points (k : ℤ) = .ok points[k] := Samples.get_natCast (by omega)
  have hright : Samples.get points ((k : ℤ) + 1) = .ok points[k + 1] :=
    Samples.get_natCast (i := k + 1) (by omega)
  have hposition : Value ((k : ℤ) : α) k := by
    have hmost : maxBreakPoints ≤ Generator.unitCount := by decide
    exact_mod_cast (value_intCast (α := α) (n := k) (by rw [Nat.abs_cast]; omega))
  obtain ⟨w, hw, hwlow, hwhigh⟩ := (hdrawn _ (Array.getElem_mem (by omega : k < _))).inUnit
  obtain ⟨w', hw', hwlow', hwhigh'⟩ :=
    (hdrawn _ (Array.getElem_mem (by omega : k + 1 < _))).inUnit
  have hminus : RoundsTo α (-1) (-1) := roundsTo_self (value_neg value_one)
  obtain ⟨d, hd, _⟩ := Scalar.exists_roundsTo_between hminus Scalar.roundsTo_one
    (show -1 ≤ w' - w by linarith) (by linarith)
  have hzero : RoundsTo α 0 0 := Scalar.roundsTo_zero
  have hshare : Value (Scalar.clampUnit x * ((n : ℤ) : α) - ((k : ℤ) : α)) 0 :=
    value_sub (value_along hn hx hk hle) hposition (by rwa [sub_self])
  have hrise : Value ((Scalar.clampUnit x * ((n : ℤ) : α) - ((k : ℤ) : α)) *
      (points[k + 1] - points[k])) 0 :=
    value_mul hshare (value_sub hw' hw hd) (by rwa [zero_mul])
  have hsum : Value (points[k] + (Scalar.clampUnit x * ((n : ℤ) : α) - ((k : ℤ) : α)) *
      (points[k + 1] - points[k])) w :=
    value_add hw hrise (by rw [add_zero]; exact roundsTo_self hw)
  refine ⟨_, ?_, (beq_iff hsum ?_).mpr rfl⟩
  · unfold segments
    simp only [hcount, truncate_along hn hx hk hle]
    change Samples.line points k _ = _
    unfold Samples.line
    rw [hleft, hright]
    rfl
  · rwa [Array.getD_eq_getD_getElem?, Array.getElem?_eq_getElem (by omega), Option.getD_some]

/-- From the place where a plateau begins it is held. -/
theorem plateaus_node (hsize : points.size = n + 1) (hdrawn : ∀ p ∈ points, Drawn p) :
    ∃ y, plateaus points x = .ok y ∧ (y == points.getD k 0) = true := by
  have hcount : (points.size : ℤ) - 1 = n := by omega
  have hget : Samples.get points (k : ℤ) = .ok points[k] := Samples.get_natCast (by omega)
  obtain ⟨w, hw, _⟩ := (hdrawn _ (Array.getElem_mem (by omega : k < _))).inUnit
  refine ⟨points[k], ?_, (beq_iff hw ?_).mpr rfl⟩
  · unfold plateaus
    simp only [hcount, truncate_along hn hx hk hle]
    exact hget
  · rwa [Array.getD_eq_getD_getElem?, Array.getElem?_eq_getElem (by omega), Option.getD_some]

end Node

end Rounded

end Transform

/-! ## Doubles -/

namespace Float64

open Transform (Drawn)

/-- What doubles make of break points. They are drawn from zero up to but not including one.
There is a value in the unit interval at every place that is defined, and beyond the ends
of the unit interval the outer break points are held. -/
structure Replays (t : Transform) (points : Array Float) (last : ℕ) : Prop where
  drawn : ∀ p ∈ points, 0 ≤ p ∧ p < 1
  value : ∀ x : Float, Scalar.isNaN x = false → ∃ y, t.eval points x = .ok y ∧ 0 ≤ y ∧ y ≤ 1
  below : ∀ x : Float, x < 0 → ∃ y, t.eval points x = .ok y ∧ (y == points.getD 0 0) = true
  above : ∀ x : Float, 1 ≤ x → ∃ y, t.eval points x = .ok y ∧ (y == points.getD last 0) = true

variable {points : Array Float} {n : ℕ}

theorem bounds_of_drawn {p : Float} (hp : Drawn p) : 0 ≤ p ∧ p < 1 := by
  obtain ⟨k, hk, hvalue⟩ := hp
  have hpos := Transform.unitCount_pos
  constructor
  · refine (Value.le_iff value_zero hvalue).mpr ?_
    positivity
  · refine (Value.lt_iff hvalue standsFor_one.value).mpr ?_
    rw [div_lt_one hpos]
    exact Nat.cast_lt.mpr hk

/-- A curve that asks only for the place in the unit interval has values everywhere. -/
theorem exists_eval_of_keepsUnit {f : Float → Except EvalFault Float}
    (hkeeps : Scalar.KeepsUnit f)
    (hheld : ∀ x y, Scalar.clampUnit x = Scalar.clampUnit y → f x = f y) {x : Float}
    (hx : Scalar.isNaN x = false) : ∃ y, f x = .ok y ∧ 0 ≤ y ∧ y ≤ 1 := by
  have hunit := inUnit_clampUnit hx
  obtain ⟨y, hy, w, hw, hlow, hhigh⟩ := hkeeps _ hunit
  rw [hheld _ x (Scalar.clampUnit_eq hunit)] at hy
  exact ⟨y, hy, (Value.le_iff value_zero hw).mpr hlow,
    (Value.le_iff hw standsFor_one.value).mpr hhigh⟩

theorem value_clampUnit_of_neg {x : Float} (h : x < 0) : Value (Scalar.clampUnit x) 0 := by
  rw [Scalar.clampUnit_of_neg h]
  exact value_zero

theorem replays_segments (hn : n ≤ Transform.maxBreakPoints) (hsize : points.size = n + 2)
    (hdrawn : ∀ p ∈ points, Drawn p) : Replays .random points n where
  drawn p hp := bounds_of_drawn (hdrawn p hp)
  value x hx := by
    refine exists_eval_of_keepsUnit (Transform.segments_keepsUnit hn hsize hdrawn) ?_ hx
    intro x y h
    unfold Transform.segments
    rw [h]
  below x hx := Transform.segments_node hn (value_clampUnit_of_neg hx) (by simp) n.zero_le hsize
    hdrawn
  above x hx := Transform.segments_node hn (value_clampUnit_of_one_le hx) (one_mul _) le_rfl hsize
    hdrawn

theorem replays_plateaus (hn : n ≤ Transform.maxBreakPoints) (hsize : points.size = n + 1)
    (hdrawn : ∀ p ∈ points, Drawn p) (hlast : points[n]? = points[n - 1]?) :
    Replays .squareRandom points (n - 1) where
  drawn p hp := bounds_of_drawn (hdrawn p hp)
  value x hx := by
    refine exists_eval_of_keepsUnit (Transform.plateaus_keepsUnit hn hsize hdrawn) ?_ hx
    intro x y h
    unfold Transform.plateaus
    rw [h]
  below x hx :=
    Transform.plateaus_node hn (value_clampUnit_of_neg hx) (by simp) n.zero_le hsize hdrawn
  above x hx := by
    obtain ⟨y, hy, hlevel⟩ := Transform.plateaus_node hn (value_clampUnit_of_one_le hx)
      (one_mul _) le_rfl hsize hdrawn
    rw [Array.getD_eq_getD_getElem?, hlast, ← Array.getD_eq_getD_getElem?] at hlevel
    exact ⟨y, hy, hlevel⟩

end Float64

/-! ## Exact arithmetic -/

namespace Rational

/-- A curve that joins so many points and one more, at equal distances in the unit interval,
by straight lines. -/
structure Polyline (n : ℕ) (p : ℕ → ℚ) (f : ℚ → ℚ) : Prop where
  node : ∀ i ≤ n, f (i / n) = p i
  straight : ∀ i < n, ∀ x : ℚ, InCell n i x →
    f x = chord (i / n) (p i) ((i + 1) / n) (p (i + 1)) x
  between : ∀ x : ℚ, ∃ i < n, min (p i) (p (i + 1)) ≤ f x ∧ f x ≤ max (p i) (p (i + 1))
  below : ∀ x : ℚ, x ≤ 0 → f x = p 0
  above : ∀ x : ℚ, 1 ≤ x → f x = p n

/-- A curve that holds each of so many heights over an equal part of the unit interval. -/
structure Staircase (n : ℕ) (p : ℕ → ℚ) (f : ℚ → ℚ) : Prop where
  plateau : ∀ x : ℚ, 0 ≤ x → x < 1 → ⌊x * n⌋₊ < n ∧ f x = p ⌊x * n⌋₊
  below : ∀ x : ℚ, x < 0 → f x = p 0
  above : ∀ x : ℚ, 1 ≤ x → f x = p (n - 1)

/-- How many parts of the unit interval a number is along. -/
def along (n : ℕ) (x : ℚ) : ℚ := min (max x 0) 1 * n

def polyline (n : ℕ) (p : ℕ → ℚ) (x : ℚ) : ℚ :=
  p ⌊along n x⌋₊ + (along n x - ⌊along n x⌋₊) * (p (⌊along n x⌋₊ + 1) - p ⌊along n x⌋₊)

def staircase (n : ℕ) (p : ℕ → ℚ) (x : ℚ) : ℚ := p ⌊along n x⌋₊

variable {n : ℕ} {p q : ℕ → ℚ} {x : ℚ}

theorem along_of_le (h : x ≤ 0) : along n x = 0 := by
  rw [along, max_eq_right h, min_eq_left zero_le_one, zero_mul]

theorem along_of_ge (h : 1 ≤ x) : along n x = n := by
  rw [along, max_eq_left (zero_le_one.trans h), min_eq_right h, one_mul]

theorem along_of_mem (hlow : 0 ≤ x) (hhigh : x ≤ 1) : along n x = x * n := by
  rw [along, max_eq_left hlow, min_eq_left hhigh]

theorem along_mem (n : ℕ) (x : ℚ) : 0 ≤ along n x ∧ along n x ≤ n := by
  have hlow : 0 ≤ min (max x 0) 1 := le_min (le_max_right x 0) zero_le_one
  have hhigh : min (max x 0) 1 ≤ 1 := min_le_right _ _
  exact ⟨mul_nonneg hlow n.cast_nonneg, mul_le_of_le_one_left n.cast_nonneg hhigh⟩

/-! ### Straight lines -/

theorem polyline_of_le (h : x ≤ 0) : polyline n p x = p 0 := by
  rw [polyline, along_of_le h, Nat.floor_zero, Nat.cast_zero, sub_zero, zero_mul, add_zero]

theorem polyline_of_ge (h : 1 ≤ x) : polyline n p x = p n := by
  rw [polyline, along_of_ge h, Nat.floor_natCast, sub_self, zero_mul, add_zero]

/-- In a cell, its ends included, the curve is the line between the points there. -/
theorem polyline_of_inCell {i : ℕ} (hi : i < n) (h : InCell n i x) :
    polyline n p x = p i + (x * n - i) * (p (i + 1) - p i) := by
  obtain ⟨hlow, hhigh⟩ := h.mem_unit hi
  obtain ⟨hshareLow, hshareHigh⟩ := h.share_mem hi
  rw [polyline, along_of_mem hlow hhigh]
  rcases hshareHigh.lt_or_eq with hlt | heq
  · have hfloor : ⌊x * n⌋₊ = i := by
      rw [Nat.floor_eq_iff (by linarith [i.cast_nonneg (α := ℚ)])]
      constructor <;> linarith
    rw [hfloor]
  · -- The number is the right end of the cell, where the next one begins.
    have hend : x * n = (i + 1 : ℕ) := by
      push_cast
      linarith
    rw [hend, Nat.floor_natCast]
    push_cast
    ring

/-- Every place is below the unit interval, above it or in one of its cells. -/
theorem place_cases (hpos : 0 < n) (x : ℚ) : x ≤ 0 ∨ 1 ≤ x ∨ ∃ i < n, InCell n i x := by
  rcases le_or_gt x 0 with hbelow | hlow
  · exact .inl hbelow
  · rcases le_or_gt 1 x with habove | hhigh
    · exact .inr (.inl habove)
    · exact .inr (.inr (exists_inCell hpos hlow.le hhigh.le))

/-- What stands behind the last point is not seen. -/
theorem polyline_congr (hpos : 0 < n) (h : ∀ i ≤ n, p i = q i) (x : ℚ) :
    polyline n p x = polyline n q x := by
  rcases place_cases hpos x with hbelow | habove | ⟨i, hi, hcell⟩
  · rw [polyline_of_le hbelow, polyline_of_le hbelow, h 0 n.zero_le]
  · rw [polyline_of_ge habove, polyline_of_ge habove, h n le_rfl]
  · rw [polyline_of_inCell hi hcell, polyline_of_inCell hi hcell, h i hi.le, h (i + 1) hi]

/-- A number between zero and one leads from a number to one between it and another. -/
theorem mem_between {t : ℚ} (hlow : 0 ≤ t) (hhigh : t ≤ 1) (a b : ℚ) :
    min a b ≤ a + t * (b - a) ∧ a + t * (b - a) ≤ max a b := by
  rcases le_total a b with hle | hle
  · rw [min_eq_left hle, max_eq_right hle]
    constructor <;> nlinarith
  · rw [min_eq_right hle, max_eq_left hle]
    constructor <;> nlinarith

theorem polyline_spec (hpos : 0 < n) (p : ℕ → ℚ) : Polyline n p (polyline n p) where
  below _ h := polyline_of_le h
  above _ h := polyline_of_ge h
  straight := by
    intro i hi x hcell
    rw [polyline_of_inCell hi hcell, chord_eq hpos]
  node := by
    intro i hi
    have hcast : (n : ℚ) ≠ 0 := Nat.cast_ne_zero.mpr hpos.ne'
    rcases hi.lt_or_eq with hlt | rfl
    · rw [polyline_of_inCell hlt (InCell.left hlt), div_mul_cancel₀ _ hcast, sub_self, zero_mul,
        add_zero]
    · rw [div_self hcast, polyline_of_ge le_rfl]
  between := by
    intro x
    rcases place_cases hpos x with hbelow | habove | ⟨i, hi, hcell⟩
    · rw [polyline_of_le hbelow]
      exact ⟨0, hpos, min_le_left _ _, le_max_left _ _⟩
    · refine ⟨n - 1, by omega, ?_⟩
      rw [polyline_of_ge habove, Nat.sub_add_cancel hpos]
      exact ⟨min_le_right _ _, le_max_right _ _⟩
    · obtain ⟨hlow, hhigh⟩ := hcell.share_mem hi
      rw [polyline_of_inCell hi hcell]
      exact ⟨i, hi, mem_between hlow hhigh _ _⟩

/-! ### Plateaus -/

theorem staircase_spec (hpos : 0 < n) (hlast : p n = p (n - 1)) :
    Staircase n p (staircase n p) where
  plateau := by
    intro x hlow hhigh
    have hcast : (0 : ℚ) < n := Nat.cast_pos.mpr hpos
    rw [staircase, along_of_mem hlow hhigh.le, Nat.floor_lt (mul_nonneg hlow hcast.le)]
    exact ⟨mul_lt_of_lt_one_left hcast hhigh, rfl⟩
  below := by
    intro x hx
    rw [staircase, along_of_le hx.le, Nat.floor_zero]
  above := by
    intro x hx
    rw [staircase, along_of_ge hx, Nat.floor_natCast, hlast]

/-! ### What transforms compute -/

variable [Elementary ℚ] {points : Array ℚ}

theorem clampUnit_eq (x : ℚ) : Scalar.clampUnit x = min (max x 0) 1 := by
  have hlarger : Scalar.larger x 0 = max x 0 := by
    rw [max_def, Scalar.larger]
    split <;> split <;> linarith
  rw [Scalar.clampUnit, hlarger, min_def, Scalar.smaller]
  split <;> split <;> linarith

theorem truncate_along (n : ℕ) (x : ℚ) :
    Scalar.truncate (Scalar.clampUnit x * ((n : ℤ) : ℚ)) = .ok (⌊along n x⌋₊ : ℤ) ∧
      ⌊along n x⌋₊ ≤ n := by
  obtain ⟨hlow, hhigh⟩ := along_mem n x
  have halong : Scalar.clampUnit x * ((n : ℤ) : ℚ) = along n x := by
    rw [clampUnit_eq, Int.cast_natCast, along]
  rw [halong, truncate_of_nonneg hlow, Int.natCast_floor_eq_floor hlow]
  exact ⟨rfl, Nat.floor_le_of_le hhigh⟩

omit [Elementary ℚ] in
theorem get_eq {i : ℕ} (hi : i < points.size) :
    Samples.get points i = .ok (points.getD i 0) := by
  rw [Samples.get_natCast hi, Array.getD_eq_getD_getElem?, Array.getElem?_eq_getElem hi,
    Option.getD_some]

theorem eval_random (hsize : points.size = n + 2) (x : ℚ) :
    Transform.eval .random points x = .ok (polyline n (points.getD · 0) x) := by
  obtain ⟨htruncate, hle⟩ := truncate_along n x
  have hcount : (points.size : ℤ) - 2 = n := by omega
  have hleft := get_eq (show ⌊along n x⌋₊ < points.size by omega)
  have hright := get_eq (show ⌊along n x⌋₊ + 1 < points.size by omega)
  have halong : Scalar.clampUnit x * ((n : ℤ) : ℚ) = along n x := by
    rw [clampUnit_eq, Int.cast_natCast, along]
  change Transform.segments points x = _
  unfold Transform.segments
  simp only [hcount, htruncate]
  change Samples.line points ⌊along n x⌋₊ _ = _
  unfold Samples.line
  rw [hleft, ← Int.natCast_succ, hright, halong]
  rfl

theorem eval_squareRandom (hsize : points.size = n + 1) (x : ℚ) :
    Transform.eval .squareRandom points x = .ok (staircase n (points.getD · 0) x) := by
  obtain ⟨htruncate, hle⟩ := truncate_along n x
  have hcount : (points.size : ℤ) - 1 = n := by omega
  change Transform.plateaus points x = _
  unfold Transform.plateaus
  simp only [hcount, htruncate]
  exact get_eq (by omega)

end Rational

namespace Transform

open Float64 (Replays)

/-- An accepted count has a whole part, and so many break points are drawn for plateaus, the
last of them being entered twice, and two more for segments. They replay in doubles, at
infinite places as well, and so do any other draws of that number. In exact arithmetic the
curve through any such array joins the points in front of the last entry, which it does not
depend on, or holds them. -/
theorem break_points_are_replayed [Elementary ℚ] :
    (∀ (count : Float) (g : Generator), random.rejected? [count] = .ok none →
      ∃ (v : ℚ) (points : Array Float), Float64.Value count v ∧ 0 < ⌊v⌋₊ ∧
        (random.resolve [count] g).1 = ⟨[], .ok points⟩ ∧ points.size = ⌊v⌋₊ + 2 ∧
        Replays random points ⌊v⌋₊) ∧
    (∀ (count : Float) (g : Generator), squareRandom.rejected? [count] = .ok none →
      ∃ (v : ℚ) (points : Array Float), Float64.Value count v ∧ 0 < ⌊v⌋₊ ∧
        (squareRandom.resolve [count] g).1 = ⟨[], .ok points⟩ ∧ points.size = ⌊v⌋₊ + 1 ∧
        points[⌊v⌋₊]? = points[⌊v⌋₊ - 1]? ∧ Replays squareRandom points (⌊v⌋₊ - 1)) ∧
    (∀ (n : ℕ) (draws : List Float), n ≤ maxBreakPoints → draws.length = n + 2 →
      (∀ p ∈ draws, Drawn p) → Replays random draws.toArray n) ∧
    (∀ (n : ℕ) (draws : List Float), 0 < n → n ≤ maxBreakPoints → draws.length = n →
      (∀ p ∈ draws, Drawn p) →
        Replays squareRandom (draws ++ draws.getLast?.toList).toArray (n - 1)) ∧
    (∀ (n : ℕ) (points : Array ℚ), 0 < n → points.size = n + 2 →
      ∃ f, (∀ x, random.eval points x = .ok (f x)) ∧ Rational.Polyline n (points.getD · 0) f ∧
        ∀ spare x, random.eval (points.setIfInBounds (n + 1) spare) x = .ok (f x)) ∧
    ∀ (n : ℕ) (points : Array ℚ), 0 < n → points.size = n + 1 → points[n]? = points[n - 1]? →
      ∃ f, (∀ x, squareRandom.eval points x = .ok (f x)) ∧
        Rational.Staircase n (points.getD · 0) f := by
  have hsegments (n : ℕ) (draws : List Float) (hle : n ≤ maxBreakPoints)
      (hlength : draws.length = n + 2) (hdrawn : ∀ p ∈ draws, Drawn p) :
      Replays random draws.toArray n :=
    Float64.replays_segments hle hlength fun p hp => hdrawn p (List.mem_toArray.mp hp)
  have hplateaus (n : ℕ) (draws : List Float) (hpos : 0 < n) (hle : n ≤ maxBreakPoints)
      (hlength : draws.length = n) (hdrawn : ∀ p ∈ draws, Drawn p) :
      Replays squareRandom (draws ++ draws.getLast?.toList).toArray (n - 1) := by
    obtain ⟨hsize, hlast, hmem⟩ := heights_last hlength hpos
    exact Float64.replays_plateaus hle hsize (fun p hp => hdrawn p (hmem p hp)) hlast
  refine ⟨?drawnSegments, ?drawnPlateaus, hsegments, hplateaus, ?polyline, ?staircase⟩
  case drawnSegments =>
    intro count g haccepted
    obtain ⟨v, hv, hpos, hle, hcount⟩ := exists_count (.inl rfl) haccepted
    have hlength := Generator.length_units (α := Float) (⌊v⌋₊ + 2) g
    exact ⟨v, _, hv, hpos, resolve_random haccepted hcount g, hlength,
      hsegments _ _ hle hlength fun p => Generator.drawn_of_mem_units⟩
  case drawnPlateaus =>
    intro count g haccepted
    obtain ⟨v, hv, hpos, hle, hcount⟩ := exists_count (.inr rfl) haccepted
    have hlength := Generator.length_units (α := Float) ⌊v⌋₊ g
    obtain ⟨hsize, hlast, _⟩ := heights_last hlength hpos
    exact ⟨v, _, hv, hpos, resolve_squareRandom haccepted hcount g, hsize, hlast,
      hplateaus _ _ hpos hle hlength fun p => Generator.drawn_of_mem_units⟩
  case polyline =>
    intro n points hpos hsize
    refine ⟨_, Rational.eval_random hsize, Rational.polyline_spec hpos _, fun spare x => ?_⟩
    rw [Rational.eval_random (by rwa [Array.size_setIfInBounds]), Except.ok.injEq]
    refine Rational.polyline_congr hpos (fun i hi => ?_) x
    rw [Array.getD_eq_getD_getElem?, Array.getElem?_setIfInBounds_ne (by omega),
      ← Array.getD_eq_getD_getElem?]
  case staircase =>
    intro n points hpos hsize hlast
    refine ⟨_, Rational.eval_squareRandom hsize, Rational.staircase_spec hpos ?_⟩
    simp only [Array.getD_eq_getD_getElem?, hlast]

/-- Three points are drawn for a count of 3.7, and two more, which an infinite place does not
read beyond. One segment and two plateaus stand for other draws, two segments and two plateaus
for the exact curves. -/
theorem break_points_are_replayed_at_infinity :
    let _ := Session.linear
    (∃ points : Array Float, (random.resolve [3.7] (.ofSeed 1)).1 = ⟨[], .ok points⟩ ∧
      points.size = 5 ∧
      ∃ y, random.eval points (1 / 0) = .ok y ∧ (y == points.getD 3 0) = true) ∧
    (∃ points : Array Float, (squareRandom.resolve [3.7] (.ofSeed 1)).1 = ⟨[], .ok points⟩ ∧
      points.size = 4 ∧
      ∃ y, squareRandom.eval points (1 / 0) = .ok y ∧ (y == points.getD 2 0) = true) ∧
    (∃ y, random.eval #[Scalar.half, 0, Scalar.half] (-1 / 0 : Float) = .ok y ∧
      (y == Scalar.half) = true) ∧
    (∃ y, squareRandom.eval #[0, Scalar.half, Scalar.half] (1 : Float) = .ok y ∧
      (y == Scalar.half) = true) ∧
    random.eval #[1 / 8, 1 / 2, 1 / 4, 3 / 4] (1 : ℚ) = .ok (1 / 4) ∧
    squareRandom.eval #[1 / 8, 1 / 2, 1 / 2] (2 : ℚ) = .ok (1 / 2) := by
  intro _
  have hfloor {v : ℚ} (hv : Float64.Value 3.7 v) (hpos : 0 < ⌊v⌋₊) : ⌊v⌋₊ = 3 := by
    have hnonneg : 0 ≤ v := zero_le_one.trans (Nat.floor_pos.mp hpos)
    have htruncate := hv.truncate_eq
    rw [if_pos hnonneg, ← Int.natCast_floor_eq_floor hnonneg] at htruncate
    have hthree : Scalar.truncate (3.7 : Float) = .ok 3 := by decide +kernel
    rw [hthree, Except.ok.injEq] at htruncate
    exact_mod_cast htruncate.symm
  obtain ⟨hrandom, hsquare, hsegments, hplateaus, hpolyline, hstaircase⟩ :=
    break_points_are_replayed
  obtain ⟨v, points, hv, hpos, hresolve, hsize, hreplays⟩ :=
    hrandom 3.7 (.ofSeed 1) (by decide +kernel)
  obtain ⟨w, heights, hw, hwpos, hresolve', hsize', _, hreplays'⟩ :=
    hsquare 3.7 (.ofSeed 1) (by decide +kernel)
  have hzero : Drawn (0 : Float) := by
    refine ⟨0, by decide, ?_⟩
    rw [Nat.cast_zero, zero_div]
    exact Float64.value_zero
  have hhalf : Drawn (Scalar.half : Float) := by
    refine ⟨2 ^ 52, by decide, ?_⟩
    have hvalue : Value (Scalar.half : Float) (1 / 2) := Scalar.value_half
    have hequal : ((2 ^ 52 : ℕ) : ℚ) / Generator.unitCount = 1 / 2 := by
      norm_num [Generator.unitCount]
    exact hequal ▸ hvalue
  have hone := hsegments 1 [Scalar.half, 0, Scalar.half] (by decide) rfl (by simp [hzero, hhalf])
  have htwo := hplateaus 2 [0, Scalar.half] (by decide) (by decide) rfl (by simp [hzero, hhalf])
  obtain ⟨f, hf, hjoins, _⟩ := hpolyline 2 #[1 / 8, 1 / 2, 1 / 4, 3 / 4] (by decide) rfl
  obtain ⟨h, hh, hholds⟩ := hstaircase 2 #[1 / 8, 1 / 2, 1 / 2] (by decide) rfl rfl
  rw [hfloor hv hpos] at hsize hreplays
  rw [hfloor hw hwpos] at hsize' hreplays'
  refine ⟨⟨points, hresolve, hsize, hreplays.above _ (by decide +kernel)⟩,
    ⟨heights, hresolve', hsize', hreplays'.above _ (by decide +kernel)⟩,
    hone.below _ (by decide +kernel), htwo.above _ (by decide +kernel), ?_, ?_⟩
  · rw [hf, hjoins.above 1 le_rfl]
    rfl
  · rw [hh, hholds.above 2 one_le_two]
    rfl

end Transform

end Easing
