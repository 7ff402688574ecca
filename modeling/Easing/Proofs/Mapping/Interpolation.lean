import Easing.Proofs.Mapping.Coordinates
import Easing.Proofs.Range.Folding

/-! # Tables between their places

A table answers with the number on the line between the samples around a place. At
its last place the sample that is there twice stands on both sides. In exact
arithmetic the answer is as close to the value of the function as the slope of the
function and the width of a cell let it be.
-/

namespace Easing

namespace Table

variable {α : Type} [Scalar α] {f : α → Except EvalFault α} {resolution : Nat} {range : Range α}
  {table : Table α}

variable (h : ofFunction f resolution (some range) = .ok table)
include h

theorem resolution_ofFunction : table.resolution = resolution := by
  obtain ⟨_, _, rfl⟩ := ofFunction_eq_ok_iff.mp h
  rfl

/-- The sample at a position is the value at the place of that number, and at the last
position, which is beyond the places, the value at the last place. -/
theorem get_ofFunction {k : Nat} (hk : k ≤ resolution + 1) :
    ∃ y, f (place resolution (min k resolution)) = .ok y ∧
      Samples.get table.samples k = .ok (range.fromUnit y) := by
  obtain ⟨samples, hsample, htable⟩ := ofFunction_eq_ok_iff.mp h
  obtain ⟨hlength, hvalues, hlast⟩ := sample_spec hsample
  obtain ⟨y, hy, hget⟩ := hvalues (min k resolution) (Nat.min_le_right k resolution)
  have hsize : k < table.samples.size := by
    rw [htable, List.size_toArray, List.length_map, hlength]
    omega
  have hsampled : samples[k]? = some y := by
    rcases Nat.lt_or_ge resolution k with hbeyond | hwithin
    · obtain rfl : k = resolution + 1 := by omega
      rw [hlast, ← hget, Nat.min_eq_right (Nat.le_succ resolution)]
    · rw [← hget, Nat.min_eq_left hwithin]
  refine ⟨y, hy, ?_⟩
  rw [Samples.get_natCast hsize, Except.ok.injEq]
  have hunits : table.samples[k]? = some (range.fromUnit y) := by
    rw [htable, List.getElem?_toArray, List.getElem?_map, hsampled, Option.map_some]
  exact (Array.getElem?_eq_some_iff.mp hunits).2

end Table

namespace Rational

/-! ## Cells -/

/-- Whether a number is in a cell of the unit interval, its ends included. -/
def InCell (resolution k : ℕ) (x : ℚ) : Prop :=
  (k : ℚ) / resolution ≤ x ∧ x ≤ (k + 1 : ℚ) / resolution

namespace InCell

variable {resolution k : ℕ} (hk : k < resolution)
include hk

theorem left : InCell resolution k (k / resolution) :=
  ⟨le_rfl, (div_le_div_iff_of_pos_right (Nat.cast_pos.mpr (by omega))).mpr (by linarith)⟩

theorem right : InCell resolution k ((k + 1) / resolution) :=
  ⟨(div_le_div_iff_of_pos_right (Nat.cast_pos.mpr (by omega))).mpr (by linarith), le_rfl⟩

theorem mem_unit {x : ℚ} (h : InCell resolution k x) : 0 ≤ x ∧ x ≤ 1 := by
  have hcast : (0 : ℚ) < resolution := Nat.cast_pos.mpr (by omega)
  have hnext : ((k : ℚ) + 1) / resolution ≤ 1 := by
    rw [div_le_one hcast]
    exact_mod_cast hk
  exact ⟨(div_nonneg k.cast_nonneg hcast.le).trans h.1, h.2.trans hnext⟩

/-- How far along its cell a number is. -/
theorem share_mem {x : ℚ} (h : InCell resolution k x) :
    0 ≤ x * resolution - k ∧ x * resolution - k ≤ 1 := by
  have hcast : (0 : ℚ) < resolution := Nat.cast_pos.mpr (by omega)
  have hlow := (div_le_iff₀ hcast).mp h.1
  have hhigh := (le_div_iff₀ hcast).mp h.2
  constructor <;> linarith

end InCell

theorem exists_inCell {resolution : ℕ} (hpos : 1 ≤ resolution) {x : ℚ} (hlow : 0 ≤ x)
    (hhigh : x ≤ 1) : ∃ k < resolution, InCell resolution k x := by
  have hcast : (0 : ℚ) < resolution := Nat.cast_pos.mpr hpos
  obtain ⟨k, hk⟩ := Int.eq_ofNat_of_zero_le (Int.floor_nonneg.mpr (mul_nonneg hlow hcast.le))
  have hfloor := Int.floor_le (x * resolution)
  have hnext := Int.lt_floor_add_one (x * resolution)
  rw [hk, Int.cast_natCast] at hfloor hnext
  rcases Nat.lt_or_ge k resolution with hlt | hge
  · exact ⟨k, hlt, (div_le_iff₀ hcast).mpr hfloor, (le_div_iff₀ hcast).mpr hnext.le⟩
  · -- The number is one, which ends the last cell.
    have hle : (resolution : ℚ) ≤ k := Nat.cast_le.mpr hge
    obtain rfl : x = 1 := le_antisymm hhigh (le_of_mul_le_mul_right (by linarith) hcast)
    refine ⟨resolution - 1, by omega, ?_, ?_⟩
    · rw [div_le_one hcast]
      exact Nat.cast_le.mpr (Nat.sub_le resolution 1)
    · rw [Nat.cast_sub hpos, Nat.cast_one, sub_add_cancel, div_self hcast.ne']

/-- The places of a table are in the unit interval. -/
theorem place_mem {resolution k : ℕ} (hk : k ≤ resolution) :
    (0 : ℚ) ≤ k / resolution ∧ (k : ℚ) / resolution ≤ 1 :=
  ⟨by positivity, div_le_one_of_le₀ (Nat.cast_le.mpr hk) resolution.cast_nonneg⟩

/-! ## Functions that change slowly -/

/-- A function with values in the whole unit interval that are at most so many times as
far apart as the places. -/
def Lipschitz (f : ℚ → Except EvalFault ℚ) (slope : ℚ) : Prop :=
  ∀ u v, 0 ≤ u → u ≤ 1 → 0 ≤ v → v ≤ 1 →
    ∃ y z, f u = .ok y ∧ f v = .ok z ∧ |y - z| ≤ slope * |u - v|

section Lipschitz

variable {f : ℚ → Except EvalFault ℚ} {slope : ℚ} (hf : Lipschitz f slope)

include hf

theorem Lipschitz.exists_value {u : ℚ} (hlow : 0 ≤ u) (hhigh : u ≤ 1) : ∃ y, f u = .ok y := by
  obtain ⟨y, _, hy, _, _⟩ := hf u u hlow hhigh hlow hhigh
  exact ⟨y, hy⟩

theorem Lipschitz.abs_sub_le {u v y z : ℚ} (hu : 0 ≤ u ∧ u ≤ 1) (hv : 0 ≤ v ∧ v ≤ 1)
    (hy : f u = .ok y) (hz : f v = .ok z) : |y - z| ≤ slope * |u - v| := by
  obtain ⟨y', z', hy', hz', hle⟩ := hf u v hu.1 hu.2 hv.1 hv.2
  rw [hy, Except.ok.injEq] at hy'
  rw [hz, Except.ok.injEq] at hz'
  rwa [hy', hz']

theorem Lipschitz.slope_nonneg : 0 ≤ slope := by
  obtain ⟨y, z, _, _, hle⟩ := hf 0 1 le_rfl zero_le_one zero_le_one le_rfl
  have habs : |(0 : ℚ) - 1| = 1 := by norm_num
  rw [habs, mul_one] at hle
  exact (abs_nonneg _).trans hle

end Lipschitz

/-- A number between two others is as close to a third as these are, on average. -/
theorem abs_between_sub_le {y z v t left right : ℚ} (hlow : 0 ≤ t) (hhigh : t ≤ 1)
    (hleft : |y - v| ≤ left) (hright : |z - v| ≤ right) :
    |y + t * (z - y) - v| ≤ (1 - t) * left + t * right := by
  have hsplit : y + t * (z - y) - v = (1 - t) * (y - v) + t * (z - v) := by ring
  calc |y + t * (z - y) - v|
      ≤ |(1 - t) * (y - v)| + |t * (z - v)| := by
        rw [hsplit]
        exact abs_add_le _ _
    _ = (1 - t) * |y - v| + t * |z - v| := by
        rw [abs_mul, abs_mul, abs_of_nonneg (sub_nonneg.mpr hhigh), abs_of_nonneg hlow]
    _ ≤ (1 - t) * left + t * right :=
        add_le_add (mul_le_mul_of_nonneg_left hleft (sub_nonneg.mpr hhigh))
          (mul_le_mul_of_nonneg_left hright hlow)

/-! ## Lookups -/

variable [Elementary ℚ] {f : ℚ → Except EvalFault ℚ} {resolution : Nat} {range : Range ℚ}
  {table : Table ℚ}

theorem place_eq (resolution k : Nat) :
    (Table.place resolution k : ℚ) = (k : ℚ) / (resolution : ℚ) := rfl

/-- In the unit interval a table answers with the number between the values at the
places around, in the units of its range. -/
theorem eval_ofFunction (h : Table.ofFunction f resolution (some range) = .ok table) {u : ℚ}
    (hlow : 0 ≤ u) (hhigh : u ≤ 1) :
    ∃ (k : Nat) (y z : ℚ), k ≤ resolution ∧ (k : ℚ) ≤ u * resolution ∧
      u * resolution < (k : ℚ) + 1 ∧ f (Table.place resolution k) = .ok y ∧
      f (Table.place resolution (min (k + 1) resolution)) = .ok z ∧
      table.eval u = .ok (range.fromUnit (y + (u * resolution - k) * (z - y))) := by
  have hresolution := Table.resolution_ofFunction h
  have halong : 0 ≤ u * (resolution : ℚ) := mul_nonneg hlow (Nat.cast_nonneg resolution)
  have hend : u * (resolution : ℚ) ≤ resolution :=
    mul_le_of_le_one_left (Nat.cast_nonneg resolution) hhigh
  obtain ⟨k, hk⟩ := Int.eq_ofNat_of_zero_le (Int.floor_nonneg.mpr halong)
  have hkLow : (k : ℚ) ≤ u * resolution := by
    have := Int.floor_le (u * (resolution : ℚ))
    rwa [hk, Int.cast_natCast] at this
  have hkHigh : u * resolution < (k : ℚ) + 1 := by
    have := Int.lt_floor_add_one (u * (resolution : ℚ))
    rwa [hk, Int.cast_natCast] at this
  have hle : k ≤ resolution := Nat.cast_le.mp (hkLow.trans hend)
  obtain ⟨y, hy, hleft⟩ := Table.get_ofFunction h (k := k) (by omega)
  obtain ⟨z, hz, hright⟩ := Table.get_ofFunction h (k := k + 1) (by omega)
  rw [Nat.min_eq_left hle] at hy
  refine ⟨k, y, z, hle, hkLow, hkHigh, hy, hz, ?_⟩
  have hposition : min (max (k : Int) 0) (resolution : Int) = k := by omega
  have heval : table.eval u = Scalar.truncate (u * (table.resolution : ℚ)) >>= fun n =>
      Samples.line table.samples (min (max n 0) table.resolution) (u * (table.resolution : ℚ)) :=
    rfl
  rw [heval, hresolution, truncate_of_nonneg halong, hk]
  change Samples.line table.samples (min (max (k : Int) 0) (resolution : Int)) _ = _
  rw [hposition]
  unfold Samples.line
  rw [hleft, ← Int.natCast_succ, hright]
  change Except.ok (range.fromUnit y + (u * (resolution : ℚ) - ((k : Int) : ℚ)) *
    (range.fromUnit z - range.fromUnit y)) = _
  rw [Except.ok.injEq, Int.cast_natCast]
  simp only [fromUnit_eq]
  ring

/-- In a cell, its ends included, a table answers with the line between the samples. -/
theorem eval_of_inCell (h : Table.ofFunction f resolution (some range) = .ok table) {k : ℕ}
    (hk : k < resolution) :
    ∃ y z, f (k / resolution) = .ok y ∧ f ((k + 1) / resolution) = .ok z ∧
      ∀ x, InCell resolution k x →
        table.eval x = .ok (range.fromUnit (y + (x * resolution - k) * (z - y))) := by
  obtain ⟨y, hy, _⟩ := Table.get_ofFunction h (k := k) (by omega)
  obtain ⟨z, hz, _⟩ := Table.get_ofFunction h (k := k + 1) (by omega)
  rw [Nat.min_eq_left hk.le, place_eq] at hy
  rw [Nat.min_eq_left hk, place_eq, Nat.cast_succ] at hz
  refine ⟨y, z, hy, hz, fun x hx => ?_⟩
  obtain ⟨hlow, hhigh⟩ := hx.mem_unit hk
  obtain ⟨hshareLow, hshareHigh⟩ := hx.share_mem hk
  obtain ⟨j, y', z', hj, hjLow, hjHigh, hy', hz', heval⟩ := eval_ofFunction h hlow hhigh
  have hkj : k ≤ j := by
    have : (k : ℚ) < j + 1 := by linarith
    exact Nat.lt_succ_iff.mp (by exact_mod_cast this)
  have hjk : j ≤ k + 1 := by
    have : (j : ℚ) ≤ k + 1 := by linarith
    exact_mod_cast this
  rw [heval, Except.ok.injEq]
  rcases Nat.lt_or_ge k j with hlt | hge
  · -- The number is the right end of the cell, where the next one begins.
    obtain rfl : j = k + 1 := by omega
    rw [place_eq, Nat.cast_succ, hz, Except.ok.injEq] at hy'
    have hend : x * resolution = k + 1 := by
      rw [Nat.cast_succ] at hjLow
      linarith
    rw [Nat.cast_succ, hend, hy']
    ring_nf
  · obtain rfl : j = k := by omega
    rw [place_eq, hy, Except.ok.injEq] at hy'
    rw [Nat.min_eq_left hk, place_eq, Nat.cast_succ, hz, Except.ok.injEq] at hz'
    rw [hy', hz']

/-- A table is off by at most half of what the function can change across a cell. -/
theorem abs_eval_sub_le (h : Table.ofFunction f resolution (some range) = .ok table)
    (hresolution : 1 ≤ resolution) {slope : ℚ} (hf : Lipschitz f slope) {u v : ℚ} (hlow : 0 ≤ u)
    (hhigh : u ≤ 1) (hv : f u = .ok v) :
    ∃ b, table.eval u = .ok (range.fromUnit b) ∧ |b - v| ≤ slope / (2 * resolution) := by
  have hpos : (0 : ℚ) < resolution := Nat.cast_pos.mpr hresolution
  obtain ⟨k, hk, hcell⟩ := exists_inCell hresolution hlow hhigh
  obtain ⟨y, z, hy, hz, heval⟩ := eval_of_inCell h hk
  refine ⟨_, heval u hcell, ?_⟩
  have hslope := hf.slope_nonneg
  obtain ⟨htLow, htHigh⟩ := hcell.share_mem hk
  generalize ht : u * (resolution : ℚ) - k = t at htLow htHigh
  have hleft : |(k : ℚ) / resolution - u| = t / resolution := by
    have hdiff : (k : ℚ) / resolution - u = -(t / resolution) := by
      rw [← ht]
      field_simp
      ring
    rw [hdiff, abs_neg, abs_of_nonneg (div_nonneg htLow hpos.le)]
  have hright : |((k : ℚ) + 1) / resolution - u| = (1 - t) / resolution := by
    have hdiff : ((k : ℚ) + 1) / resolution - u = (1 - t) / resolution := by
      rw [← ht]
      field_simp
      ring
    rw [hdiff, abs_of_nonneg (div_nonneg (by linarith) hpos.le)]
  have hyv := hf.abs_sub_le ((InCell.left hk).mem_unit hk) ⟨hlow, hhigh⟩ hy hv
  have hzv := hf.abs_sub_le ((InCell.right hk).mem_unit hk) ⟨hlow, hhigh⟩ hz hv
  rw [hleft] at hyv
  rw [hright] at hzv
  have hquarter : 2 * (t * (1 - t)) ≤ 1 / 2 := by nlinarith [sq_nonneg (t - 1 / 2)]
  calc |y + t * (z - y) - v|
      ≤ (1 - t) * (slope * (t / resolution)) + t * (slope * ((1 - t) / resolution)) :=
        abs_between_sub_le htLow htHigh hyv hzv
    _ = slope / resolution * (2 * (t * (1 - t))) := by ring
    _ ≤ slope / resolution * (1 / 2) :=
        mul_le_mul_of_nonneg_left hquarter (div_nonneg hslope hpos.le)
    _ = slope / (2 * resolution) := by ring

end Rational

end Easing
