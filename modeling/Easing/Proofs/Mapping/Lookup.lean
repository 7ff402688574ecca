import Easing.Proofs.Session.Strategies

/-! # Lookups on the lines between samples

In exact arithmetic a table is the function that goes straight from each of its places
to the next, through the values there in the units of the output range. It answers with
these values at the places themselves, with nothing beyond the least and the greatest of
them, and with the function wherever that is straight in each cell.
-/

namespace Easing

namespace Rational

/-- The number at a place of the straight line through two points. -/
def chord (x₀ y₀ x₁ y₁ x : ℚ) : ℚ := y₀ + (x - x₀) / (x₁ - x₀) * (y₁ - y₀)

/-- A value in the units of an output range, if there is one. -/
def inUnits (output : Option (Range ℚ)) (y : ℚ) : ℚ :=
  match output with
  | none => y
  | some range => range.start + y * (range.stop - range.start)

/-- A table that goes straight through the values of a function. -/
structure Interpolates [Elementary ℚ] (table : Table ℚ) (f : ℚ → Except EvalFault ℚ)
    (resolution : ℕ) (output : Option (Range ℚ)) : Prop where
  /-- The unit interval is made up of the cells. -/
  covered : ∀ x, 0 ≤ x → x ≤ 1 → ∃ k < resolution, InCell resolution k x
  /-- In a cell the table answers with the line between the values at its ends. -/
  line : ∀ k < resolution, ∃ y z, f (k / resolution) = .ok y ∧
    f ((k + 1) / resolution) = .ok z ∧
      ∀ x, InCell resolution k x → table.eval x = .ok (chord (k / resolution) (inUnits output y)
        ((k + 1) / resolution) (inUnits output z) x)
  /-- At a place it answers with the value there. -/
  node : ∀ k ≤ resolution, ∃ y, f (k / resolution) = .ok y ∧
    table.eval (k / resolution) = .ok (inUnits output y)
  /-- Its minimum is the least of its answers. -/
  least : IsLeast {y | ∃ x, 0 ≤ x ∧ x ≤ 1 ∧ table.eval x = .ok y} table.minimum
  /-- Its maximum is the greatest of them. -/
  greatest : IsGreatest {y | ∃ x, 0 ≤ x ∧ x ≤ 1 ∧ table.eval x = .ok y} table.maximum
  /-- It answers with the values of a function that is straight in each cell. -/
  straight : (∀ k < resolution, ∃ a b, ∀ x, InCell resolution k x → f x = .ok (a + b * x)) →
    ∀ x, 0 ≤ x → x ≤ 1 → ∃ y, f x = .ok y ∧ table.eval x = .ok (inUnits output y)

variable {resolution : ℕ}

/-- The line between the ends of a cell, by the number of cells before a place. -/
theorem chord_eq {k : ℕ} (hpos : 1 ≤ resolution) (y z x : ℚ) :
    chord (k / resolution) y ((k + 1) / resolution) z x = y + (x * resolution - k) * (z - y) := by
  have hcast : (resolution : ℚ) ≠ 0 := Nat.cast_ne_zero.mpr (by omega)
  have hshare : (x - k / resolution) / ((k + 1) / resolution - k / resolution) =
      x * resolution - k := by
    field_simp
    ring
  rw [chord, hshare]

/-! ## Answers -/

section Made

variable [Elementary ℚ] {f : ℚ → Except EvalFault ℚ} {range : Range ℚ} {table : Table ℚ}
  (hpos : 1 ≤ resolution) (h : Table.ofFunction f resolution (some range) = .ok table)
include h

theorem size_ofFunction : table.samples.size = resolution + 2 := by
  obtain ⟨samples, hsample, rfl⟩ := Table.ofFunction_eq_ok_iff.mp h
  rw [List.size_toArray, List.length_map, (Table.sample_spec hsample).1]

include hpos

/-- At a place, which ends a cell or begins one, a table answers with the sample there. -/
theorem eval_node {k : ℕ} (hk : k ≤ resolution) :
    ∃ y, f (k / resolution) = .ok y ∧ table.eval (k / resolution) = .ok (range.fromUnit y) := by
  have hcast : (0 : ℚ) < resolution := Nat.cast_pos.mpr hpos
  obtain ⟨j, hj, hlow, hhigh⟩ := exists_inCell hpos (place_mem hk).1 (place_mem hk).2
  obtain ⟨y, z, hy, hz, heval⟩ := eval_of_inCell h hj
  have hline := heval _ ⟨hlow, hhigh⟩
  rw [div_mul_cancel₀ _ hcast.ne'] at hline
  have hjk : j ≤ k := Nat.cast_le.mp ((div_le_div_iff_of_pos_right hcast).mp hlow)
  have hkj : k ≤ j + 1 := by
    have := (div_le_div_iff_of_pos_right hcast).mp hhigh
    exact_mod_cast this
  rcases Nat.lt_or_ge j k with hlt | hge
  · obtain rfl : k = j + 1 := by omega
    refine ⟨z, by rwa [Nat.cast_succ], ?_⟩
    rw [hline, Nat.cast_succ]
    ring_nf
  · obtain rfl : j = k := by omega
    refine ⟨y, hy, ?_⟩
    rw [hline, sub_self, zero_mul, add_zero]

/-- The samples are the answers at the places. -/
theorem mem_samples_iff {y : ℚ} :
    y ∈ table.samples.toList ↔ ∃ k ≤ resolution, table.eval (k / resolution) = .ok y := by
  have hsize := size_ofFunction h
  have hsample {i : ℕ} (hi : i < table.samples.size) :
      table.eval ((min i resolution : ℕ) / resolution) = .ok table.samples[i] := by
    obtain ⟨v, hv, hget⟩ := Table.get_ofFunction h (k := i) (by omega)
    obtain ⟨v', hv', heval⟩ := eval_node hpos h (Nat.min_le_right i resolution)
    rw [place_eq, hv', Except.ok.injEq] at hv
    rw [Samples.get_natCast hi, Except.ok.injEq] at hget
    rw [heval, hv, hget]
  rw [List.mem_iff_getElem]
  constructor
  · rintro ⟨i, hi, rfl⟩
    exact ⟨min i resolution, Nat.min_le_right _ _, hsample hi⟩
  · rintro ⟨k, hk, heval⟩
    have hi : k < table.samples.size := by omega
    have hself := hsample hi
    rw [Nat.min_eq_left hk, heval, Except.ok.injEq] at hself
    exact ⟨k, hi, hself.symm⟩

/-- An answer is between two samples. -/
theorem exists_between_samples {x y : ℚ} (hlow : 0 ≤ x) (hhigh : x ≤ 1)
    (hy : table.eval x = .ok y) :
    ∃ p ∈ table.samples.toList, ∃ q ∈ table.samples.toList, min p q ≤ y ∧ y ≤ max p q := by
  obtain ⟨k, hk, hcell⟩ := exists_inCell hpos hlow hhigh
  obtain ⟨a, b, ha, hb, heval⟩ := eval_of_inCell h hk
  obtain ⟨hshareLow, hshareHigh⟩ := hcell.share_mem hk
  have hnode {j : ℕ} (hj : j ≤ resolution) {v : ℚ} (hv : f (j / resolution) = .ok v) :
      range.fromUnit v ∈ table.samples.toList := by
    obtain ⟨v', hv', hanswer⟩ := eval_node hpos h hj
    obtain rfl : v' = v := Except.ok.inj (hv'.symm.trans hv)
    exact (mem_samples_iff hpos h).mpr ⟨j, hj, hanswer⟩
  refine ⟨_, hnode hk.le ha, _, hnode (j := k + 1) hk (by rwa [Nat.cast_succ]), ?_⟩
  rw [heval x hcell, Except.ok.injEq] at hy
  obtain rfl := hy
  generalize x * (resolution : ℚ) - k = t at hshareLow hshareHigh
  have hbetween : range.fromUnit (a + t * (b - a)) =
      range.fromUnit a + t * (range.fromUnit b - range.fromUnit a) := by
    simp only [fromUnit_eq]
    ring
  rw [hbetween]
  rcases le_total (range.fromUnit a) (range.fromUnit b) with hle | hle
  · rw [min_eq_left hle, max_eq_right hle]
    constructor <;> nlinarith
  · rw [min_eq_right hle, max_eq_left hle]
    constructor <;> nlinarith

/-- A table of a function that is straight in each cell has the values of the function. -/
theorem eval_of_straight
    (hf : ∀ k < resolution, ∃ a b, ∀ x, InCell resolution k x → f x = .ok (a + b * x)) {x : ℚ}
    (hlow : 0 ≤ x) (hhigh : x ≤ 1) :
    ∃ y, f x = .ok y ∧ table.eval x = .ok (range.fromUnit y) := by
  have hcast : (0 : ℚ) < resolution := Nat.cast_pos.mpr hpos
  obtain ⟨k, hk, hcell⟩ := exists_inCell hpos hlow hhigh
  obtain ⟨a, b, hline⟩ := hf k hk
  obtain ⟨y, z, hy, hz, heval⟩ := eval_of_inCell h hk
  rw [hline _ (.left hk), Except.ok.injEq] at hy
  rw [hline _ (.right hk), Except.ok.injEq] at hz
  refine ⟨a + b * x, hline x hcell, ?_⟩
  rw [heval x hcell, ← hy, ← hz]
  congr 2
  field_simp
  ring

end Made

/-! ## The least and the greatest sample -/

section Extremes

variable [Elementary ℚ] {table : Table ℚ}

/-- What a choice prefers among the samples is one of them and preferred to all. -/
theorem extreme_spec {prefer : ℚ → ℚ → ℚ} {rel : ℚ → ℚ → Prop} [IsPreorder ℚ rel]
    (hprefer : ∀ y best, (prefer y best = y ∨ prefer y best = best) ∧
      rel (prefer y best) y ∧ rel (prefer y best) best) (hne : table.samples.toList ≠ []) :
    table.extreme prefer ∈ table.samples.toList ∧
      ∀ y ∈ table.samples.toList, rel (table.extreme prefer) y := by
  have hnumber (y : ℚ) : Scalar.isNaN y = false := by simp [Scalar.isNaN]
  obtain ⟨first, rest, hsamples⟩ := List.exists_cons_of_ne_nil hne
  simp only [Table.extreme, hsamples, hnumber, Bool.false_eq_true, if_false]
  clear hsamples
  induction rest generalizing first with
  | nil => simp [refl_of rel]
  | cons y rest ih =>
      obtain ⟨hchoice, hy, hfirst⟩ := hprefer y first
      obtain ⟨hmem, hall⟩ := ih (prefer y first)
      obtain ⟨hbest, hrest⟩ := List.forall_mem_cons.mp hall
      rw [List.foldl_cons]
      constructor
      · rcases List.mem_cons.mp hmem with hself | hmem
        · rcases hchoice with hchoice | hchoice <;> rw [hself, hchoice] <;> simp
        · exact List.mem_cons_of_mem _ (List.mem_cons_of_mem _ hmem)
      · exact List.forall_mem_cons.mpr ⟨trans_of rel hbest hfirst,
          List.forall_mem_cons.mpr ⟨trans_of rel hbest hy, hrest⟩⟩

theorem minimum_spec (hne : table.samples.toList ≠ []) :
    table.minimum ∈ table.samples.toList ∧ ∀ y ∈ table.samples.toList, table.minimum ≤ y := by
  refine extreme_spec (fun y best => ?_) hne
  unfold Scalar.smaller
  split
  next hlt => exact ⟨.inr rfl, hlt.le, le_rfl⟩
  next hge => exact ⟨.inl rfl, le_rfl, not_lt.mp hge⟩

theorem maximum_spec (hne : table.samples.toList ≠ []) :
    table.maximum ∈ table.samples.toList ∧ ∀ y ∈ table.samples.toList, table.maximum ≥ y := by
  refine extreme_spec (fun y best => ?_) hne
  unfold Scalar.larger
  split
  next hlt => exact ⟨.inr rfl, hlt.le, le_rfl⟩
  next hge => exact ⟨.inl rfl, le_rfl, not_lt.mp hge⟩

variable {f : ℚ → Except EvalFault ℚ} {resolution : ℕ} {range : Range ℚ}
  (hpos : 1 ≤ resolution) (h : Table.ofFunction f resolution (some range) = .ok table)
include h

theorem samples_ne_nil : table.samples.toList ≠ [] := by
  intro hnil
  have hsize := size_ofFunction h
  rw [← Array.length_toList, hnil] at hsize
  cases hsize

include hpos

/-- Each sample is an answer in the unit interval. -/
theorem exists_eval_of_mem {y : ℚ} (hy : y ∈ table.samples.toList) :
    ∃ x, 0 ≤ x ∧ x ≤ 1 ∧ table.eval x = .ok y := by
  obtain ⟨k, hk, heval⟩ := (mem_samples_iff hpos h).mp hy
  exact ⟨k / resolution, (place_mem hk).1, (place_mem hk).2, heval⟩

theorem isLeast_minimum :
    IsLeast {y | ∃ x, 0 ≤ x ∧ x ≤ 1 ∧ table.eval x = .ok y} table.minimum := by
  obtain ⟨hmem, hleast⟩ := minimum_spec (samples_ne_nil h)
  refine ⟨exists_eval_of_mem hpos h hmem, ?_⟩
  rintro y ⟨x, hlow, hhigh, heval⟩
  obtain ⟨p, hp, q, hq, hbelow, _⟩ := exists_between_samples hpos h hlow hhigh heval
  exact (le_min (hleast p hp) (hleast q hq)).trans hbelow

theorem isGreatest_maximum :
    IsGreatest {y | ∃ x, 0 ≤ x ∧ x ≤ 1 ∧ table.eval x = .ok y} table.maximum := by
  obtain ⟨hmem, hgreatest⟩ := maximum_spec (samples_ne_nil h)
  refine ⟨exists_eval_of_mem hpos h hmem, ?_⟩
  rintro y ⟨x, hlow, hhigh, heval⟩
  obtain ⟨p, hp, q, hq, _, habove⟩ := exists_between_samples hpos h hlow hhigh heval
  exact habove.trans (max_le (hgreatest p hp) (hgreatest q hq))

end Extremes

/-! ## Tables with and without an output range -/

section Output

variable [Elementary ℚ] {f : ℚ → Except EvalFault ℚ} {resolution : ℕ}

/-- Without an output range a table is that in the unit interval. -/
theorem exists_range (f : ℚ → Except EvalFault ℚ) (resolution : ℕ) (output : Option (Range ℚ)) :
    ∃ range : Range ℚ,
      Table.ofFunction f resolution output = Table.ofFunction f resolution (some range) ∧
        inUnits output = range.fromUnit := by
  cases output with
  | some range => exact ⟨range, rfl, rfl⟩
  | none =>
      have hsame : (Range.unit .none .silent : Range ℚ).fromUnit = id :=
        funext (fromUnit_unit .none .silent)
      refine ⟨.unit .none .silent, ?_, hsame.symm⟩
      unfold Table.ofFunction
      simp only [hsame, List.map_id]

theorem interpolates_ofFunction (hpos : 1 ≤ resolution) {output : Option (Range ℚ)}
    {table : Table ℚ} (h : Table.ofFunction f resolution output = .ok table) :
    Interpolates table f resolution output := by
  obtain ⟨range, hsame, hunits⟩ := exists_range f resolution output
  rw [hsame] at h
  constructor
  case covered => exact fun x => exists_inCell hpos
  case line =>
    intro k hk
    obtain ⟨y, z, hy, hz, heval⟩ := eval_of_inCell h hk
    refine ⟨y, z, hy, hz, fun x hx => ?_⟩
    rw [heval x hx, chord_eq hpos, hunits, Except.ok.injEq]
    simp only [fromUnit_eq]
    ring
  case node =>
    intro k hk
    rw [hunits]
    exact eval_node hpos h hk
  case least => exact isLeast_minimum hpos h
  case greatest => exact isGreatest_maximum hpos h
  case straight =>
    intro hf x hlow hhigh
    rw [hunits]
    exact eval_of_straight hpos h hf hlow hhigh

end Output

end Rational

/-- There is a table of every function with values at its places, however many those are, and
it is made if there is at least one cell and room for the samples. It goes straight from each
place to the next through the values there in the units of the output range. Its answers are
between its least and its greatest sample, and they are the values of a function that is
straight in each cell. -/
theorem Table.lookup_is_interpolation [Elementary ℚ] (f : ℚ → Except EvalFault ℚ)
    (resolution : ℕ) (output : Option (Range ℚ)) :
    ((∃ table, ofFunction f resolution output = .ok table) ↔
        ∀ k ≤ resolution, ∃ y, f (k / resolution) = .ok y) ∧
      (∀ table, (make f resolution output).result = .ok table ↔
        1 ≤ resolution ∧ Capacity.tableFault? (resolution + 1) = none ∧
          ofFunction f resolution output = .ok table) ∧
      (1 ≤ resolution → ∀ table, ofFunction f resolution output = .ok table →
        Rational.Interpolates table f resolution output) :=
  ⟨exists_ofFunction_iff, fun _ => result_make_natCast_eq_ok_iff,
    fun hpos _ => Rational.interpolates_ofFunction hpos⟩

/-- A peak that is a place of the table, in an output range that is counted downwards. -/
theorem Table.lookup_is_interpolation_downwards :
    let _ := Session.linear
    ∃ table, (make Session.slopes.eval 4 (some ⟨4, -4, .none, .warn⟩)).result = .ok table ∧
      table.eval 1 = .ok 4 ∧ table.minimum ≤ -4 ∧
      ∀ x, 0 ≤ x → x ≤ 1 →
        ∃ y, Session.slopes.eval x = .ok y ∧ table.eval x = .ok (4 + y * (-4 - 4)) := by
  let _ := Session.linear
  have hmade : (make Session.slopes.eval 4 (some ⟨4, -4, .none, .warn⟩)).result =
      .ok ⟨4, #[4, -4, -4 / 3, 4 / 3, 4, 4]⟩ := by
    decide +kernel
  obtain ⟨_, hmake, hinterpolates⟩ :=
    lookup_is_interpolation Session.slopes.eval 4 (some ⟨4, -4, .none, .warn⟩)
  obtain ⟨hpos, _, htable⟩ := (hmake _).mp hmade
  have h := hinterpolates hpos _ htable
  have hstraight : ∀ k < 4, ∃ a b : ℚ, ∀ x, Rational.InCell 4 k x →
      Session.slopes.eval x = .ok (a + b * x) := by
    intro k _
    cases k with
    | zero =>
        refine ⟨0, 4, fun x hx => ?_⟩
        have hle : x ≤ 1 / 4 := by simpa using hx.2
        rw [Session.eval_slopes, Except.ok.injEq]
        split <;> linarith
    | succ k =>
        refine ⟨4 / 3, -4 / 3, fun x hx => ?_⟩
        have hle : (k + 1 : ℚ) / 4 ≤ x := by exact_mod_cast hx.1
        have hk : (0 : ℚ) ≤ k := k.cast_nonneg
        rw [Session.eval_slopes, Except.ok.injEq, if_neg (by linarith)]
        ring
  have hvalues := h.straight hstraight
  refine ⟨_, hmade, ?_, ?_, hvalues⟩
  · obtain ⟨y, hy, heval⟩ := hvalues 1 zero_le_one le_rfl
    rw [Session.eval_slopes, Except.ok.injEq, if_neg (by norm_num), sub_self, mul_zero] at hy
    rw [heval, ← hy]
    decide +kernel
  · obtain ⟨y, hy, heval⟩ := hvalues (1 / 4) (by norm_num) (by norm_num)
    rw [Session.eval_slopes, Except.ok.injEq, if_neg (lt_irrefl _)] at hy
    refine h.least.2 ⟨1 / 4, by norm_num, by norm_num, ?_⟩
    rw [heval, ← hy]
    decide +kernel

end Easing
