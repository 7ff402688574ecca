import Easing.Proofs.Mapping.Averages
import Easing.Proofs.Mapping.Blending
import Easing.Proofs.Mapping.Interpolation

/-! # Deviations

The points of comparison stand at equal distances from one end of the input range to the
other, so they are in the range as they are. A mapping and its target that share their
ranges have values in one output range there, which are no farther apart than the range
is wide. It does not matter which of the two curves is whose.
-/

namespace Easing

/-! ## Exchanging curves -/

section Exchange

variable {α : Type}

/-- A link that takes over the curve of another one, as it is looked up or evaluated there. -/
def Link.withCurve (link other : Link α) : Link α :=
  { link with
    expression := other.expression
    precision := other.precision
    table := other.table }

/-- The mapping and its target with the curve of the other one each. -/
def Mapping.exchanged (m : Mapping α) : Mapping α :=
  match m.targets with
  | [] => m
  | next :: more => ⟨m.head.withCurve next, next.withCurve m.head :: more⟩

variable {m target : Mapping α}

theorem Mapping.target?_exchanged (htarget : m.target? = some target) :
    m.exchanged.target? = some ⟨target.head.withCurve m.head, target.targets⟩ ∧
      m.exchanged.head = m.head.withCurve target.head := by
  obtain ⟨head, targets⟩ := m
  cases targets with
  | nil => cases htarget
  | cons next more =>
      obtain rfl := Option.some.inj htarget
      exact ⟨rfl, rfl⟩

/-- Between equal ranges a link with another curve is a link of that curve. -/
theorem Link.eval_withCurve [Scalar α] {link other : Link α} (hinput : other.input = link.input)
    (houtput : other.output = link.output) (x : α) :
    (link.withCurve other).eval x = other.eval x := by
  apply eval_congr
  · rfl
  · exact hinput.symm
  · exact houtput.symm
  · rfl

end Exchange

/-! ## The points of comparison -/

namespace Rational

/-- A point of so many steps between a start and a stop. -/
def point (start stop : ℚ) (n k : ℕ) : ℚ := start + k * (stop - start) / n

theorem point_zero (start stop : ℚ) (n : ℕ) : point start stop n 0 = start := by
  rw [point, Nat.cast_zero, zero_mul, zero_div, add_zero]

theorem point_self (start stop : ℚ) {n : ℕ} (hpos : 1 ≤ n) : point start stop n n = stop := by
  have hne : (n : ℚ) ≠ 0 := Nat.cast_ne_zero.mpr (Nat.one_le_iff_ne_zero.mp hpos)
  rw [point, mul_div_cancel_left₀ _ hne, add_sub_cancel]

variable [Elementary ℚ]

/-- The points stand at equal distances, the last one at the stop. -/
theorem points_eq (start stop : ℚ) (n : ℕ) :
    points start stop (n + 1) = (List.range (n + 1)).map (point start stop n) := by
  cases n with
  | zero =>
      change [0 * (stop - start) + start] = [point start stop 0 0]
      rw [point_zero, zero_mul, zero_add]
  | succ n =>
      have hpoint (k : ℕ) :
          (if ((stop - start) / ((n + 1 : ℕ) : ℚ) == 0) = true
            then (k : ℚ) / ((n + 1 : ℕ) : ℚ) * (stop - start) + start
            else (k : ℚ) * ((stop - start) / ((n + 1 : ℕ) : ℚ)) + start) =
            point start stop (n + 1) k := by
        unfold point
        split <;> ring
      rw [List.range_succ, List.map_append, List.map_singleton, point_self start stop (by omega)]
      change (List.range (n + 1)).map _ ++ [stop] = _
      congr 1
      apply List.map_congr_left
      intro k _
      exact hpoint k

theorem grid_eq_ok_iff {start stop : ℚ} {n : ℕ} {xs : List ℚ} :
    grid start stop n = .ok xs ↔
      Capacity.gridFault? (n + 1) = none ∧ xs = (List.range (n + 1)).map (point start stop n) := by
  have hcount : (n : Int) + 1 = .ofNat (n + 1) := rfl
  simp only [grid, hcount, points_eq]
  cases Capacity.gridFault? (n + 1) with
  | some cause => simp
  | none => simp [eq_comm]

/-- A point is between the start and the stop, so that a range leaves it alone. -/
theorem check_point {r : Range ℚ} {n k : ℕ} (hk : k ≤ n) :
    r.check (point r.start r.stop n k) = pure (point r.start r.stop n k) := by
  have hpoint : point r.start r.stop n k = r.fromUnit (k / n) := by
    rw [fromUnit_eq, point, Range.span, div_mul_eq_mul_div]
  obtain ⟨hlow, hhigh⟩ := fromUnit_mem (r := r) (place_mem hk).1 (place_mem hk).2
  rw [hpoint]
  exact check_of_mem hlow hhigh

end Rational

/-! ## Comparison -/

namespace Mapping

/-- The points at which a mapping is compared with its target. -/
def samples (m : Mapping ℚ) (n : ℕ) : List ℚ :=
  (List.range (n + 1)).map (Rational.point m.head.input.start m.head.input.stop n)

theorem length_samples (m : Mapping ℚ) (n : ℕ) : (m.samples n).length = n + 1 := by
  rw [samples, List.length_map, List.length_range]

theorem head?_samples (m : Mapping ℚ) (n : ℕ) :
    (m.samples n).head? = some m.head.input.start := by
  rw [samples, List.range_succ_eq_map, List.map_cons, List.head?_cons, Rational.point_zero]

theorem getLast?_samples (m : Mapping ℚ) {n : ℕ} (hpos : 1 ≤ n) :
    (m.samples n).getLast? = some m.head.input.stop := by
  rw [samples, List.range_succ, List.map_append, List.map_singleton, List.getLast?_concat,
    Rational.point_self _ _ hpos]

variable {m target : Mapping ℚ} {n : ℕ} {ys zs : List ℚ}

theorem samples_exchanged (htarget : m.target? = some target) :
    m.exchanged.samples n = m.samples n := by
  rw [samples, (target?_exchanged htarget).2]
  rfl

variable [Elementary ℚ]

theorem check_of_mem_samples {x : ℚ} (hx : x ∈ m.samples n) : m.head.input.check x = pure x := by
  obtain ⟨k, hk, rfl⟩ := List.mem_map.mp hx
  exact Rational.check_point (Nat.lt_succ_iff.mp (List.mem_range.mp hk))

/-- What is done with the points is done with these, if they are not too many to hold. -/
theorem result_grid_bind_eq_ok_iff {β : Type} {use : List ℚ → Outcome ℚ β} {b : β} :
    (Outcome.ofResult (grid m.head.input.start m.head.input.stop n) >>= use).result = .ok b ↔
      Capacity.gridFault? (n + 1) = none ∧ (use (m.samples n)).result = .ok b := by
  rw [Outcome.result_bind_eq_ok_iff]
  constructor
  · rintro ⟨xs, hgrid, hb⟩
    obtain ⟨hfits, rfl⟩ := Rational.grid_eq_ok_iff.mp hgrid
    exact ⟨hfits, hb⟩
  · rintro ⟨hfits, hb⟩
    exact ⟨_, Rational.grid_eq_ok_iff.mpr ⟨hfits, rfl⟩, hb⟩

theorem tabulate_eq_ok_iff {t : Tabulation ℚ} :
    (m.tabulate n).result = .ok t ↔
      Capacity.gridFault? (n + 1) = none ∧ (m.tabulateAt (m.samples n)).result = .ok t :=
  result_grid_bind_eq_ok_iff

theorem deviation_eq_ok_iff (htarget : m.target? = some target) {d : Deviation ℚ} :
    (m.deviation n).result = .ok d ↔
      Capacity.gridFault? (n + 1) = none ∧ (m.deviationAt (m.samples n)).result = .ok d := by
  rw [deviation, htarget]
  exact result_grid_bind_eq_ok_iff

/-- The values of a mapping and its target at the points. -/
structure Sampled (m target : Mapping ℚ) (n : ℕ) (ys zs : List ℚ) : Prop where
  outputs : List.Forall₂ (fun x y => (m.eval x).result = .ok y) (m.samples n) ys
  targets : List.Forall₂ (fun x z => (target.eval x).result = .ok z) (m.samples n) zs

theorem tabulateAt_eq_ok_iff (htarget : m.target? = some target) {t : Tabulation ℚ} :
    (m.tabulateAt (m.samples n)).result = .ok t ↔
      ∃ ys zs, m.Sampled target n ys zs ∧ t = ⟨m.samples n, ys, some zs⟩ := by
  simp only [tabulateAt, htarget, Outcome.result_bind_eq_ok_iff, Outcome.result_map_eq_ok_iff,
    Outcome.result_mapM, Except.mapM_eq_ok_iff, Outcome.result_pure, Except.ok.injEq]
  constructor
  · rintro ⟨ys, hys, _, ⟨zs, hzs, rfl⟩, rfl⟩
    exact ⟨ys, zs, ⟨hys, hzs⟩, rfl⟩
  · rintro ⟨ys, zs, ⟨hys, hzs⟩, rfl⟩
    exact ⟨ys, hys, _, ⟨zs, hzs, rfl⟩, rfl⟩

/-- A comparison has a result if there are values to compare. -/
theorem deviationAt_eq_ok_iff (htarget : m.target? = some target) {d : Deviation ℚ} :
    (m.deviationAt (m.samples n)).result = .ok d ↔ ∃ ys zs, m.Sampled target n ys zs ∧
      d = ⟨Average.mean (m.distances ys zs), Average.greatest (m.distances ys zs), n, true⟩ := by
  have hsteps : ((m.samples n).length : ℤ) - 1 = n := by
    rw [length_samples, Nat.cast_succ, add_sub_cancel_right]
  simp only [deviationAt, hsteps, Outcome.result_bind_eq_ok_iff, tabulateAt_eq_ok_iff htarget]
  constructor
  · rintro ⟨_, ⟨ys, zs, hsampled, rfl⟩, _, _, hd⟩
    exact ⟨ys, zs, hsampled, (Except.ok.inj hd).symm⟩
  · rintro ⟨ys, zs, hsampled, rfl⟩
    exact ⟨_, ⟨ys, zs, hsampled, rfl⟩, (), rfl, rfl⟩

/-- What is there exactly for sampled values is there if there are such values. -/
theorem exists_iff_of_sampled {β : Type} {p : β → Prop} {made : List ℚ → List ℚ → β}
    (h : ∀ b, p b ↔ ∃ ys zs, m.Sampled target n ys zs ∧ b = made ys zs) :
    (∃ b, p b) ↔ ∃ ys zs, m.Sampled target n ys zs := by
  constructor
  · rintro ⟨b, hb⟩
    obtain ⟨ys, zs, hsampled, _⟩ := (h b).mp hb
    exact ⟨ys, zs, hsampled⟩
  · rintro ⟨ys, zs, hsampled⟩
    exact ⟨_, (h _).mpr ⟨ys, zs, hsampled, rfl⟩⟩

theorem exists_sampled_iff : (∃ ys zs, m.Sampled target n ys zs) ↔
    (∀ x ∈ m.samples n, ∃ y, (m.eval x).result = .ok y) ∧
      ∀ x ∈ m.samples n, ∃ z, (target.eval x).result = .ok z := by
  rw [← Except.exists_forall₂_iff, ← Except.exists_forall₂_iff]
  constructor
  · rintro ⟨ys, zs, hys, hzs⟩
    exact ⟨⟨ys, hys⟩, zs, hzs⟩
  · rintro ⟨⟨ys, hys⟩, zs, hzs⟩
    exact ⟨ys, zs, hys, hzs⟩

theorem Sampled.length_distances (h : m.Sampled target n ys zs) :
    (m.distances ys zs).length = n + 1 := by
  rw [distances, List.length_zipWith, ← h.outputs.length_eq, ← h.targets.length_eq, Nat.min_self,
    length_samples]

/-- Two values in one output range are no farther apart than it is wide. -/
theorem Sampled.distances_mem (h : m.Sampled target n ys zs)
    (hne : m.head.output.start ≠ m.head.output.stop)
    (houtput : target.head.output = m.head.output) :
    ∀ d ∈ m.distances ys zs, 0 ≤ d ∧ d ≤ 1 := by
  refine (Except.forall_mem_zipWith_iff h.outputs h.targets).mpr fun x _ y z hy hz => ?_
  obtain ⟨hlow, hhigh⟩ := Rational.within_of_eval hne hy
  obtain ⟨hlow', hhigh'⟩ := Rational.within_of_eval (by rwa [houtput]) hz
  rw [houtput] at hlow' hhigh'
  have hwidth := Rational.width_eq m.head.output
  have hspan : 0 < |m.head.output.span| := abs_pos.mpr (Rational.span_ne_zero hne)
  have hapart : |z - y| ≤ |m.head.output.span| := abs_le.mpr ⟨by linarith, by linarith⟩
  exact ⟨div_nonneg (abs_nonneg _) hspan.le, (div_le_one hspan).mpr hapart⟩

/-- Only equal values are at no distance. -/
theorem Sampled.distances_eq_zero_iff (h : m.Sampled target n ys zs)
    (hne : m.head.output.start ≠ m.head.output.stop) :
    (∀ d ∈ m.distances ys zs, d = 0) ↔
      ∀ x ∈ m.samples n, (m.eval x).result = (target.eval x).result := by
  have hspan : |m.head.output.span| ≠ 0 := abs_ne_zero.mpr (Rational.span_ne_zero hne)
  have hzero (y z : ℚ) : |z - y| / |m.head.output.span| = 0 ↔ y = z := by
    rw [div_eq_zero_iff, or_iff_left hspan, abs_eq_zero, sub_eq_zero, eq_comm]
  refine (Except.forall_mem_zipWith_iff h.outputs h.targets).trans ?_
  refine forall₂_congr fun x hx => ⟨fun hall => ?_, fun heq y z hy hz => ?_⟩
  · obtain ⟨y, hy⟩ := Except.exists_forall₂_iff.mp ⟨ys, h.outputs⟩ x hx
    obtain ⟨z, hz⟩ := Except.exists_forall₂_iff.mp ⟨zs, h.targets⟩ x hx
    rw [hy, hz, (hzero y z).mp (hall y z hy hz)]
  · rw [hy, hz, Except.ok.injEq] at heq
    exact (hzero y z).mpr heq

/-- The exchanged curves have each other's values. -/
theorem sampled_exchanged_iff (htarget : m.target? = some target)
    (hinput : target.head.input = m.head.input) (houtput : target.head.output = m.head.output) :
    m.exchanged.Sampled ⟨target.head.withCurve m.head, target.targets⟩ n zs ys ↔
      m.Sampled target n ys zs := by
  have hown (x : ℚ) : m.exchanged.eval x = target.eval x := by
    rw [eval, (target?_exchanged htarget).2]
    exact Link.eval_withCurve hinput houtput x
  have hother (x : ℚ) :
      eval ⟨target.head.withCurve m.head, target.targets⟩ x = m.eval x :=
    Link.eval_withCurve hinput.symm houtput.symm x
  constructor
  · rintro ⟨hzs, hys⟩
    simp only [samples_exchanged htarget, hown, hother] at hzs hys
    exact ⟨hys, hzs⟩
  · rintro ⟨hys, hzs⟩
    constructor
    case outputs => simpa only [samples_exchanged htarget, hown] using hzs
    case targets => simpa only [samples_exchanged htarget, hother] using hys

theorem distances_exchanged (htarget : m.target? = some target) (ys zs : List ℚ) :
    m.exchanged.distances zs ys = m.distances ys zs := by
  have hspan : m.exchanged.head.output.span = m.head.output.span := by
    rw [(target?_exchanged htarget).2]
    rfl
  rw [distances, distances, hspan]
  refine List.zipWith_comm_of_comm fun y z => ?_
  change |z - y| / _ = |y - z| / _
  rw [abs_sub_comm]

theorem deviationAt_exchanged_eq_ok_iff (htarget : m.target? = some target)
    (hinput : target.head.input = m.head.input) (houtput : target.head.output = m.head.output)
    {d : Deviation ℚ} :
    (m.exchanged.deviationAt (m.samples n)).result = .ok d ↔
      (m.deviationAt (m.samples n)).result = .ok d := by
  rw [deviationAt_eq_ok_iff htarget, ← samples_exchanged htarget,
    deviationAt_eq_ok_iff (target?_exchanged htarget).1, exists_comm]
  simp only [sampled_exchanged_iff htarget hinput houtput, distances_exchanged htarget]

/-- A mapping and a target with the same ranges are compared at points from one end of the
input range to the other, one more than the steps between them, none of which the range
moves or reports. There is a comparison at any number of points if both have values at all
of them, and it is made if those are not too many to hold. On the average the values are no
farther apart than at most, and at most as far as the output range is wide; at most they are
not apart at all if they are equal at all points. With the two curves exchanged the
comparison is the same. -/
theorem deviation_in_unit_interval (htarget : m.target? = some target)
    (hdomain : m.head.domain.check = .ok ()) (hinput : target.head.input = m.head.input)
    (houtput : target.head.output = m.head.output) (n : ℕ) :
    points m.head.input.start m.head.input.stop (n + 1) = m.samples n ∧
      (∀ t, (m.tabulate n).result = .ok t ↔
        Capacity.gridFault? (n + 1) = none ∧ (m.tabulateAt (m.samples n)).result = .ok t) ∧
      (∀ d, (m.deviation n).result = .ok d ↔
        Capacity.gridFault? (n + 1) = none ∧ (m.deviationAt (m.samples n)).result = .ok d) ∧
      (∀ t, (m.tabulateAt (m.samples n)).result = .ok t →
        t.inputs = m.samples n ∧ t.inputs.length = n + 1 ∧ t.outputs.length = n + 1 ∧
          (∃ zs, t.targets = some zs ∧ zs.length = n + 1) ∧
          t.inputs.head? = some m.head.input.start ∧
          (1 ≤ n → t.inputs.getLast? = some m.head.input.stop) ∧
          ∀ x ∈ t.inputs, m.head.input.check x = pure x) ∧
      ((∃ t, (m.tabulateAt (m.samples n)).result = .ok t) ↔
        (∀ x ∈ m.samples n, ∃ y, (m.map x none).result = .ok y) ∧
          ∀ x ∈ m.samples n, ∃ z, (target.map x none).result = .ok z) ∧
      ((∃ d, (m.deviationAt (m.samples n)).result = .ok d) ↔
        ∃ t, (m.tabulateAt (m.samples n)).result = .ok t) ∧
      (∀ d, (m.deviationAt (m.samples n)).result = .ok d →
        0 ≤ d.average ∧ d.average ≤ d.maximum ∧ d.maximum ≤ 1 ∧
          (d.maximum = 0 ↔
            ∀ x ∈ m.samples n, (m.map x none).result = (target.map x none).result)) ∧
      (∀ d, (m.exchanged.deviationAt (m.samples n)).result = .ok d ↔
        (m.deviationAt (m.samples n)).result = .ok d) ∧
      ∀ d, (m.exchanged.deviation n).result = .ok d ↔ (m.deviation n).result = .ok d := by
  have hne : m.head.output.start ≠ m.head.output.stop :=
    Rational.checkBounds_eq_ok_iff.mp (Domain.check_eq_ok_iff.mp hdomain).2
  have hexchange (d : Deviation ℚ) : (m.exchanged.deviationAt (m.samples n)).result = .ok d ↔
      (m.deviationAt (m.samples n)).result = .ok d :=
    deviationAt_exchanged_eq_ok_iff htarget hinput houtput
  refine ⟨Rational.points_eq _ _ n, fun t => tabulate_eq_ok_iff,
    fun d => deviation_eq_ok_iff htarget, fun t ht => ?rows, ?returns, ?compares,
    fun d hd => ?bounds, hexchange, fun d => ?exchange⟩
  case rows =>
    obtain ⟨ys, zs, hsampled, rfl⟩ := (tabulateAt_eq_ok_iff htarget).mp ht
    have hlength := m.length_samples n
    exact ⟨rfl, hlength, hsampled.outputs.length_eq ▸ hlength,
      ⟨zs, rfl, hsampled.targets.length_eq ▸ hlength⟩, m.head?_samples n, m.getLast?_samples,
      fun _ => check_of_mem_samples⟩
  case returns =>
    exact (exists_iff_of_sampled fun _ => tabulateAt_eq_ok_iff htarget).trans exists_sampled_iff
  case compares =>
    rw [exists_iff_of_sampled fun _ => deviationAt_eq_ok_iff htarget,
      exists_iff_of_sampled fun _ => tabulateAt_eq_ok_iff htarget]
  case bounds =>
    obtain ⟨ys, zs, hsampled, rfl⟩ := (deviationAt_eq_ok_iff htarget).mp hd
    have hnonempty : m.distances ys zs ≠ [] := by
      rw [← List.length_pos_iff, hsampled.length_distances]
      exact n.succ_pos
    obtain ⟨hnonneg, hle, hone, hzero⟩ :=
      Rational.mean_between hnonempty (hsampled.distances_mem hne houtput)
    exact ⟨hnonneg, hle, hone, hzero.trans (hsampled.distances_eq_zero_iff hne)⟩
  case exchange =>
    rw [deviation_eq_ok_iff (target?_exchanged htarget).1, samples_exchanged htarget, hexchange,
      deviation_eq_ok_iff htarget]

omit [Elementary ℚ] in
/-- A curve that is evaluated and one that is looked up, over ranges that both count
downwards. -/
theorem deviation_in_unit_interval_downwards :
    let _ := Session.linear
    let _ := Session.fractions
    ∃ (m target : Mapping ℚ) (d : Deviation ℚ),
      m.target? = some target ∧ m.head.domain = ⟨10, 0, 4, -4⟩ ∧ m.head.strategy = "exact" ∧
        target.head.strategy = "approximate" ∧ m.samples 4 = [10, 15 / 2, 5, 5 / 2, 0] ∧
        (m.deviation 4).result = .ok d ∧ 0 ≤ d.average ∧ d.average ≤ d.maximum ∧
        d.maximum ≤ 1 ∧ d.maximum ≠ 0 ∧ (m.exchanged.deviation 4).result = .ok d := by
  let _ := Session.linear
  let _ := Session.fractions
  let s : Session ℚ := (Session.start ⟨.standard, .ofSeed 0⟩ ⟨.standard, .ofSeed 0⟩).after
    [.compile .own "ramp" "x" (some .highest),
      .change ⟨"ramp", 0⟩ (.setRange ⟨10, 0, 4, -4⟩ none),
      .change ⟨"ramp", 0⟩ (.setTarget "triangle 0.25" (some .low))]
  have hkernel : (s.find? ⟨"ramp", 0⟩).bind (fun found => found.2.target?.map fun target =>
      (found.2.head.domain, found.2.head.domain.check, found.2.head.strategy,
        target.head.strategy, decide (target.head.input = found.2.head.input ∧
          target.head.output = found.2.head.output))) =
        some (⟨10, 0, 4, -4⟩, .ok (), "exact", "approximate", true) := by
    decide +kernel
  have hvalues : (s.find? ⟨"ramp", 0⟩).bind (fun found => found.2.target?.map fun target =>
      (found.2.samples 4, (found.2.tabulate 4).result.map Tabulation.outputs,
        (found.2.map 5 none).result, (target.map 5 none).result)) =
        some ([10, 15 / 2, 5, 5 / 2, 0], .ok [4, 2, 0, -2, -4], .ok 0, .ok (-4 / 3)) := by
    decide +kernel
  obtain ⟨⟨entry, m⟩, hfind, hm⟩ := Option.bind_eq_some_iff.mp hkernel
  obtain ⟨target, htarget, hm⟩ := Option.map_eq_some_iff.mp hm
  rw [hfind, Option.bind_some, htarget, Option.map_some, Option.some.injEq] at hvalues
  simp only [Prod.mk.injEq, decide_eq_true_eq] at hm hvalues
  obtain ⟨hdomain, hcheck, hexact, hlooked, hinput, houtput⟩ := hm
  obtain ⟨hsamples, htable, hy, hz⟩ := hvalues
  obtain ⟨_, htabulate, hdeviation, _, _, hcompares, hbounds, _, hexchange⟩ :=
    deviation_in_unit_interval htarget hcheck hinput houtput 4
  obtain ⟨t, ht, _⟩ := Except.eq_ok_of_map htable
  obtain ⟨hfits, ht⟩ := (htabulate t).mp ht
  obtain ⟨d, hcompared⟩ := hcompares.mpr ⟨t, ht⟩
  have hd := (hdeviation d).mpr ⟨hfits, hcompared⟩
  obtain ⟨hnonneg, hle, hone, hzero⟩ := hbounds d hcompared
  refine ⟨m, target, d, htarget, hdomain, hexact, hlooked, hsamples, hd, hnonneg, hle, hone, ?_,
    (hexchange d).mpr hd⟩
  intro hnone
  have hequal := hzero.mp hnone 5 (by rw [hsamples]; simp)
  rw [hy, hz] at hequal
  exact absurd hequal (by decide +kernel)

end Mapping

end Easing
