import Easing.Proofs.Mapping.Interpolation
import Easing.Proofs.Session.Coordinates

/-! # Looked up or evaluated

Two mappings of one expression, one of which looks its values up, answer with numbers
that are as close to each other as the cells of the table are narrow. The input range
takes a number to one place for both; the output range only ever brings the two values
closer together.
-/

namespace Easing

variable {α : Type}

/-- A new link of an expression, with a table or without. -/
def Link.fresh [Scalar α] (expression : Expression α) (precision : Precision)
    (onExceed : ExceedAction) (table : Option (Table α)) : Link α :=
  ⟨expression, precision, .unit .both onExceed, .unit .none onExceed, .unit .none onExceed, table⟩

/-- A link whose samples are so many for the unit interval, and are those of its expression in
the present output range. -/
def Link.SampledAt [Scalar α] (resolution : Nat) (link : Link α) : Prop :=
  ∃ table, link.table = some table ∧
    Table.ofFunction link.expression.eval resolution (some link.output) = .ok table

/-- A link that gives no reports and holds the values that overshoot its output range. -/
structure Link.Quiet [Scalar α] (link : Link α) : Prop where
  domain : link.domain.check = .ok ()
  input : link.input.onExceed = .silent
  output : link.output.onExceed = .silent
  held : link.output.repeats = .none

theorem Link.Quiet.withDomain [Scalar α] {link : Link α} (h : link.Quiet) {d : Domain α}
    (hd : d.check = .ok ()) (repeats : Option RepeatPolicy) :
    (link.withDomain d repeats).Quiet :=
  ⟨hd, h.input, h.output, h.held⟩

theorem Link.SampledAt.withDomain [Scalar α] [Scalar.Exact α] {link : Link α} {resolution : Nat}
    (h : link.SampledAt resolution) (hdomain : link.domain.check = .ok ()) (d : Domain α)
    (repeats : Option RepeatPolicy) : (link.withDomain d repeats).SampledAt resolution := by
  obtain ⟨table, htable, hsamples⟩ := h
  refine ⟨_, ?_, Table.ofFunction_rescale (Domain.check_eq_ok_iff.mp hdomain).2 hsamples⟩
  rw [Link.withDomain, htable, Option.map_some]

/-- A new link is quiet if it is made to be silent. -/
theorem Link.Quiet.fresh [Scalar α] [Scalar.HasUnit α] (expression : Expression α)
    (precision : Precision) (table : Option (Table α)) :
    (Link.fresh expression precision .silent table).Quiet :=
  ⟨Domain.check_unit, rfl, rfl, rfl⟩

namespace Mapping

variable [Scalar α]

/-- A mapping after calls that set its ranges. A call that is refused leaves the mapping
as it is. -/
def withRanges (m : Mapping α) (calls : List (Domain α × Option RepeatPolicy)) : Mapping α :=
  calls.foldl (fun m call => (m.setRange call.1 call.2).toOption.getD m) m

/-- What accepted bounds keep of the first link is kept by any calls that set ranges. -/
theorem withRanges_induct {P : Link α → Prop}
    (hkeeps : ∀ link d repeats, P link → d.check = .ok () → P (link.withDomain d repeats))
    (calls : List (Domain α × Option RepeatPolicy)) (m : Mapping α) (h : P m.head) :
    P (m.withRanges calls).head := by
  induction calls generalizing m with
  | nil => exact h
  | cons call calls ih =>
      apply ih
      cases hcheck : call.1.check with
      | error f =>
          simp only [setRange_of_error hcheck]
          exact h
      | ok =>
          simp only [setRange_of_ok hcheck]
          exact hkeeps m.head call.1 call.2 h hcheck

end Mapping

namespace Link

variable [Elementary ℚ] {link exact : Link ℚ} {resolution : Nat} {slope : ℚ}

/-- A link that looks its values up and one that evaluates the same expression, with the
same ranges, have values that differ by no more than the samples allow. -/
theorem SampledAt.abs_eval_sub_le (h : link.SampledAt resolution) (hpos : 1 ≤ resolution)
    (hquiet : link.Quiet) (htable : exact.table = none) (hexpression : exact.expression = link.expression)
    (hinput : exact.input = link.input) (houtput : exact.output = link.output)
    (hf : Rational.Lipschitz link.expression.eval slope) (x : ℚ) :
    ∃ a b, link.eval x = pure a ∧ exact.eval x = pure b ∧
      |a - b| ≤ |link.output.span| * slope / (2 * resolution) := by
  obtain ⟨table, hsome, hsamples⟩ := h
  obtain ⟨hinputBounds, houtputBounds⟩ := Domain.check_eq_ok_iff.mp hquiet.domain
  have hin : link.input.start ≠ link.input.stop := Rational.checkBounds_eq_ok_iff.mp hinputBounds
  have hout : link.output.start ≠ link.output.stop :=
    Rational.checkBounds_eq_ok_iff.mp houtputBounds
  obtain ⟨u, hnormalize, hlow, hhigh⟩ := Rational.exists_normalize hin hquiet.input x
  obtain ⟨v, hv⟩ := hf.exists_value hlow hhigh
  obtain ⟨w, hw, hclose⟩ := Rational.abs_eval_sub_le hsamples hpos hf hlow hhigh hv
  have hlooked : link.eval x = pure (Rational.fold link.output (link.output.fromUnit w)) := by
    rw [eval, hnormalize, pure_bind, hsome]
    change Outcome.ofEval (table.eval u) >>= link.output.check = _
    rw [hw]
    exact Rational.check_eq_pure hout hquiet.output _
  have hevaluated : exact.eval x = pure (Rational.fold link.output (link.output.fromUnit v)) := by
    rw [eval, hinput, hnormalize, pure_bind, htable, hexpression, houtput]
    change Outcome.ofEval (link.expression.eval u) >>= link.output.denormalize = _
    rw [hv]
    exact Rational.check_eq_pure hout hquiet.output _
  refine ⟨_, _, hlooked, hevaluated, ?_⟩
  calc |Rational.fold link.output (link.output.fromUnit w)
        - Rational.fold link.output (link.output.fromUnit v)|
      ≤ |link.output.fromUnit w - link.output.fromUnit v| :=
        Rational.abs_fold_sub_fold_le hquiet.held _ _
    _ = |link.output.span| * |w - v| := by
        rw [Rational.fromUnit_eq, Rational.fromUnit_eq, add_sub_add_left_eq_sub, ← sub_mul, abs_mul,
          mul_comm]
    _ ≤ |link.output.span| * (slope / (2 * resolution)) :=
        mul_le_mul_of_nonneg_left hclose (abs_nonneg _)
    _ = |link.output.span| * slope / (2 * resolution) := mul_div_assoc' _ _ _

end Link

namespace Session

/-- A link in a session that is looked up holds the samples that would be made now. -/
theorem Reachable.sampledAt [Elementary ℚ] [Numeral ℚ] {s : Session ℚ} (hs : s.Reachable)
    {place : Place} {entry : Entry ℚ} {m : Mapping ℚ} (hfind : s.find? place = some (entry, m))
    {resolution : Nat} (hresolution : m.head.resolution = some resolution) :
    1 ≤ resolution ∧ m.head.SampledAt resolution := by
  obtain ⟨table, htable, rfl⟩ := Option.map_eq_some_iff.mp hresolution
  rcases (hs.sound_head Link.tabulated_invariant hfind).1 with ⟨_, hnone⟩ | ⟨_, hsome, hmake⟩
  · rw [htable] at hnone
    cases hnone
  · obtain rfl : table = _ := Option.some.inj (htable.symm.trans hsome)
    obtain ⟨hpos, _, hsamples⟩ := Table.result_make_natCast_eq_ok_iff.mp hmake
    rw [Table.resolution_ofFunction hsamples]
    exact ⟨hpos, table, htable, hsamples⟩

/-- Of one expression whose values are at most so many times as far apart as their places,
the mapping that looks its values up and the one that evaluates them differ by at most
half of what the expression can change across a cell, in the units of the output range.
It is so for tables of any resolution, which exist and are made if there is room for them,
after any calls that set ranges, and for mappings at any places of any sessions, as long as
both have the same ranges and give no reports. -/
theorem lookup_close_to_evaluation [Elementary ℚ] [Numeral ℚ] {e : Expression ℚ} {slope : ℚ}
    (hf : Rational.Lipschitz e.eval slope) :
    (∀ resolution : Nat, 1 ≤ resolution → ∃ table : Table ℚ,
      Table.ofFunction e.eval resolution (some (.unit .none .silent)) = .ok table ∧
      (Capacity.tableFault? (resolution + 1) = none →
        (Table.make e.eval resolution (some (.unit .none .silent))).result = .ok table) ∧
      ∀ (precision precision' : Precision) (targets targets' : List (Link ℚ))
        (calls calls' : List (Domain ℚ × Option RepeatPolicy)) (m m' : Mapping ℚ),
      m = Mapping.withRanges ⟨.fresh e precision .silent (some table), targets⟩ calls →
      m' = Mapping.withRanges ⟨.fresh e precision' .silent none, targets'⟩ calls' →
      m'.head.input = m.head.input → m'.head.output = m.head.output →
      ∀ x, ∃ a b, m.map x none = pure a ∧ m'.map x none = pure b ∧
        |a - b| ≤ |m.head.output.span| * slope / (2 * resolution)) ∧
    ∀ (s s' : Session ℚ) (place place' : Place) (entry entry' : Entry ℚ) (m m' : Mapping ℚ)
        (resolution : Nat),
      s.Reachable → s'.Reachable →
      s.find? place = some (entry, m) → s'.find? place' = some (entry', m') →
      m.head.expression = e → m'.head.expression = e →
      m.head.resolution = some resolution → m'.head.resolution = none →
      m'.head.input = m.head.input → m'.head.output = m.head.output →
      m.head.input.onExceed = .silent → m.head.output.onExceed = .silent →
      ∀ x, ∃ a b, m.map x none = pure a ∧ m'.map x none = pure b ∧
        |a - b| ≤ |m.head.output.span| * slope / (2 * resolution) := by
  constructor
  · intro resolution hpos
    obtain ⟨table, hsamples⟩ := Table.exists_ofFunction_iff.mpr fun k hk =>
      hf.exists_value (Rational.place_mem hk).1 (Rational.place_mem hk).2
    refine ⟨table, hsamples, ?_, ?_⟩
    · intro hfits
      exact Table.result_make_natCast_eq_ok_iff.mpr ⟨hpos, hfits, hsamples⟩
    intro precision precision' targets targets' calls calls' m m' hm hm' hinput houtput x
    have hsampled : m.head.expression = e ∧ m.head.Quiet ∧ m.head.SampledAt resolution := by
      rw [hm]
      apply Mapping.withRanges_induct (P := fun link =>
        link.expression = e ∧ link.Quiet ∧ link.SampledAt resolution)
      · intro link d repeats ⟨hexpression, hquiet, hsampled⟩ hd
        exact ⟨hexpression, hquiet.withDomain hd repeats,
          hsampled.withDomain hquiet.domain d repeats⟩
      · exact ⟨rfl, .fresh e precision (some table), table, rfl, hsamples⟩
    have hevaluated : m'.head.expression = e ∧ m'.head.table = none := by
      rw [hm']
      apply Mapping.withRanges_induct (P := fun link => link.expression = e ∧ link.table = none)
      · intro link d repeats ⟨hexpression, htable⟩ _
        exact ⟨hexpression, by rw [Link.withDomain, htable, Option.map_none]⟩
      · exact ⟨rfl, rfl⟩
    obtain ⟨hexpression, hquiet, htable⟩ := hsampled
    rw [← hexpression] at hf
    exact htable.abs_eval_sub_le hpos hquiet hevaluated.2 (hevaluated.1.trans hexpression.symm) hinput
      houtput hf x
  · intro s s' place place' entry entry' m m' resolution hs hs' hfind hfind' hexpression
      hexpression' hresolution hresolution' hinput houtput hin hout x
    have hholds := hs.sound_head Link.holds_invariant hfind
    have hquiet : m.head.Quiet := ⟨hholds.2, hin, hout, hholds.1⟩
    obtain ⟨hpos, hsampled⟩ := hs.sampledAt hfind hresolution
    rw [← hexpression] at hf
    exact hsampled.abs_eval_sub_le hpos hquiet
      (Option.map_eq_none_iff.mp hresolution') (hexpression'.trans hexpression.symm) hinput houtput
      hf x

/-- A rise from zero to one across a quarter of the unit interval, then a fall back. -/
def slopes : Expression ℚ := ⟨[⟨[⟨.triangle, [1 / 4], #[1 / 4]⟩]⟩]⟩

theorem eval_slopes [Elementary ℚ] (u : ℚ) :
    slopes.eval u = .ok (if u < 1 / 4 then 4 * u else 4 / 3 * (1 - u)) := by
  have hrise : Scalar.divide u (1 / 4) = .ok (u / (1 / 4)) := Rational.divide_eq (by norm_num)
  have hfall : Scalar.divide (1 - u) (1 - 1 / 4) = .ok ((1 - u) / (1 - 1 / 4)) :=
    Rational.divide_eq (by norm_num)
  have hchain : (⟨[⟨.triangle, [1 / 4], #[1 / 4]⟩]⟩ : Chain ℚ).eval u =
      .ok (if u < 1 / 4 then u / (1 / 4) else (1 - u) / (1 - 1 / 4)) := by
    change (if u < 1 / 4 then Scalar.divide u (1 / 4) else Scalar.divide (1 - u) (1 - 1 / 4)) >>=
      pure = _
    rw [hrise, hfall]
    split <;> rfl
  change (Chain.eval _ u >>= fun y => pure [y]) >>= (fun values =>
    Scalar.divide (Scalar.sum values) (0 + 1)) = _
  rw [hchain]
  change Scalar.divide (0 + _) (0 + 1) = _
  rw [Rational.divide_eq (by norm_num), Except.ok.injEq]
  split <;> ring

theorem lipschitz_slopes [Elementary ℚ] : Rational.Lipschitz slopes.eval 4 := by
  intro u v hu hu' hv hv'
  refine ⟨_, _, eval_slopes u, eval_slopes v, ?_⟩
  have hle := le_abs_self (u - v)
  have hge := neg_le_abs (u - v)
  rw [abs_le]
  constructor <;> split <;> split <;> linarith

set_option synthInstance.maxSize 512 in
/-- Three cells for a range that is counted downwards, and ten cells in a session. The
place a quarter has the value one; neither table has a sample there. -/
theorem lookup_close_to_evaluation_slopes :
    let _ := linear
    let _ := fractions
    ∃ (table : Table ℚ) (m m' : Mapping ℚ) (s : Session ℚ) (entry entry' : Entry ℚ)
        (looked evaluated : Mapping ℚ),
      (Table.make slopes.eval (3 : Nat) (some (.unit .none .silent))).result = .ok table ∧
      m = Mapping.withRanges ⟨.fresh slopes .low .silent (some table), []⟩
        [(⟨1, 3, 0, 7⟩, some .belowMin), (⟨2, 2, 0, 1⟩, none), (⟨10, 0, 4, -4⟩, some .both)] ∧
      m' = Mapping.withRanges ⟨.fresh slopes .highest .silent none, []⟩ [(⟨10, 0, 4, -4⟩, none)] ∧
      m.map (15 / 2) none = pure (-4 / 3) ∧ m'.map (15 / 2) none = pure (-4) ∧
      |(-4 / 3 : ℚ) - (-4)| ≤ |m.head.output.span| * 4 / (2 * (3 : Nat)) ∧
      s.Reachable ∧ s.find? ⟨"looked up", 0⟩ = some (entry, looked) ∧
      s.find? ⟨"evaluated", 0⟩ = some (entry', evaluated) ∧
      looked.map (15 / 2) none = pure (-44 / 15) ∧ evaluated.map (15 / 2) none = pure (-4) ∧
      |(-44 / 15 : ℚ) - (-4)| ≤ |looked.head.output.span| * 4 / (2 * (10 : Nat)) := by
  let _ := linear
  let _ := fractions
  obtain ⟨hstanding, hsessions⟩ := lookup_close_to_evaluation lipschitz_slopes
  obtain ⟨table, htable, hmake, hstanding⟩ := hstanding 3 (by decide)
  have hsamples : Table.ofFunction slopes.eval 3 (some (.unit .none .silent)) =
      .ok ⟨3, #[0, 8 / 9, 4 / 9, 0, 0]⟩ := by
    decide +kernel
  obtain rfl := Except.ok.inj (hsamples.symm.trans htable)
  replace hmake := hmake (by decide +kernel)
  let table : Table ℚ := ⟨3, #[0, 8 / 9, 4 / 9, 0, 0]⟩
  obtain ⟨m, hm⟩ : ∃ m, m = Mapping.withRanges ⟨.fresh slopes .low .silent (some table), []⟩
    [(⟨1, 3, 0, 7⟩, some .belowMin), (⟨2, 2, 0, 1⟩, none), (⟨10, 0, 4, -4⟩, some .both)] := ⟨_, rfl⟩
  obtain ⟨m', hm'⟩ : ∃ m', m' = Mapping.withRanges ⟨.fresh slopes .highest .silent none, []⟩
    [(⟨10, 0, 4, -4⟩, none)] := ⟨_, rfl⟩
  have hvalue : (m.map (15 / 2) none).result = .ok (-4 / 3) := by
    rw [hm]
    decide +kernel
  have hvalue' : (m'.map (15 / 2) none).result = .ok (-4) := by
    rw [hm']
    decide +kernel
  obtain ⟨a, b, ha, hb, hclose⟩ := hstanding .low .highest [] [] _ _ m m' hm hm'
    (by rw [hm, hm']; decide +kernel) (by rw [hm, hm']; decide +kernel) (15 / 2)
  rw [ha, Outcome.result_pure, Except.ok.injEq] at hvalue
  rw [hb, Outcome.result_pure, Except.ok.injEq] at hvalue'
  subst hvalue hvalue'
  let s : Session ℚ := (start ⟨.standard, .ofSeed 0⟩ ⟨.standard, .ofSeed 0⟩).after
    [.compile .own "looked up" "triangle 0.25" (some .low),
      .compile .own "evaluated" "triangle 0.25" (some .highest),
      .change ⟨"looked up", 0⟩ (.setRange ⟨1, 3, 0, 7⟩ (some .belowMin)),
      .change ⟨"evaluated", 0⟩ (.setRange ⟨10, 0, 4, -4⟩ none),
      .change ⟨"looked up", 0⟩ (.setRange ⟨2, 2, 0, 1⟩ none),
      .change ⟨"looked up", 0⟩ (.setRange ⟨10, 0, 4, -4⟩ (some .both))]
  have hs : s.Reachable := ⟨_, _, _, rfl⟩
  have hlooked : (s.find? ⟨"looked up", 0⟩).map (fun found => (found.2.head.expression,
      found.2.head.resolution, found.2.head.input, found.2.head.output,
      (found.2.map (15 / 2) none).result)) =
        some (slopes, some 10, ⟨10, 0, .both, .silent⟩, ⟨4, -4, .none, .silent⟩,
          .ok (-44 / 15)) := by
    decide +kernel
  have hevaluated : (s.find? ⟨"evaluated", 0⟩).map (fun found => (found.2.head.expression,
      found.2.head.resolution, found.2.head.input, found.2.head.output,
      (found.2.map (15 / 2) none).result)) =
        some (slopes, none, ⟨10, 0, .both, .silent⟩, ⟨4, -4, .none, .silent⟩, .ok (-4)) := by
    decide +kernel
  obtain ⟨⟨entry, looked⟩, hfind, hfound⟩ := Option.map_eq_some_iff.mp hlooked
  obtain ⟨⟨entry', evaluated⟩, hfind', hfound'⟩ := Option.map_eq_some_iff.mp hevaluated
  simp only [Prod.mk.injEq] at hfound hfound'
  obtain ⟨hexpression, hresolution, hinput, houtput, hnumber⟩ := hfound
  obtain ⟨hexpression', hresolution', hinput', houtput', hnumber'⟩ := hfound'
  obtain ⟨c, d, hc, hd, hclose'⟩ := hsessions s s _ _ entry entry' looked evaluated 10 hs hs hfind
    hfind' hexpression hexpression' hresolution hresolution' (hinput'.trans hinput.symm)
    (houtput'.trans houtput.symm) (by rw [hinput]) (by rw [houtput]) (15 / 2)
  rw [hc, Outcome.result_pure, Except.ok.injEq] at hnumber
  rw [hd, Outcome.result_pure, Except.ok.injEq] at hnumber'
  subst hnumber hnumber'
  exact ⟨table, m, m', s, entry, entry', looked, evaluated, hmake, hm, hm', ha, hb, hclose, hs,
    hfind, hfind', hc, hd, hclose'⟩

end Session

end Easing
