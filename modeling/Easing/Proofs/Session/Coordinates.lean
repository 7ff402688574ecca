import Easing.Proofs.Mapping.Coordinates
import Easing.Proofs.Session.Containment
import Easing.Proofs.Session.Tables

/-! # Changing ranges changes units

In exact arithmetic, and without reports, a mapping with any ranges is the mapping
of the unit interval in other units, whichever changes have led to its ranges. Only
the present ranges matter: mappings of one expression that were sampled equally
finely and have the same ranges now answer alike.
-/

namespace Easing

section

variable {α : Type} [Scalar α]

/-- Links of one curve with one output range have one table. -/
theorem Link.Tabulated.table_eq {link other : Link α} (h : link.Tabulated)
    (h' : other.Tabulated) (hexpression : other.expression = link.expression)
    (hprecision : other.precision = link.precision) (houtput : other.output = link.output) :
    other.table = link.table := by
  rcases h with ⟨hexact, htable⟩ | ⟨happrox, htable, hmake⟩
  · rcases h' with ⟨_, htable'⟩ | ⟨happrox', _, _⟩
    · rw [htable, htable']
    · rw [hprecision, hexact] at happrox'
      cases happrox'
  · rcases h' with ⟨hexact', _⟩ | ⟨_, htable', hmake'⟩
    · rw [hprecision, happrox] at hexact'
      cases hexact'
    · rw [hexpression, hprecision, houtput, hmake, Except.ok.injEq] at hmake'
      rw [htable, htable', hmake']

/-- A link whose curve was once sampled can be made anew. Its table is the new one,
moved into the output range. -/
theorem Link.Tabulated.exists_make [Scalar.HasUnit α] [Scalar.Exact α] {link : Link α}
    (h : link.Tabulated)
    (hbounds : Range.checkBounds link.output.start link.output.stop = .ok ())
    (onExceed : ExceedAction) :
    ∃ table, (Link.make link.expression link.precision onExceed).result =
        .ok ⟨link.expression, link.precision, .unit .both onExceed, .unit .none onExceed,
          .unit .none onExceed, table⟩ ∧
      link.table = table.map fun table => table.rescale (.unit .none onExceed) link.output := by
  rcases h with ⟨hexact, htable⟩ | ⟨happrox, htable, hmake⟩
  · exact ⟨none, Link.result_make_eq_ok_iff.mpr ⟨none, .exact hexact, rfl⟩, htable⟩
  · have hunit : (Table.make link.expression.eval link.precision.resolution
        (some (.unit .none onExceed))).result = .ok _ := Table.make_rescale hbounds hmake
    refine ⟨_, Link.result_make_eq_ok_iff.mpr ⟨_, .approximate happrox hunit, rfl⟩, ?_⟩
    -- Moved back, the new table is made in the output range like the present one.
    have hback : (Table.make link.expression.eval link.precision.resolution
        (some link.output)).result = .ok _ :=
      Table.make_rescale (Scalar.HasUnit.checkBounds_zero_one (α := α)) hunit
    rw [hmake, Except.ok.injEq] at hback
    rw [htable, Option.map_some, ← hback]

end

theorem Rational.rescale_unit [Elementary ℚ] (table : Table ℚ) (repeats : RepeatPolicy)
    (onExceed : ExceedAction) :
    table.rescale (.unit repeats onExceed) (.unit repeats onExceed) = table := by
  simp only [Table.rescale, toUnit_unit, fromUnit_unit, Array.map_id']

theorem Domain.check_unit {α : Type} [Scalar α] [Scalar.HasUnit α] :
    (⟨0, 1, 0, 1⟩ : Domain α).check = .ok () :=
  Domain.check_eq_ok_iff.mpr
    ⟨Scalar.HasUnit.checkBounds_zero_one, Scalar.HasUnit.checkBounds_zero_one⟩

namespace Session

/-- In every state a mapping takes a place of its input range to the place of its
output range to which the mapping of the unit interval takes it, if its ranges give
no reports and either are counted upwards or wrap around on both sides or neither.
Mappings with the same curve and ranges answer alike, whatever came before. -/
theorem ranges_are_units [Elementary ℚ] [Numeral ℚ] {s : Session ℚ} (hs : s.Reachable)
    {place : Place} {entry : Entry ℚ} {m : Mapping ℚ} (hfind : s.find? place = some (entry, m))
    (hin : m.head.input.onExceed = .silent) (hout : m.head.output.onExceed = .silent)
    (hrepeats : m.head.input.start < m.head.input.stop ∨
      m.head.input.repeats = .none ∨ m.head.input.repeats = .both) :
    (∃ link standing,
      (Link.make m.head.expression m.head.precision .silent).result = .ok link ∧
      Mapping.setRange ⟨link, []⟩ ⟨0, 1, 0, 1⟩ (some m.head.input.repeats) = .ok standing ∧
      ∀ u : ℚ,
        m.map (m.head.input.start + u * (m.head.input.stop - m.head.input.start)) none =
          (fun y => m.head.output.start + (m.head.output.stop - m.head.output.start) * y) <$>
            standing.map u none) ∧
      ∀ (s' : Session ℚ) (place' : Place) (entry' : Entry ℚ) (m' : Mapping ℚ),
        s'.Reachable → s'.find? place' = some (entry', m') →
        m'.head.expression = m.head.expression → m'.head.precision = m.head.precision →
        m'.head.input = m.head.input → m'.head.output = m.head.output →
        ∀ x, m'.map x none = m.map x none := by
  obtain ⟨htabulated, hdomain⟩ := hs.sound_head Link.tabulated_invariant hfind
  have hheld : m.head.output.repeats = .none := (hs.sound_head Link.holds_invariant hfind).1
  obtain ⟨hinput, houtput⟩ := Domain.check_eq_ok_iff.mp hdomain
  constructor
  · obtain ⟨table, hmake, htable⟩ := htabulated.exists_make houtput .silent
    let link : Link ℚ := ⟨m.head.expression, m.head.precision, .unit .both .silent,
      .unit .none .silent, .unit .none .silent, table⟩
    have hstay : (link.withDomain ⟨0, 1, 0, 1⟩ (some m.head.input.repeats)).table = table := by
      change table.map (fun table => table.rescale (.unit .none .silent) (.unit .none .silent)) = _
      simp only [Rational.rescale_unit, Option.map_id']
    have hform : m.head.UnitForm (link.withDomain ⟨0, 1, 0, 1⟩ (some m.head.input.repeats)) :=
      ⟨rfl, rfl, rfl, by rw [hstay]; exact htable⟩
    have heval := hform.eval (Rational.checkBounds_eq_ok_iff.mp hinput)
      (Rational.checkBounds_eq_ok_iff.mp houtput) hin hout hheld hrepeats
    have hunits : m.head.output.fromUnit =
        fun y => m.head.output.start + (m.head.output.stop - m.head.output.start) * y := by
      funext y
      rw [mul_comm]
      rfl
    refine ⟨link, _, hmake, Mapping.setRange_of_ok Domain.check_unit _ _, fun u => ?_⟩
    rw [← hunits]
    exact heval u
  · intro s' place' entry' m' hs' hfind' hexpression hprecision hinput' houtput' x
    have htabulated' := (hs'.sound_head Link.tabulated_invariant hfind').1
    exact Link.eval_congr hexpression hinput' houtput'
      (htabulated.table_eq htabulated' hexpression hprecision houtput') x

/-- A table over a range that is counted downwards, after three changes of which one
was refused. The place nine quarters is wrapped around twice. -/
theorem ranges_are_units_downwards :
    let _ := linear
    let _ := fractions
    ∃ (s : Session ℚ) (entry : Entry ℚ) (m standing : Mapping ℚ),
      s.Reachable ∧ s.find? ⟨"bend", 0⟩ = some (entry, m) ∧ m.head.strategy = "approximate" ∧
        m.head.input = ⟨10, 0, .both, .silent⟩ ∧ m.head.output = ⟨4, -4, .none, .silent⟩ ∧
        m.map (10 + 9 / 4 * (0 - 10)) none =
          (fun y => 4 + (-4 - 4) * y) <$> standing.map (9 / 4) none ∧
        (m.map (10 + 9 / 4 * (0 - 10)) none).result = .ok (-44 / 15) := by
  let _ := linear
  let _ := fractions
  let s : Session ℚ := (start ⟨.standard, .ofSeed 0⟩ ⟨.standard, .ofSeed 0⟩).after
    [.compile .own "bend" "triangle 0.25" (some .low),
      .change ⟨"bend", 0⟩ (.setRange ⟨1, 3, 0, 7⟩ (some .belowMin)),
      .change ⟨"bend", 0⟩ (.setRange ⟨2, 2, 0, 1⟩ none),
      .change ⟨"bend", 0⟩ (.setRange ⟨10, 0, 4, -4⟩ (some .both))]
  have hs : s.Reachable := ⟨_, _, _, rfl⟩
  have hkernel : (s.find? ⟨"bend", 0⟩).map (fun found => (found.2.head.strategy,
      found.2.head.input, found.2.head.output,
      (found.2.map (10 + 9 / 4 * (0 - 10)) none).result)) =
        some ("approximate", ⟨10, 0, .both, .silent⟩, ⟨4, -4, .none, .silent⟩, .ok (-44 / 15)) := by
    decide +kernel
  obtain ⟨⟨entry, m⟩, hfind, hm⟩ := Option.map_eq_some_iff.mp hkernel
  simp only [Prod.mk.injEq] at hm
  obtain ⟨hstrategy, hinput, houtput, hvalue⟩ := hm
  obtain ⟨_, standing, _, _, hunits⟩ := (ranges_are_units hs hfind (by rw [hinput])
    (by rw [houtput]) (by rw [hinput]; exact .inr (.inr rfl))).1
  have hplace := hunits (9 / 4)
  rw [hinput, houtput] at hplace
  exact ⟨s, entry, m, standing, hs, hfind, hstrategy, hinput, houtput, hplace, hvalue⟩

end Session

end Easing
