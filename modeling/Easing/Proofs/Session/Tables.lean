import Easing.Proofs.Number.Rational
import Easing.Proofs.Session.Follow

/-! # Tables after any changes

In exact arithmetic, no history of changes can be seen in a table. Whatever the
ranges were in between, and whichever changes were refused, the samples are the
values of the expression in the units of the present output range.
-/

namespace Easing.Session

/-- Every mapping, at any depth and after any actions, is looked up exactly if
its precision is not the highest, and stays so for as long as it is there. Its
table has a sample for each of its places, in the present output range, and the
last one twice: it is the table that would be made now. -/
theorem tables_follow_output [Elementary ℚ] [Numeral ℚ] {s : Session ℚ} (hs : s.Reachable)
    {place : Place} {entry : Entry ℚ} {m : Mapping ℚ} (hfind : s.find? place = some (entry, m)) :
    (m.head.strategy = "approximate" ↔ m.head.precision ≠ .highest) ∧
      (∀ t, Follows place s t →
        ∃ entry' m', t.find? place = some (entry', m') ∧ m.head.SameCurve m'.head) ∧
      (m.head.strategy = "approximate" → ∃ table,
        m.head.table = some table ∧
          table.resolution = m.head.precision.resolution ∧
          table.samples.size = table.resolution + 2 ∧
          (∀ k ≤ table.resolution, ∃ y,
            m.head.expression.eval ((k : ℚ) / (table.resolution : ℚ)) = .ok y ∧
              table.samples[k]? = some (m.head.output.start + y * m.head.output.span)) ∧
          table.samples[table.resolution + 1]? = table.samples[table.resolution]? ∧
          Table.make m.head.expression.eval m.head.precision.resolution (some m.head.output) =
            ⟨[], .ok table⟩) := by
  have htabulated := (hs.sound_head Link.tabulated_invariant hfind).1
  refine ⟨htabulated.strategy_iff, fun t ht => ht.sameCurve hfind, ?_⟩
  intro hstrategy
  cases htable : m.head.table with
  | none => simp [Link.strategy, htable] at hstrategy
  | some table => exact ⟨table, rfl, htabulated.samples htable⟩

/-- Angles and powers without a value, for curves that have none. -/
@[reducible] def linear : Elementary ℚ where
  pi := 355 / 113
  sin _ := .error .infiniteAngle
  cos _ := .error .infiniteAngle
  pow _ _ := .error .powerTooLarge

/-- Rational numbers are read off decimals and written as fractions. -/
@[reducible] def fractions : Numeral ℚ where
  text x := toString x
  brief x := toString x
  read? token :=
    match Spelling.read? token.toList with
    | some (.decimal negative digits exponent) =>
      some ((if negative then -1 else 1) * digits * 10 ^ exponent)
    | _ => none

/-- The table of a target that was attached to a mapping with a reversed output
range and then moved, between two refused changes. -/
theorem tables_follow_output_moved :
    let _ := linear
    let _ := fractions
    ∃ (s : Session ℚ) (entry : Entry ℚ) (m : Mapping ℚ) (table : Table ℚ),
      s.Reachable ∧ s.find? ⟨"ramp", 1⟩ = some (entry, m) ∧ m.head.table = some table ∧
        table.samples.size = 12 ∧ table.samples[3]? = some (17 / 5) ∧
        table.samples[11]? = table.samples[10]? := by
  let _ := linear
  let _ := fractions
  let s : Session ℚ := (start ⟨.standard, .ofSeed 0⟩ ⟨.standard, .ofSeed 0⟩).after
    [.compile .own "ramp" "x" (some .low),
      .change ⟨"ramp", 0⟩ (.setRange ⟨0, 10, 5, -5⟩ none),
      .change ⟨"ramp", 0⟩ (.setRange ⟨0, 10, 5, 5⟩ none),
      .change ⟨"ramp", 0⟩ (.setTarget "invert" (some .low)),
      .change ⟨"ramp", 1⟩ (.setRange ⟨0, 1, 2, 4⟩ none),
      .change ⟨"ramp", 1⟩ (.setTarget "no such curve" none)]
  have hs : s.Reachable := ⟨_, _, _, rfl⟩
  have hhead : (s.find? ⟨"ramp", 1⟩).map (fun found => (found.2.head.strategy,
      found.2.head.precision, found.2.head.output, found.2.head.expression.eval (3 / 10))) =
        some ("approximate", .low, ⟨2, 4, .none, .silent⟩, .ok (7 / 10)) := by
    decide +kernel
  obtain ⟨⟨entry, m⟩, hfind, hm⟩ := Option.map_eq_some_iff.mp hhead
  simp only [Prod.mk.injEq] at hm
  obtain ⟨hstrategy, hprecision, houtput, hvalue⟩ := hm
  obtain ⟨table, htable, hresolution, hsize, hsamples, hlast, _⟩ :=
    (tables_follow_output hs hfind).2.2 hstrategy
  rw [hprecision] at hresolution
  have hten : table.resolution = 10 := hresolution
  rw [hten] at hsize hsamples hlast
  obtain ⟨y, hy, hsample⟩ := hsamples 3 (by omega)
  have heq : y = 7 / 10 := Except.ok.inj (hy.symm.trans hvalue)
  refine ⟨s, entry, m, table, hs, hfind, htable, hsize, ?_, hlast⟩
  rw [hsample, heq, houtput]
  decide +kernel

end Easing.Session
