import Easing.Proofs.Session.Links

/-! # Tables in the current output range

A table is kept in the units of the output range and moved along with it. Where
the numbers of a range are recovered from their places, moving a table gives the
table that would be made in the new range, so however often a table was moved,
it is the one that a link would be given afresh.
-/

namespace Easing

variable {α : Type} [Scalar α]

/-- Numbers for which the way from a place to a range and back leads nowhere else. -/
class Scalar.Exact (α : Type) [Scalar α] : Prop where
  /-- A number at a place of a range has that place. -/
  toUnit_fromUnit {r : Range α} (h : Range.checkBounds r.start r.stop = .ok ()) (place : α) :
    r.toUnit (r.fromUnit place) = place

namespace Table

variable {f : α → Except EvalFault α} {resolution : Int} {output : Option (Range α)}
  {range : Range α} {table : Table α}

/-- A table of a function holds its samples in the units of the range. -/
theorem ofFunction_eq_ok_iff {n : Nat} :
    ofFunction f n (some range) = .ok table ↔
      ∃ samples, sample f n = .ok samples ∧ table = ⟨n, (samples.map range.fromUnit).toArray⟩ := by
  refine Except.bind_eq_ok_iff.trans (exists_congr fun samples => and_congr_right fun _ => ?_)
  exact ⟨fun h => (Except.ok.inj h).symm, fun h => h ▸ rfl⟩

/-- The table of a function is made if it has a cell and its samples are not too many. -/
theorem result_make_eq_ok_iff :
    (make f resolution output).result = .ok table ↔
      1 ≤ resolution ∧ Capacity.tableFault? (resolution.toNat + 1) = none ∧
        ofFunction f resolution.toNat output = .ok table := by
  unfold make
  split
  next hlow =>
    constructor
    · intro h
      cases h
    · rintro ⟨hlow', _⟩
      omega
  next hlow =>
    split
    next cause hcause =>
      constructor
      · intro h
        cases h
      · rintro ⟨_, hnone, _⟩
        rw [hnone] at hcause
        cases hcause
    next hnone =>
      rw [Outcome.result_ofEval_eq_ok_iff]
      constructor
      · intro h
        exact ⟨by omega, hnone, h⟩
      · rintro ⟨_, _, h⟩
        exact h

theorem result_make_natCast_eq_ok_iff {n : Nat} :
    (make f n output).result = .ok table ↔
      1 ≤ n ∧ Capacity.tableFault? (n + 1) = none ∧ ofFunction f n output = .ok table := by
  have hone : (1 : Int) ≤ n ↔ 1 ≤ n := by omega
  rw [result_make_eq_ok_iff, Int.toNat_natCast, hone]

/-- Making a table gives no notice. -/
theorem notices_make (f : α → Except EvalFault α) (resolution : Int) (output : Option (Range α)) :
    (make f resolution output).notices = [] := by
  unfold make
  split
  · rfl
  · split
    · rfl
    · cases ofFunction f resolution.toNat output <;> rfl

/-- A moved table is the table in the new range. -/
theorem ofFunction_rescale [Scalar.Exact α] {n : Nat} {new : Range α}
    (hbounds : Range.checkBounds range.start range.stop = .ok ())
    (h : ofFunction f n (some range) = .ok table) :
    ofFunction f n (some new) = .ok (table.rescale range new) := by
  obtain ⟨samples, hsamples, rfl⟩ := ofFunction_eq_ok_iff.mp h
  refine ofFunction_eq_ok_iff.mpr ⟨samples, hsamples, ?_⟩
  simp only [rescale, mk.injEq, List.map_toArray, List.map_map, true_and]
  congr 1
  apply List.map_congr_left
  intro y _
  simp only [Function.comp_apply, Scalar.Exact.toUnit_fromUnit hbounds]

theorem make_rescale [Scalar.Exact α] {new : Range α}
    (hbounds : Range.checkBounds range.start range.stop = .ok ())
    (h : (make f resolution (some range)).result = .ok table) :
    (make f resolution (some new)).result = .ok (table.rescale range new) := by
  obtain ⟨hlow, hcapacity, htable⟩ := result_make_eq_ok_iff.mp h
  exact result_make_eq_ok_iff.mpr ⟨hlow, hcapacity, ofFunction_rescale hbounds htable⟩

/-- The samples are the values at the places of the table, the last one twice. -/
theorem sample_spec {n : Nat} {samples : List α} (h : sample f n = .ok samples) :
    samples.length = n + 2 ∧ (∀ k ≤ n, ∃ y, f (place n k) = .ok y ∧ samples[k]? = some y) ∧
      samples[n + 1]? = samples[n]? := by
  unfold sample at h
  obtain ⟨values, hvalues, hsamples⟩ := Except.bind_eq_ok_iff.mp h
  cases hsamples
  have hforall := Except.forall₂_of_mapM hvalues
  have hlength : values.length = n + 1 := by
    rw [← hforall.length_eq, List.length_range]
  obtain ⟨last, hlast⟩ : ∃ last, values[n]? = some last :=
    ⟨_, List.getElem?_eq_getElem (by omega)⟩
  -- There is always a last value to be taken twice.
  have htwice : values.getLast?.toList = [last] := by
    rw [List.getLast?_eq_getElem?, hlength, Nat.add_sub_cancel, hlast, Option.toList_some]
  rw [htwice]
  refine ⟨by rw [List.length_append, hlength, List.length_singleton], ?_, ?_⟩
  · intro k hk
    have hget := hforall.get (i := k) (by rw [List.length_range]; omega) (by omega)
    refine ⟨values[k], by simpa using hget, ?_⟩
    rw [List.getElem?_append_left (by omega), List.getElem?_eq_getElem]
  · rw [List.getElem?_append_right (by omega), List.getElem?_append_left (by omega), hlength,
      Nat.sub_self, hlast, List.getElem?_cons_zero]

/-- There is a table of every function with a value at each place. -/
theorem exists_ofFunction_iff {n : Nat} :
    (∃ table, ofFunction f n output = .ok table) ↔ ∀ k ≤ n, ∃ y, f (place n k) = .ok y := by
  constructor
  · rintro ⟨table, h⟩ k hk
    obtain ⟨samples, hsamples, _⟩ := Except.bind_eq_ok_iff.mp h
    obtain ⟨y, hy, _⟩ := (sample_spec hsamples).2.1 k hk
    exact ⟨y, hy⟩
  · intro h
    have hvalues (k : Nat) (hk : k ∈ List.range (n + 1)) : ∃ y, f (place n k) = .ok y ∧ True := by
      obtain ⟨y, hy⟩ := h k (Nat.lt_succ_iff.mp (List.mem_range.mp hk))
      exact ⟨y, hy, trivial⟩
    obtain ⟨values, hvalues, _⟩ := Except.exists_mapM hvalues
    have hsamples : sample f n = .ok (values ++ values.getLast?.toList) :=
      Except.bind_eq_ok_iff.mpr ⟨values, hvalues, rfl⟩
    exact ⟨_, Except.bind_eq_ok_iff.mpr ⟨_, hsamples, rfl⟩⟩

/-- Otherwise there is none, as the function fails at the first place without a value. -/
theorem ofFunction_eq_error_iff {n : Nat} {cause : EvalFault} :
    ofFunction f n output = .error cause ↔
      ∃ k ≤ n, f (place n k) = .error cause ∧ ∀ j < k, ∃ y, f (place n j) = .ok y := by
  have hvalues : ofFunction f n output = .error cause ↔
      (List.range (n + 1)).mapM (fun k => f (place n k)) = .error cause := by
    constructor
    · intro h
      exact Except.eq_error_of_bind_pure (Except.eq_error_of_bind_pure h)
    · intro h
      exact Except.bind_eq_error_iff.mpr (.inl (Except.bind_eq_error_iff.mpr (.inl h)))
  simp only [hvalues, Except.mapM_eq_error_iff, List.length_range, List.getElem_range,
    Nat.lt_succ_iff, exists_prop]

end Table

/-- The tables of all precisions are small enough. -/
theorem Precision.resolution_fits {precision : Precision} (h : precision.isExact = false) :
    1 ≤ precision.resolution ∧ Capacity.tableFault? (precision.resolution + 1) = none := by
  cases precision with
  | highest => cases h
  | _ => exact ⟨by decide, Capacity.fault?_eq_none _ (by decide)⟩

/-- A link cannot be made if its curve is sampled and has no value at some place. The
fault is the one at the first such place. -/
theorem Link.result_make_eq_error_iff {expression : Expression α} {precision : Precision}
    {onExceed : ExceedAction} {fault : Fault α} :
    (Link.make expression precision onExceed).result = .error fault ↔
      precision ≠ .highest ∧ ∃ k ≤ precision.resolution, ∃ cause, fault = .evaluation cause ∧
        expression.eval (Table.place precision.resolution k) = .error cause ∧
          ∀ j < k, ∃ y, expression.eval (Table.place precision.resolution j) = .ok y := by
  unfold make
  cases hexact : precision.isExact with
  | true =>
      have hhighest : precision = .highest := beq_iff_eq.mp hexact
      simp [hhighest]
  | false =>
      have hnot : precision ≠ .highest := ne_of_beq_false hexact
      obtain ⟨hlow, hcapacity⟩ := Precision.resolution_fits hexact
      have hpositive : ¬ ((precision.resolution : Int) < 1) := by omega
      simp only [Bool.false_eq_true, ↓reduceIte, Table.make, hpositive, Int.toNat_natCast,
        hcapacity, bind_pure_comp, Functor.map_map, Outcome.result_map_ofEval_eq_error_iff,
        Table.ofFunction_eq_error_iff]
      constructor
      · rintro ⟨cause, rfl, k, hk, hfails, hbefore⟩
        exact ⟨hnot, k, hk, cause, rfl, hfails, hbefore⟩
      · rintro ⟨_, k, hk, cause, rfl, hfails, hbefore⟩
        exact ⟨cause, rfl, k, hk, hfails, hbefore⟩

/-- A link has a table unless its precision is exact, and it is the table that
would be made of its expression in its present output range. -/
inductive Link.Tabulated (link : Link α) : Prop
  | exact (hprecision : link.precision.isExact = true) (htable : link.table = none)
  | approximate {table : Table α} (hprecision : link.precision.isExact = false)
      (htable : link.table = some table)
      (hmake : (Table.make link.expression.eval link.precision.resolution
        (some link.output)).result = .ok table)

/-- Tables are made so, and moving them with the output range keeps them so. -/
theorem Link.tabulated_invariant [Numeral α] [Scalar.Exact α] :
    Link.Invariant (α := α) Link.Tabulated where
  compiled h := by
    obtain ⟨_, _, _, _, _, _, hmake⟩ := h.exists_make
    obtain ⟨_, hexact | ⟨happrox, htable⟩, rfl⟩ := Link.result_make_eq_ok_iff.mp hmake
    · exact .exact hexact rfl
    · exact .approximate happrox rfl htable
  withDomain {link d} repeats h hdomain _ := by
    rcases h with ⟨hexact, htable⟩ | ⟨happrox, htable, hmake⟩
    · exact .exact hexact (by rw [withDomain, htable, Option.map_none])
    · have hbounds := (Domain.check_eq_ok_iff.mp hdomain).2
      exact .approximate happrox (by rw [withDomain, htable, Option.map_some])
        (Table.make_rescale hbounds hmake)
  withBlend h _ := by
    rcases h with ⟨hexact, htable⟩ | ⟨happrox, htable, hmake⟩
    · exact .exact hexact htable
    · exact .approximate happrox htable hmake

theorem Link.Tabulated.strategy_iff {link : Link α} (h : link.Tabulated) :
    link.strategy = "approximate" ↔ link.precision ≠ .highest := by
  rcases h with ⟨hprecision, htable⟩ | ⟨hprecision, htable, _⟩
  · have hhighest : link.precision = .highest := beq_iff_eq.mp hprecision
    simp [Link.strategy, htable, hhighest]
  · have hnot : link.precision ≠ .highest := ne_of_beq_false hprecision
    simp [Link.strategy, htable, hnot]

/-- The table of a link in numbers: one sample for each place, and one more. -/
theorem Link.Tabulated.samples {link : Link α} (h : link.Tabulated) {table : Table α}
    (htable : link.table = some table) :
    table.resolution = link.precision.resolution ∧
      table.samples.size = table.resolution + 2 ∧
      (∀ k ≤ table.resolution, ∃ y,
        link.expression.eval (Table.place table.resolution k) = .ok y ∧
          table.samples[k]? = some (link.output.fromUnit y)) ∧
      table.samples[table.resolution + 1]? = table.samples[table.resolution]? ∧
      Table.make link.expression.eval link.precision.resolution (some link.output) =
        ⟨[], .ok table⟩ := by
  rcases h with ⟨_, hnone⟩ | ⟨_, hsome, hmake⟩
  · rw [htable] at hnone
    cases hnone
  · rw [htable, Option.some.injEq] at hsome
    subst hsome
    have hfresh : Table.make link.expression.eval link.precision.resolution (some link.output) =
        ⟨[], .ok table⟩ := by
      rw [← hmake, ← Table.notices_make link.expression.eval link.precision.resolution]
    obtain ⟨_, _, htable⟩ := Table.result_make_natCast_eq_ok_iff.mp hmake
    obtain ⟨samples, hsamples, htable⟩ := Table.ofFunction_eq_ok_iff.mp htable
    obtain ⟨hlength, hvalues, hlast⟩ := Table.sample_spec hsamples
    refine ⟨by rw [htable], ?_, ?_, ?_, hfresh⟩
    · rw [htable, List.size_toArray, List.length_map, hlength]
    · intro k hk
      rw [htable] at hk ⊢
      obtain ⟨y, hy, hget⟩ := hvalues k hk
      exact ⟨y, hy, by rw [List.getElem?_toArray, List.getElem?_map, hget, Option.map_some]⟩
    · rw [htable]
      simp only [List.getElem?_toArray, List.getElem?_map, hlast]

end Easing
