import Easing.Proofs.Expression.UnitInterval
import Easing.Proofs.Mapping.Interpolation
import Easing.Proofs.Session.Coordinates

/-! # Ranges that are never left

In exact arithmetic a curve whose constants are in the unit interval and whose weights
are not negative takes the unit interval to itself, and so does the line between two of
its samples. Whatever the ranges of a mapping are, a number of its input range is then
taken to a number of its output range, so that nothing is reported under any policy.
-/

namespace Easing

open Scalar (InUnit KeepsUnit InRange)

/-- Constants in the unit interval, and weights that are not negative. -/
structure Step.Restrained (step : Step ℚ) : Prop where
  constant : step.transform = .constant → ∀ p ∈ step.arguments, 0 ≤ p ∧ p ≤ 1
  weight : step.transform = .weight → ∀ p ∈ step.arguments, 0 ≤ p

instance (step : Step ℚ) : Decidable step.Restrained :=
  decidable_of_iff ((step.transform = .constant → ∀ p ∈ step.arguments, 0 ≤ p ∧ p ≤ 1) ∧
    (step.transform = .weight → ∀ p ∈ step.arguments, 0 ≤ p))
    ⟨fun h => ⟨h.1, h.2⟩, fun h => ⟨h.1, h.2⟩⟩

/-- An expression of such steps. -/
def Expression.Restrained (e : Expression ℚ) : Prop := ∀ step ∈ e.steps, step.Restrained

instance (e : Expression ℚ) : Decidable e.Restrained :=
  inferInstanceAs (Decidable (∀ step ∈ e.steps, step.Restrained))

section Exact

variable [Elementary ℚ]

namespace Rational

theorem inUnit_iff {x : ℚ} : InUnit x ↔ 0 ≤ x ∧ x ≤ 1 := by
  constructor
  · rintro ⟨_, rfl, h⟩
    exact h
  · exact fun h => ⟨x, rfl, h⟩

/-- In exact arithmetic every sum is one that is rounded at every number. -/
theorem sumsTo (s : ℚ) (ws : List ℚ) : SumsTo ℚ s ws (s + ws.sum) := by
  induction ws generalizing s with
  | nil =>
      rw [List.sum_nil, add_zero]
      exact .nil s
  | cons w ws ih =>
      rw [List.sum_cons, ← add_assoc]
      exact .cons rfl (ih (s + w))

end Rational

/-! ## Curves that were read -/

section Reading

/-- Unless it is a weight, a restrained step that was read keeps to the unit interval. -/
theorem Step.contained_of_accepts {step : Step ℚ} (h : step.Restrained)
    (hne : step.transform ≠ .weight) {argument : ℕ → ℚ}
    (hargument : step.arguments = (List.range step.transform.parameterCount).map argument)
    (haccepts : step.transform.accepts argument = true) {g g' : Generator}
    (hresolve : step.transform.resolveAccepted step.arguments g =
      (⟨[], .ok step.parameters⟩, g')) : step.transform.Contained step.parameters := by
  obtain ⟨t, arguments, parameters⟩ := step
  dsimp only at *
  subst hargument
  refine Transform.contained_of_resolveAccepted haccepts ?_ hresolve
  cases t with
  | constant => exact Rational.inUnit_iff.mpr (h.constant rfl _ (by simp [Transform.parameterCount]))
  | narrow => exact ⟨_, _, _, rfl, rfl, rfl⟩
  | cycle | mirror => exact ⟨_, rfl, fun _ _ => rfl⟩
  | weight => exact absurd rfl hne
  | _ => exact fun _ => ⟨_, rfl⟩

variable [Numeral ℚ]

/-- A restrained step that was read keeps to the unit interval or is a weight. -/
theorem Step.contained_of_parse {text : List Char} {step : Step ℚ} {g g' : Generator}
    {notices : List (Notice ℚ)} (h : parse text g = (⟨notices, .ok step⟩, g')) :
    step.Restrained → (step.transform.Contained step.parameters ∨
      ∃ arguments p, step = ⟨.weight, arguments, #[p]⟩ ∧ 0 ≤ p) := by
  intro hrestrained
  obtain ⟨argument, hargument, haccepts, hresolve⟩ := accepted_of_parse h
  by_cases hweight : step.transform = .weight
  · right
    obtain ⟨t, arguments, parameters⟩ := step
    dsimp only at *
    subst hweight hargument
    cases hresolve
    exact ⟨_, argument 0, rfl, hrestrained.weight rfl _ (by simp [Transform.parameterCount])⟩
  · exact .inl (contained_of_accepts hrestrained hweight hargument haccepts hresolve)

/-- A weight stands behind all other steps of a chain. -/
theorem Chain.contained_of_ofSteps {steps : List (Step ℚ)} {chain : Chain ℚ}
    (h : ofSteps steps = .ok chain)
    (hsteps : ∀ step ∈ steps, step.transform.Contained step.parameters ∨
      ∃ arguments p, step = ⟨.weight, arguments, #[p]⟩ ∧ 0 ≤ p) :
    chain.Contained chain.weight := by
  obtain ⟨rfl, hne⟩ := ofSteps_eq_ok h
  suffices hw : ∃ w, (⟨steps⟩ : Chain ℚ).Contained w by
    obtain ⟨w, hw⟩ := hw
    have hweight : (⟨steps⟩ : Chain ℚ).weight = w := hw.value_weight
    rwa [hweight]
  rcases List.eq_nil_or_concat' steps with rfl | ⟨front, last, rfl⟩
  · exact absurd rfl hne
  · have hfront : ∀ step ∈ front, step.transform.Contained step.parameters := by
      intro step hstep
      apply (hsteps step (List.mem_append_left _ hstep)).resolve_right
      rintro ⟨arguments, p, rfl, _⟩
      exact clear_of_ofSteps h _ hstep rfl
    rcases hsteps last (by simp) with hlast | ⟨arguments, p, rfl, hp⟩
    · refine ⟨1, .plain ?_⟩
      intro step hstep
      rcases List.mem_append.mp hstep with hstep | hstep
      · exact hfront step hstep
      · rwa [List.mem_singleton.mp hstep]
    · exact ⟨p, .weighted hfront rfl hp⟩

/-- A restrained expression that was read is an average in the unit interval. -/
theorem Expression.contained_of_parse {text : String} {e : Expression ℚ} {g : Generator}
    (h : (parse text g).1.result = .ok e) (hrestrained : e.Restrained) : e.Contained := by
  rcases hparse : (parse text : Build ℚ _) g with ⟨⟨notices, result⟩, g'⟩
  rw [hparse] at h
  subst h
  obtain ⟨_, chains, hchains, hcollect⟩ := Build.collect_eq_ok hparse
  have htotal := totalWeight_of_ofChains hcollect
  obtain ⟨rfl, _⟩ := ofChains_eq_ok hcollect
  have hread : ∀ chain ∈ chains, (∀ step ∈ chain.steps, step.Restrained) →
      chain.Contained chain.weight := by
    refine Build.forall_of_mapM (fun _ _ _ chain _ hchain hsteps => ?_) hchains
    obtain ⟨_, steps, hread, hsteps'⟩ := Build.collect_eq_ok hchain
    have hkept := Build.forall_of_mapM (fun _ _ _ _ _ h => Step.contained_of_parse h) hread
    obtain ⟨rfl, _⟩ := Chain.ofSteps_eq_ok hsteps'
    exact Chain.contained_of_ofSteps hsteps' fun step hstep => hkept step hstep (hsteps step hstep)
  have hweights : List.Forall₂ Chain.Contained chains (chains.map Chain.weight) := by
    rw [List.forall₂_map_right_iff, List.forall₂_same]
    intro chain hchain
    apply hread chain hchain
    exact fun step hstep => hrestrained step (List.mem_flatMap.mpr ⟨chain, hchain, hstep⟩)
  refine ⟨_, _, hweights, Rational.sumsTo 0 _, ?_⟩
  have hsum : (⟨chains⟩ : Expression ℚ).totalWeight = 0 + (chains.map Chain.weight).sum := by
    rw [totalWeight, Rational.sum_eq, zero_add]
  rw [← hsum]
  simpa using htotal

end Reading

/-! ## Ranges -/

namespace Rational

variable {r : Range ℚ} {f : ℚ → Except EvalFault ℚ} {x b : ℚ}

theorem keepsUnit_iff :
    KeepsUnit f ↔ ∀ x, 0 ≤ x → x ≤ 1 → ∃ y, f x = .ok y ∧ 0 ≤ y ∧ y ≤ 1 := by
  simp only [KeepsUnit, inUnit_iff, and_imp]

/-- Between the places of a table there is nothing outside the unit interval either. -/
theorem exists_eval_table (hf : KeepsUnit f) {resolution : ℕ} {table : Table ℚ}
    (h : Table.ofFunction f resolution (some r) = .ok table) (hpos : 1 ≤ resolution)
    (hlow : 0 ≤ x) (hhigh : x ≤ 1) :
    ∃ b, table.eval x = .ok (r.fromUnit b) ∧ 0 ≤ b ∧ b ≤ 1 := by
  rw [keepsUnit_iff] at hf
  obtain ⟨k, hk, hcell⟩ := exists_inCell hpos hlow hhigh
  obtain ⟨y, z, hy, hz, heval⟩ := eval_of_inCell h hk
  obtain ⟨hleftLow, hleftHigh⟩ := (InCell.left hk).mem_unit hk
  obtain ⟨hrightLow, hrightHigh⟩ := (InCell.right hk).mem_unit hk
  obtain ⟨y', hy', hyLow, hyHigh⟩ := hf _ hleftLow hleftHigh
  obtain ⟨z', hz', hzLow, hzHigh⟩ := hf _ hrightLow hrightHigh
  obtain rfl : y' = y := Except.ok.inj (hy'.symm.trans hy)
  obtain rfl : z' = z := Except.ok.inj (hz'.symm.trans hz)
  obtain ⟨hshareLow, hshareHigh⟩ := hcell.share_mem hk
  refine ⟨_, heval x hcell, ?_, ?_⟩ <;> nlinarith

end Rational

/-- A link of a curve in the unit interval takes its input range to its output range, and
reports nothing. -/
theorem Link.Tabulated.exists_eval {link : Link ℚ} (h : link.Tabulated)
    (hdomain : link.domain.check = .ok ()) (hf : KeepsUnit link.expression.eval) {x : ℚ}
    (hlow : link.input.low ≤ x) (hhigh : x ≤ link.input.high) :
    ∃ y, link.eval x = pure y ∧ link.output.low ≤ y ∧ y ≤ link.output.high := by
  obtain ⟨hinput, _⟩ := Domain.check_eq_ok_iff.mp hdomain
  have hne : link.input.start ≠ link.input.stop := Rational.checkBounds_eq_ok_iff.mp hinput
  have hplace : link.input.normalize x = pure (link.input.toUnit x) := by
    rw [Rational.normalize_eq hne, Rational.check_of_mem hlow hhigh, map_pure]
  rw [Rational.low_eq] at hlow
  rw [Rational.high_eq] at hhigh
  obtain ⟨hplaceLow, hplaceHigh⟩ := Rational.toUnit_mem hlow hhigh
  unfold Link.eval
  rw [hplace, pure_bind]
  generalize link.input.toUnit x = place at hplaceLow hplaceHigh
  rcases h with ⟨_, htable⟩ | ⟨_, htable, hmake⟩
  · obtain ⟨b, hb, hbLow, hbHigh⟩ := Rational.keepsUnit_iff.mp hf place hplaceLow hplaceHigh
    obtain ⟨hyLow, hyHigh⟩ := Rational.fromUnit_mem (r := link.output) hbLow hbHigh
    refine ⟨link.output.fromUnit b, ?_, hyLow, hyHigh⟩
    rw [htable, hb]
    exact Rational.check_of_mem hyLow hyHigh
  · obtain ⟨hpos, _, hsamples⟩ := Table.result_make_natCast_eq_ok_iff.mp hmake
    obtain ⟨b, hb, hbLow, hbHigh⟩ :=
      Rational.exists_eval_table hf hsamples hpos hplaceLow hplaceHigh
    obtain ⟨hyLow, hyHigh⟩ := Rational.fromUnit_mem (r := link.output) hbLow hbHigh
    refine ⟨link.output.fromUnit b, ?_, hyLow, hyHigh⟩
    rw [htable]
    simp only [hb]
    exact Rational.check_of_mem hyLow hyHigh

/-- The expression of a link was read from a definition, whatever its ranges are. -/
theorem Link.read_invariant [Numeral ℚ] : Link.Invariant (α := ℚ) fun link =>
    ∃ (text : String) (g : Generator), (Expression.parse text g).1.result = .ok link.expression where
  compiled h := by
    obtain ⟨text, g, _, _, _, hparse, hmake⟩ := h.exists_make
    obtain ⟨_, _, rfl⟩ := Link.result_make_eq_ok_iff.mp hmake
    exact ⟨text, g, hparse⟩
  withDomain _ h _ _ := h
  withBlend h _ := h

end Exact

namespace Session

/-- If sines and cosines are between minus one and one, half a turn has sines that are
not negative, and powers with positive exponents keep to the unit interval, then every
expression that is read, with constants in the unit interval and weights that are not
negative, takes the unit interval to itself. A mapping of such an expression, with or
without a table and after any changes of its ranges, takes every number of its input
range to a number of its output range, without a notice and without a fault. -/
theorem unit_interval_is_kept [Elementary ℚ] [Numeral ℚ] (hrange : InRange ℚ) :
    (∀ (text : String) (g : Generator) (e : Expression ℚ),
      (Expression.parse text g).1.result = .ok e → e.Restrained →
        ∀ x, 0 ≤ x → x ≤ 1 → ∃ y, e.eval x = .ok y ∧ 0 ≤ y ∧ y ≤ 1) ∧
      ∀ (s : Session ℚ) (place : Place) (entry : Entry ℚ) (m : Mapping ℚ), s.Reachable →
        s.find? place = some (entry, m) → m.head.expression.Restrained →
          ∀ x, m.head.input.low ≤ x → x ≤ m.head.input.high →
            ∃ y, m.map x none = pure y ∧ m.head.output.low ≤ y ∧ y ≤ m.head.output.high := by
  constructor
  · intro text g e hread hrestrained
    apply Rational.keepsUnit_iff.mp
    exact (Expression.contained_of_parse hread hrestrained).keepsUnit hrange
  · intro s place entry m hs hfind hrestrained x hlow hhigh
    obtain ⟨⟨text, g, hread⟩, hdomain⟩ := hs.sound_head Link.read_invariant hfind
    have htabulated := (hs.sound_head Link.tabulated_invariant hfind).1
    have hkeeps := (Expression.contained_of_parse hread hrestrained).keepsUnit hrange
    exact htabulated.exists_eval hdomain hkeeps hlow hhigh

/-- Powers with natural exponents, for curves without angles. -/
@[reducible] def powers : Elementary ℚ where
  pi := 355 / 113
  sin _ := .ok 0
  cos _ := .ok 1
  pow x y := .ok (x ^ y.num.toNat)

theorem inRange_powers :
    let _ := powers
    InRange ℚ := by
  intro _
  constructor
  · intro x v _
    exact ⟨0, 0, rfl, rfl, by norm_num, by norm_num⟩
  · intro x v _
    exact ⟨1, 1, rfl, rfl, by norm_num, by norm_num⟩
  · intro x y w _ hy hw
    cases hy
    cases hw
    exact le_rfl
  · intro x y w hx _ _
    obtain ⟨hlow, hhigh⟩ := Rational.inUnit_iff.mp hx
    exact ⟨_, rfl, Rational.inUnit_iff.mpr ⟨pow_nonneg hlow _, pow_le_one₀ hlow hhigh⟩⟩

set_option synthInstance.maxSize 512 in
/-- A strict mapping with a table, between ranges of which one is counted downwards. -/
theorem unit_interval_is_kept_strictly :
    let _ := powers
    let _ := fractions
    ∃ (s : Session ℚ) (entry : Entry ℚ) (m : Mapping ℚ),
      s.Reachable ∧ s.find? ⟨"bend", 0⟩ = some (entry, m) ∧ m.head.strategy = "approximate" ∧
        m.head.input = ⟨10, 0, .both, .fail⟩ ∧ m.head.output = ⟨4, 8, .none, .fail⟩ ∧
        ∃ y, m.map 7 none = pure y ∧ m.head.output.low ≤ y ∧ y ≤ m.head.output.high := by
  let _ := powers
  let _ := fractions
  let s : Session ℚ := (start ⟨⟨.high, .fail, none⟩, .ofSeed 0⟩ ⟨.standard, .ofSeed 0⟩).after
    [.compile .own "bend" "random 3 > exp -2 & narrow 0.8, 0.2 > weight 3" (some .low),
      .change ⟨"bend", 0⟩ (.setRange ⟨10, 0, 4, 8⟩ none)]
  have hs : s.Reachable := ⟨_, _, _, rfl⟩
  have hkernel : (s.find? ⟨"bend", 0⟩).map (fun found => (found.2.head.strategy,
      found.2.head.input, found.2.head.output, decide found.2.head.expression.Restrained)) =
        some ("approximate", ⟨10, 0, .both, .fail⟩, ⟨4, 8, .none, .fail⟩, true) := by
    decide +kernel
  obtain ⟨⟨entry, m⟩, hfind, hm⟩ := Option.map_eq_some_iff.mp hkernel
  simp only [Prod.mk.injEq, decide_eq_true_eq] at hm
  obtain ⟨hstrategy, hinput, houtput, hrestrained⟩ := hm
  have hinside : m.head.input.low ≤ 7 ∧ 7 ≤ m.head.input.high := by
    rw [hinput]
    decide +kernel
  exact ⟨s, entry, m, hs, hfind, hstrategy, hinput, houtput,
    (unit_interval_is_kept inRange_powers).2 s _ entry m hs hfind hrestrained 7 hinside.1
      hinside.2⟩

end Session

end Easing
