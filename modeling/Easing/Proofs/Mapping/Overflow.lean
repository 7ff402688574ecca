import Easing.Proofs.Mapping.Blending
import Easing.Proofs.Mapping.Faults
import Easing.Proofs.Number.Overflow
import Easing.Proofs.Session.Strategies
import Easing.Proofs.Source.Compilation

/-! # Distances that cannot be counted in widths

A number that a range holds, or that is in the range, is always brought there. To wrap one
around, its distance is divided by the width, and how many widths that is can be said only
of a finite quotient. The quotient of doubles is infinite or undefined for an infinite
number, and may be for a finite one that is far away from a narrow range; bringing it into
the range then fails, even where numbers outside are not refused.
-/

namespace Easing

namespace Float64

open Float.Model Binary64

variable {x : Float}

/-- Only finite doubles have a ceiling. -/
theorem exists_ceiling_iff : (∃ n, Scalar.ceiling x = .ok n) ↔ Scalar.isFinite x = true := by
  constructor
  · rintro ⟨n, hn⟩
    obtain ⟨k, hk, _⟩ := Except.bind_eq_ok_iff.mp hn
    change (ofFloat x).truncate = .ok k at hk
    change (ofFloat x).isFinite = true
    cases hx : ofFloat x with
    | finite negative significand exponent => rfl
    | nan =>
        rw [hx] at hk
        cases hk
    | infinite negative =>
        rw [hx] at hk
        cases hk
  · intro h
    obtain ⟨k, hk⟩ := Scalar.HasIntegerPart.truncate_of_isFinite h
    exact ⟨_, Except.bind_eq_ok_iff.mpr ⟨k, hk, rfl⟩⟩

end Float64

/-! ## Ranges -/

namespace Range

section

variable {α : Type} [Scalar α] {r : Range α} {x d : α}

/-- The distance of a number from the bound that it is beyond, if the range wraps it around
from there. -/
def excess? (r : Range α) (x : α) : Option α :=
  if x < r.low then (if r.repeats.wrapsBelow then some (r.low - x) else none)
  else if r.high < x then (if r.repeats.wrapsAbove then some (x - r.high) else none)
  else none

/-- The number of widths that a number is to be moved by is finite, before it is rounded. -/
def Counts (r : Range α) (x : α) : Prop :=
  ∀ d ∈ r.excess? x, Scalar.isFinite (d / (r.high - r.low)) = true

/-- The number of a range that is nearest to a number. -/
def nearest (r : Range α) (x : α) : α :=
  if x < r.low then r.low else if r.high < x then r.high else x

/-- A number moved by so many widths, away from the bound that it is beyond. -/
def moved (r : Range α) (x : α) (turns : Int) : α :=
  if x < r.low then x + (turns : α) * (r.high - r.low) else x - (turns : α) * (r.high - r.low)

omit [Scalar α] in
theorem result_report (haction : r.onExceed ≠ .fail) (x : α) : (r.report x).result = .ok () := by
  unfold report
  cases h : r.onExceed with
  | silent => rfl
  | warn => rfl
  | fail => exact absurd h haction

/-- What is to be wrapped around is moved as soon as its distance is counted, and all else
is held. -/
theorem result_check (haction : r.onExceed ≠ .fail) (x : α) :
    (r.check x).result =
      match r.excess? x with
      | none => .ok (r.nearest x)
      | some d => ((r.turns d).mapError Fault.evaluation).map (r.moved x) := by
  have hreport := result_report haction x
  have hmove (d : α) (f : Int → α) : (Outcome.ofEval (r.turns d) >>= fun turns => pure (f turns) :
      Outcome α α).result = ((r.turns d).mapError Fault.evaluation).map f := by
    cases r.turns d <;> rfl
  unfold check excess? nearest
  by_cases hlow : x < r.low
  · rw [if_pos hlow, if_pos hlow, if_pos hlow, Outcome.result_bind, hreport]
    cases r.repeats.wrapsBelow with
    | false => rfl
    | true =>
        have hmoved : r.moved x = fun turns : Int => x + (turns : α) * (r.high - r.low) :=
          funext fun _ => if_pos hlow
        rw [hmoved]
        exact hmove _ _
  · rw [if_neg hlow, if_neg hlow, if_neg hlow]
    by_cases hhigh : r.high < x
    · rw [if_pos hhigh, if_pos hhigh, if_pos hhigh, Outcome.result_bind, hreport]
      cases r.repeats.wrapsAbove with
      | false => rfl
      | true =>
          have hmoved : r.moved x = fun turns : Int => x - (turns : α) * (r.high - r.low) :=
            funext fun _ => if_neg hlow
          rw [hmoved]
          exact hmove _ _
    · rw [if_neg hhigh, if_neg hhigh, if_neg hhigh]
      rfl

/-- A range that holds numbers on both sides wraps none around. -/
theorem exists_check_of_held (hheld : r.repeats = .none) (haction : r.onExceed ≠ .fail) (x : α) :
    ∃ y, (r.check x).result = .ok y := by
  have hnone : r.excess? x = none := by
    simp [excess?, hheld, RepeatPolicy.wrapsBelow, RepeatPolicy.wrapsAbove]
  rw [result_check haction, hnone]
  exact ⟨_, rfl⟩

theorem turns_eq [Scalar.Guarded α] (hbounds : checkBounds r.start r.stop = .ok ()) (d : α) :
    r.turns d = Scalar.ceiling (d / (r.high - r.low)) := by
  rw [turns, Scalar.divide_eq_ok (width_beq_zero hbounds)]
  rfl

theorem result_normalize [Scalar.Guarded α] (hbounds : checkBounds r.start r.stop = .ok ())
    (x : α) : (r.normalize x).result = (r.check x).result.map fun y => (y - r.start) / r.span := by
  unfold normalize
  rw [Outcome.result_bind]
  cases (r.check x).result with
  | error f => rfl
  | ok y =>
      change (Outcome.ofEval (Scalar.divide (y - r.start) r.span)).result = _
      rw [Scalar.divide_eq_ok (span_beq_zero hbounds)]
      rfl

end

variable {r : Range Float} {x : Float}

/-- A range of doubles answers where it can count, and fails for want of an integer
otherwise. -/
theorem exists_check_iff (hbounds : checkBounds r.start r.stop = .ok ())
    (haction : r.onExceed ≠ .fail) (x : Float) :
    ((∃ y, (r.check x).result = .ok y) ↔ r.Counts x) ∧
      (¬ r.Counts x → ∃ cause, (cause = .integerOfNaN ∨ cause = .integerOfInfinity) ∧
        (r.check x).result = .error (.evaluation cause)) := by
  rw [result_check haction]
  cases hexcess : r.excess? x with
  | none => simp [Counts, hexcess]
  | some d =>
      have hturns := turns_eq hbounds d
      have hcounts : r.Counts x ↔ ∃ n, r.turns d = .ok n := by
        rw [hturns, Float64.exists_ceiling_iff, Counts, hexcess]
        simp
      rw [hcounts]
      dsimp only
      cases hresult : r.turns d with
      | ok n => exact ⟨⟨fun _ => ⟨n, rfl⟩, fun _ => ⟨_, rfl⟩⟩, fun hnot => absurd ⟨n, rfl⟩ hnot⟩
      | error cause =>
          rw [hturns] at hresult
          have hcause := Scalar.Guarded.truncate_error (Except.eq_error_of_bind_pure hresult)
          refine ⟨⟨fun ⟨_, h⟩ => (nomatch h), fun ⟨_, h⟩ => (nomatch h)⟩, fun _ => ?_⟩
          exact ⟨cause, hcause, rfl⟩

/-- An infinite or undefined number is at no distance that can be counted. -/
theorem not_counts_of_not_finite (hexcess : r.excess? x ≠ none)
    (hx : Scalar.isFinite x = false) : ¬ r.Counts x := by
  intro hcounts
  obtain ⟨d, hd⟩ := Option.ne_none_iff_exists'.mp hexcess
  have hfinite := hcounts d hd
  have hdistance : Scalar.isFinite d = false := by
    unfold excess? at hd
    split at hd
    · split at hd
      · obtain rfl := Option.some.inj hd
        exact Float64.isFinite_sub (.inr hx)
      · cases hd
    · split at hd
      · split at hd
        · obtain rfl := Option.some.inj hd
          exact Float64.isFinite_sub (.inl hx)
        · cases hd
      · cases hd
  rw [Float64.isFinite_div hdistance] at hfinite
  cases hfinite

end Range

/-! ## The identity -/

/-- The identity is read as one fast step, which has a value at every double. -/
theorem Expression.exists_parse_identity (g : Generator) :
    ∃ (e : Expression Float) (g' : Generator), parse "x" g = (⟨[], .ok e⟩, g') ∧
      e.isFast = true ∧ ∀ u, ∃ y, e.eval u = .ok y := by
  have hline : "x".toList = Definition.line [[.identity]] := by decide +kernel
  obtain ⟨⟨chains⟩, g', hparse, hnames, hweights⟩ :=
    Expression.exists_parse_line (α := Float) (by simp) (by simp) (by simp) hline g
  obtain ⟨_, htotal, _⟩ := Expression.exists_totalWeight (Nat.one_ne_zero) hweights
  obtain ⟨⟨steps⟩, rfl, hsteps⟩ := List.map_eq_singleton_iff.mp hnames
  obtain ⟨⟨t, arguments, parameters⟩, rfl, rfl⟩ := List.map_eq_singleton_iff.mp hsteps
  have heval (u : Float) :
      eval ⟨[⟨[⟨.identity, arguments, parameters⟩]⟩]⟩ u = Scalar.divide (Scalar.sum [u]) _ := rfl
  refine ⟨_, g', hparse, rfl, fun u => ?_⟩
  rw [heval, Scalar.divide_eq_ok htotal]
  exact ⟨_, rfl⟩

/-- Unless a precision with a table is asked for, the identity compiles to a link that
evaluates it. -/
theorem Compiler.Config.exists_compile_identity (config : Compiler.Config)
    {requested : Option Precision} (hrequested : requested = none ∨ requested = some .highest)
    (g : Generator) :
    ∃ e : Expression Float, (∀ u, ∃ y, e.eval u = .ok y) ∧
      (config.compile "x" requested g).1.result =
        .ok (.fresh e .highest config.onExceed none) := by
  obtain ⟨e, g', hparse, hfast, hvalues⟩ := Expression.exists_parse_identity g
  have hprecision : e.selectPrecision requested config.precision = .highest := by
    rcases hrequested with rfl | rfl
    · exact if_pos hfast
    · rfl
  have hlink : (config.link e requested).result =
      (Link.make e (e.selectPrecision requested config.precision) config.onExceed).result := rfl
  refine ⟨e, hvalues, ?_⟩
  rw [config.compile_of_parse requested hparse, hlink, hprecision]
  rfl

/-- A link that evaluates an expression with values everywhere has a value wherever its
input range can count. -/
theorem Link.exists_eval_iff (link : Link Float) (hdomain : link.domain.check = .ok ())
    (htable : link.table = none) (hvalues : ∀ u, ∃ y, link.expression.eval u = .ok y)
    (hheld : link.output.repeats = .none) (hinput : link.input.onExceed ≠ .fail)
    (houtput : link.output.onExceed ≠ .fail) (x : Float) :
    (∃ y, (link.eval x).result = .ok y) ↔ link.input.Counts x := by
  obtain ⟨hinputBounds, _⟩ := Domain.check_eq_ok_iff.mp hdomain
  rw [← (Range.exists_check_iff hinputBounds hinput x).1]
  simp only [eval, htable, Outcome.result_bind_eq_ok_iff, Range.result_normalize hinputBounds]
  constructor
  · rintro ⟨y, place, hplace, _⟩
    obtain ⟨inside, hinside, _⟩ := Except.eq_ok_of_map hplace
    exact ⟨inside, hinside⟩
  · rintro ⟨inside, hinside⟩
    obtain ⟨y, hy⟩ := hvalues ((inside - link.input.start) / link.input.span)
    obtain ⟨z, hz⟩ := Range.exists_check_of_held hheld houtput
      (link.output.start + y * link.output.span)
    exact ⟨z, _, by rw [hinside]; rfl, y, Outcome.result_ofEval_eq_ok_iff.mpr hy, hz⟩

/-- Unless numbers outside are refused, an accepted range of doubles answers every number
whose distance it can count in widths, and fails for want of an integer otherwise. A number
that is not finite is at no distance that can be counted, unless it is held. The identity
from such a range to any accepted range has a value at the same numbers. -/
theorem Range.answers_what_it_counts {r : Range Float}
    (hbounds : checkBounds r.start r.stop = .ok ()) (haction : r.onExceed ≠ .fail) (x : Float) :
    ((∃ y, (r.check x).result = .ok y) ↔ r.Counts x) ∧
      ((∃ y, (r.normalize x).result = .ok y) ↔ r.Counts x) ∧
      (¬ r.Counts x → ∃ cause, (cause = .integerOfNaN ∨ cause = .integerOfInfinity) ∧
        (r.check x).result = .error (.evaluation cause) ∧
        (r.normalize x).result = .error (.evaluation cause)) ∧
      (Scalar.isFinite x = false → (r.Counts x ↔ r.excess? x = none)) ∧
      ∀ (config : Compiler.Config) (requested : Option Precision) (g : Generator),
        config.onExceed = r.onExceed → requested = none ∨ requested = some .highest →
        ∃ link : Link Float, (config.compile "x" requested g).1.result = .ok link ∧
          ∀ (start stop : Float) (repeats : Option RepeatPolicy),
            checkBounds start stop = .ok () → repeats.getD .both = r.repeats →
            ∃ m, Mapping.setRange ⟨link, []⟩ ⟨r.start, r.stop, start, stop⟩ repeats = .ok m ∧
              m.head.input = r ∧ ((∃ y, (m.map x none).result = .ok y) ↔ r.Counts x) := by
  obtain ⟨hchecks, hfails⟩ := exists_check_iff hbounds haction x
  refine ⟨hchecks, ?normalize, fun hnot => ?fails, fun hx => ?infinite, ?identity⟩
  case normalize =>
    rw [← hchecks, result_normalize hbounds]
    constructor
    · rintro ⟨place, hplace⟩
      obtain ⟨inside, hinside, _⟩ := Except.eq_ok_of_map hplace
      exact ⟨inside, hinside⟩
    · rintro ⟨inside, hinside⟩
      exact ⟨_, by rw [hinside]; rfl⟩
  case fails =>
    obtain ⟨cause, hcause, hcheck⟩ := hfails hnot
    exact ⟨cause, hcause, hcheck, by rw [result_normalize hbounds, hcheck]; rfl⟩
  case infinite =>
    refine ⟨fun hcounts => ?_, fun hnone d hd => ?_⟩
    · by_contra hexcess
      exact not_counts_of_not_finite hexcess hx hcounts
    · rw [hnone] at hd
      cases hd
  case identity =>
    intro config requested g hsame hrequested
    obtain ⟨e, hvalues, hcompile⟩ := config.exists_compile_identity hrequested g
    refine ⟨_, hcompile, fun start stop repeats houtput hrepeats => ?_⟩
    have hdomain : (⟨r.start, r.stop, start, stop⟩ : Domain Float).check = .ok () :=
      Domain.check_eq_ok_iff.mpr ⟨hbounds, houtput⟩
    have hinput : (⟨r.start, r.stop, repeats.getD .both, config.onExceed⟩ : Range Float) = r := by
      rw [hrepeats, hsame]
    refine ⟨_, Mapping.setRange_of_ok hdomain _ repeats, hinput, ?_⟩
    have hconfig : config.onExceed ≠ .fail := by rwa [hsame]
    let link := (Link.fresh e .highest config.onExceed none).withDomain
      ⟨r.start, r.stop, start, stop⟩ repeats
    have heval := link.exists_eval_iff hdomain rfl hvalues rfl hconfig hconfig x
    have hcounts : link.input.Counts x ↔ r.Counts x := Iff.of_eq (congrArg (Counts · x) hinput)
    exact heval.trans hcounts

/-- A number that is wrapped around from below, and an infinite one that is held above, by a
range that counts downwards. -/
theorem Range.answers_what_it_counts_downwards :
    ∃ (link : Link Float) (m : Mapping Float),
      (Compiler.Config.compile ⟨.high, .warn, none⟩ "x" none (.ofSeed 0)).1.result = .ok link ∧
        Mapping.setRange ⟨link, []⟩ ⟨10, 0, 1, 2⟩ (some .belowMin) = .ok m ∧
        ((⟨10, 0, .belowMin, .warn⟩ : Range Float).check (-25)).result = .ok 5 ∧
        (∃ y, (m.map (-25) none).result = .ok y) ∧
        (⟨10, 0, .belowMin, .warn⟩ : Range Float).Counts (1 / 0) := by
  let r : Range Float := ⟨10, 0, .belowMin, .warn⟩
  have hbounds : checkBounds r.start r.stop = .ok () := by decide +kernel
  have haction : r.onExceed ≠ .fail := by decide
  have hvalue : (r.check (-25)).result = .ok 5 := by decide +kernel
  have hheld : (r.check (1 / 0)).result = .ok 10 := by decide +kernel
  obtain ⟨hcounts, _, _, _, hidentity⟩ := answers_what_it_counts hbounds haction (-25)
  obtain ⟨link, hlink, hmap⟩ := hidentity ⟨.high, .warn, none⟩ none (.ofSeed 0) rfl (.inl rfl)
  obtain ⟨m, hm, _, hvalues⟩ := hmap 1 2 (some .belowMin) (by decide +kernel) rfl
  exact ⟨link, m, hlink, hm, hvalue, hvalues.mpr (hcounts.mp ⟨5, hvalue⟩),
    (answers_what_it_counts hbounds haction (1 / 0)).1.mp ⟨10, hheld⟩⟩

/-- Where a quotient overflows nothing is answered, although numbers outside are not refused:
neither about a finite number far from a narrow range, which is a whole number of widths
away, nor about an infinite one. -/
theorem Range.quotients_overflow :
    let narrow : Range Float := ⟨0, 9.332636185032189e-302, .both, .silent⟩
    let unit : Range Float := ⟨0, 1, .both, .warn⟩
    (checkBounds narrow.start narrow.stop = .ok () ∧ checkBounds unit.start unit.stop = .ok ()) ∧
      (narrow.check 1.2676506002282294e30).result = .error (.evaluation .integerOfInfinity) ∧
      (narrow.normalize 1.2676506002282294e30).result = .error (.evaluation .integerOfInfinity) ∧
      (unit.check (1 / 0)).result = .error (.evaluation .integerOfInfinity) ∧
      (unit.normalize (1 / 0)).result = .error (.evaluation .integerOfInfinity) ∧
      ¬ ∀ (r : Range Float) (x : Float), checkBounds r.start r.stop = .ok () →
        r.onExceed ≠ .fail → Scalar.isNaN x = false → ∃ y, (r.check x).result = .ok y := by
  intro narrow unit
  have hbounds : checkBounds narrow.start narrow.stop = .ok () := by decide +kernel
  have hfails : (narrow.check 1.2676506002282294e30).result =
      .error (.evaluation .integerOfInfinity) := by decide +kernel
  refine ⟨⟨hbounds, by decide +kernel⟩, hfails, by decide +kernel, by decide +kernel,
    by decide +kernel, fun h => ?_⟩
  obtain ⟨y, hy⟩ := h narrow 1.2676506002282294e30 hbounds (by decide) (by decide +kernel)
  rw [hfails] at hy
  cases hy

end Easing
