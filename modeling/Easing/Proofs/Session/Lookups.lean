import Easing.Proofs.Mapping.Tabulated
import Easing.Proofs.Mapping.Unreported
import Easing.Proofs.Session.Commutation
import Easing.Proofs.Session.Policy
import Easing.Proofs.Session.Texts

/-! # Ranges matter to lookups alone

A definition is compiled if it can be read and, unless the precision is the highest, its
curve has a value at each place of the table. What the ranges do about numbers outside
them has no part in that: nothing that is made or changed asks a range, so that no number
is reported or refused before one is looked up.
-/

namespace Easing

variable {α : Type} [Scalar α] [Numeral α]

/-- Why a definition is not compiled. -/
inductive Compiler.Config.Fails (config : Config) (text : String) (requested : Option Precision)
    (g : Generator) : Fault α → Prop
  /-- It cannot be read. -/
  | unread {f : Fault α} (h : (Expression.parse text g).1.result = .error f) :
      Fails config text requested g f
  /-- At a precision with a table, the curve has no value at one of the places, and has
  values at all places before. -/
  | unsampled {e : Expression α} {precision : Precision} {k : Nat} {cause : EvalFault}
      (hread : (Expression.parse text g).1.result = .ok e)
      (hprecision : e.selectPrecision requested config.precision = precision)
      (hsampled : precision ≠ .highest) (hk : k ≤ precision.resolution)
      (hfails : e.eval (Table.place precision.resolution k) = .error cause)
      (hbefore : ∀ j < k, ∃ y, e.eval (Table.place precision.resolution j) = .ok y) :
      Fails config text requested g (.evaluation cause)

theorem Compiler.Config.result_compile_eq_error_iff {config : Config} {text : String}
    {requested : Option Precision} {g : Generator} {f : Fault α} :
    (config.compile text requested g : Outcome α (Link α) × Generator).1.result = .error f ↔
      config.Fails text requested g f := by
  unfold compile
  rcases hparse : (Expression.parse text : Build α _) g with ⟨⟨notices, fault | e⟩, g'⟩
  · have hread : (Expression.parse text g : Outcome α _ × _).1.result = .error fault := by
      rw [hparse]
    rw [Build.bind_apply_error hparse, Except.error.injEq]
    constructor
    · rintro rfl
      exact .unread hread
    · rintro (h | ⟨h, _⟩)
      · rw [hread] at h
        exact Except.error.inj h
      · rw [hread] at h
        cases h
  · have hread : (Expression.parse text g : Outcome α _ × _).1.result = .ok e := by rw [hparse]
    have hlink : (config.link e requested).result =
        (Link.make e (e.selectPrecision requested config.precision) config.onExceed).result := rfl
    rw [Build.bind_apply_ok hparse, Build.ofOutcome_apply, hlink, Link.result_make_eq_error_iff]
    constructor
    · rintro ⟨hsampled, k, hk, cause, rfl, hfails, hbefore⟩
      exact .unsampled hread rfl hsampled hk hfails hbefore
    · rintro (h | ⟨h, rfl, hsampled, hk, hfails, hbefore⟩)
      · rw [hread] at h
        cases h
      · rw [hread, Except.ok.injEq] at h
        subst h
        exact ⟨hsampled, _, hk, _, rfl, hfails, hbefore⟩

namespace Session

theorem unreported_changed (s : Session α) (maker : Maker) (m : Mapping α) (change : Change α) :
    (s.changed maker m change).1.Unreported := by
  cases change with
  | setRange d repeats => exact .ofResult fun _ => Mapping.isExceeded_of_setRange
  | setBlendRange start stop => exact .ofResult fun _ => Mapping.isExceeded_of_setBlendRange
  | setTarget definition precision =>
      rw [changed, run_outcome]
      exact Compiler.Config.unreported_attach _ _ _ _ _

/-- Nothing but a question asks a range. -/
theorem unreported_act (s : Session α) {action : Action α}
    (h : ∀ place query, action ≠ .query place query) : (s.act action).1.Unreported := by
  cases action with
  | compile maker name definition precision =>
      rw [act_compile, keep_outcome, run_outcome]
      exact ((Compiler.Config.unreported_compile _ _ _ _).map _).map _
  | build name request =>
      rw [act_build, keep_outcome, run_outcome]
      exact (Compiler.Config.unreported_build _ _ _).map _
  | parse definition =>
      rw [act_parse_outcome, run_outcome]
      exact ((Expression.unreported_parse definition _).map _).map _
  | query place query => exact absurd rfl (h place query)
  | change place change =>
      cases hfind : s.find? place with
      | none =>
          simp only [act, hfind]
          exact .ofResult fun _ h => Except.error.inj h ▸ rfl
      | some found =>
          rw [act_change_of_some hfind, keep_outcome]
          exact (s.unreported_changed _ _ _).map _

/-! ## The action of the ranges -/

/-- What is made or changed succeeds, gives notice or fails the same under any action. -/
theorem verdict_act_under (action : ExceedAction) (s : Session α) {a : Action α}
    (h : ∀ place query, a ≠ .query place query) :
    ((s.under action).act a).1.verdict = (s.act a).1.verdict := by
  cases a with
  | compile maker name definition precision =>
      rw [act_compile, act_compile, compile_ifOwn, run_map, run_under]
      simp only [keep_outcome, Outcome.verdict_map]
  | build name request =>
      have hbuild : (s.under action).own.config.build request =
          Mapping.under action <$> s.own.config.build request :=
        Compiler.Config.build_under action s.own.config request
      rw [act_build, act_build, hbuild, run_map, run_under]
      simp only [keep_outcome, Outcome.verdict_map]
  | parse definition => simp only [act, run_under]
  | query place query => exact absurd rfl (h place query)
  | change place change =>
      cases hfind : s.find? place with
      | none =>
          have hnone : (s.under action).find? place = none := by rw [find?_under, hfind]; rfl
          simp only [act, hfind, hnone]
      | some found =>
          obtain ⟨entry, m⟩ := found
          have hsome : (s.under action).find? place =
              some (entry.under action, entry.maker.ifOwn (Mapping.under action) m) := by
            rw [find?_under, hfind]
            rfl
          rw [act_change_of_some hfind, act_change_of_some hsome, keep_outcome, keep_outcome,
            Outcome.verdict_map, Outcome.verdict_map]
          change (Session.changed _ entry.maker _ change).1.verdict = _
          rw [changed_under, Outcome.verdict_map]

/-- Whatever a compiler is told, a definition fails to compile exactly if it cannot be
read or its curve, at a precision with a table, has no value at a place of the table, and
it has the fault of reading or that at the first such place. The expression and the state
of the generator are those of reading. In every session, whatever is made or changed
reports and refuses no number for being outside a range, and succeeds or fails the same,
with the same notices and into the same state, under any action of the ranges. -/
theorem ranges_matter_to_lookups_alone :
    (∀ (config : Compiler.Config) (text : String) (requested : Option Precision) (g : Generator),
      (∀ f : Fault α, (config.compile text requested g : Outcome α (Link α) × _).1.result =
          .error f ↔ config.Fails text requested g f) ∧
        (config.compile text requested g : Outcome α (Link α) × _).2 =
          (Expression.parse text g : Outcome α (Expression α) × _).2 ∧
        ∀ link : Link α, (config.compile text requested g).1.result = .ok link →
          (Expression.parse text g).1.result = .ok link.expression) ∧
      ∀ (s : Session α) (a : Action α), (∀ place query, a ≠ .query place query) →
        (s.act a).1.Unreported ∧
          ∀ action, ((s.under action).act a).1.verdict = (s.act a).1.verdict ∧
            ((s.under action).act a).2 = (s.act a).2.under action := by
  constructor
  · intro config text requested g
    refine ⟨fun f => Compiler.Config.result_compile_eq_error_iff, ?_, fun link h => ?_⟩
    · exact config.compile_snd text requested g
    · exact Compiler.Config.parse_of_compile h
  · intro s a ha
    refine ⟨s.unreported_act ha, fun action => ⟨verdict_act_under action s ha, ?_⟩⟩
    exact act_under action s a

/-- A constant above the unit interval under the strictest action: it is sampled, moved and
given a target without a fault, and refused only when it is looked up. A curve without
values is compiled only where it is not sampled. -/
theorem ranges_matter_to_lookups_strict :
    let s : Session Float := (start ⟨⟨.high, .fail, none⟩, .ofSeed 0⟩ ⟨.standard, .ofSeed 0⟩).after
      [.compile .own "high" "constant 3" (some .low)]
    let move : Action Float := .change ⟨"high", 0⟩ (.setRange ⟨0, 10, 6, 5⟩ none)
    let aim : Action Float := .change ⟨"high", 0⟩ (.setTarget "constant -2" (some .low))
    s.Reachable ∧ (s.act move).1.Unreported ∧ ((s.act move).2.act aim).1.Unreported ∧
      (((s.act move).2.act aim).2.find? ⟨"high", 1⟩).isSome = true ∧
      (((s.act move).2.act aim).2.act (.query ⟨"high", 0⟩ (.map 1 none))).1.verdict.result =
        .error (.exceeded 3 6 5) ∧
      ((Compiler.Config.standard.compile "constant inf > sin" (some .low) (.ofSeed 0) :
        Outcome Float (Link Float) × Generator).1.result = .error (.evaluation .infiniteAngle)) ∧
      (s.act (.compile .own "wave" "constant inf > sin" (some .highest))).1.verdict.result =
        .ok () := by
  intro s move aim
  obtain ⟨hcompile, hact⟩ := ranges_matter_to_lookups_alone (α := Float)
  have hmove : ∀ place query, move ≠ .query place query := fun _ _ h => nomatch h
  have haim : ∀ place query, aim ≠ .query place query := fun _ _ h => nomatch h
  refine ⟨⟨_, _, _, rfl⟩, (hact s move hmove).1, (hact _ aim haim).1, ?_, ?_, ?_, ?_⟩
  · decide +kernel
  · decide +kernel
  · let wave : Expression Float := ⟨[⟨[⟨.constant, [1 / 0], #[1 / 0]⟩, ⟨.sin, [], #[]⟩]⟩]⟩
    apply (hcompile .standard "constant inf > sin" (some .low) (.ofSeed 0)).1 _ |>.mpr
    exact .unsampled (e := wave) (k := 0) (by decide +kernel) rfl (by decide) (by decide)
      (by decide +kernel) (fun j hj => absurd hj (Nat.not_lt_zero j))
  · decide +kernel

end Session

end Easing
