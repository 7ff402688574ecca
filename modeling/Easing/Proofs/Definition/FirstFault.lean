import Easing.Proofs.Definition.Replay
import Easing.Proofs.Definition.Stages

/-! # Reading ends at the first fault

Every part of reading goes through the stages of its text: it gives the notices
that come before the first failing test and has that test's fault, or a result if
no test fails. This is kept by putting parts together one after another, so it is
shown for the tokens of a step, its rule, and from there up to whole definitions.
No other fault can come out of reading a text.
-/

namespace Easing

/-- Numbers of which the finite ones have an integer part. -/
class Scalar.HasIntegerPart (α : Type) [Scalar α] : Prop where
  truncate_of_isFinite {x : α} : isFinite x = true → ∃ n, truncate x = .ok n

instance : Scalar.HasIntegerPart Float where
  truncate_of_isFinite {x} h := by
    change (Binary64.ofFloat x).isFinite = true at h
    change ∃ n, (Binary64.ofFloat x).truncate = .ok n
    cases hx : Binary64.ofFloat x with
    | finite negative significand exponent => exact ⟨_, rfl⟩
    | nan =>
        rw [hx] at h
        cases h
    | infinite negative =>
        rw [hx] at h
        cases h

variable {α β γ ι : Type}

namespace Build

/-- From whichever generator, an operation gives the notices before the first
failing test and has that test's fault, or without one a result of some kind. -/
def GoesThrough (operation : Build α β) (stages : List (Stage α)) (P : β → Prop) : Prop :=
  ∀ g, (operation g).1.notices = Stage.noticesBefore stages ∧
    match Stage.firstFault stages with
    | some fault => (operation g).1.result = .error fault
    | none => ∃ b, (operation g).1.result = .ok b ∧ P b

theorem ofResult_bind (first : Except (Fault α) β) (second : β → Except (Fault α) γ) :
    (ofOutcome (.ofResult (first >>= second)) : Build α γ) =
      ofOutcome (.ofResult first) >>= fun b => ofOutcome (.ofResult (second b)) := by
  cases first <;> rfl

theorem ofResult_map (f : β → γ) (result : Except (Fault α) β) :
    (ofOutcome (.ofResult (f <$> result)) : Build α γ) = f <$> ofOutcome (.ofResult result) := by
  cases result <;> rfl

namespace GoesThrough

variable {first : Build α β} {second : β → Build α γ} {stages more : List (Stage α)}
  {P : β → Prop} {Q : γ → Prop}

theorem pure {b : β} (h : P b) : GoesThrough (Pure.pure b : Build α β) [] P :=
  fun _ => ⟨rfl, b, rfl, h⟩

theorem fault {fault : Fault α} :
    GoesThrough (Build.fault fault : Build α β) [.test false fault] P :=
  fun _ => ⟨rfl, rfl⟩

theorem notify (notice : Notice α) :
    GoesThrough (ofOutcome (.notify notice)) [.notice notice] fun _ : Unit => True :=
  fun _ => ⟨rfl, (), rfl, trivial⟩

/-- A result that depends on a test. -/
theorem ofResult {result : Except (Fault α) β} {passed : Bool} {fault : Fault α}
    (hpassed : passed = true → ∃ b, result = .ok b ∧ P b)
    (hfailed : passed = false → result = .error fault) :
    GoesThrough (ofOutcome (.ofResult result)) [.test passed fault] P := by
  intro g
  cases passed with
  | true => exact ⟨rfl, hpassed rfl⟩
  | false => exact ⟨rfl, hfailed rfl⟩

theorem imp (h : GoesThrough first stages P) {P' : β → Prop} (himp : ∀ b, P b → P' b) :
    GoesThrough first stages P' := by
  intro g
  obtain ⟨hnotices, hresult⟩ := h g
  refine ⟨hnotices, ?_⟩
  split
  next fault hfault => simpa only [hfault] using hresult
  next hnone =>
    simp only [hnone] at hresult
    obtain ⟨b, hb, hP⟩ := hresult
    exact ⟨b, hb, himp b hP⟩

/-- The stages of a sequence are those of its parts, one after another. -/
theorem bind (hfirst : GoesThrough first stages P)
    (hsecond : ∀ b, P b → GoesThrough (second b) more Q) :
    GoesThrough (first >>= second) (stages ++ more) Q := by
  intro g
  obtain ⟨hnotices, hresult⟩ := hfirst g
  rcases hrun : first g with ⟨⟨notices, result⟩, g'⟩
  rw [hrun] at hnotices hresult
  rw [Stage.firstFault_append]
  cases hfault : Stage.firstFault stages with
  | some fault =>
      simp only [hfault] at hresult
      subst hresult
      rw [bind_apply_error hrun, Stage.noticesBefore_append_of_some hfault]
      exact ⟨hnotices, rfl⟩
  | none =>
      simp only [hfault] at hresult
      obtain ⟨b, rfl, hP⟩ := hresult
      obtain ⟨hnotices', hresult'⟩ := hsecond b hP g'
      rw [bind_apply_ok hrun, Stage.noticesBefore_append_of_none hfault, Option.none_or]
      exact ⟨congrArg₂ (· ++ ·) hnotices hnotices', hresult'⟩

theorem map (h : GoesThrough first stages P) {f : β → γ} (hf : ∀ b, P b → Q (f b)) :
    GoesThrough (f <$> first) stages Q := by
  rw [map_eq_pure_bind, ← List.append_nil stages]
  exact h.bind fun b hb => pure (hf b hb)

/-- Along a list, the stages of one element come after those of the one before. -/
theorem mapM {read : ι → Build α β} {stages : ι → List (Stage α)} {P : ι → β → Prop}
    {xs : List ι} (h : ∀ x ∈ xs, GoesThrough (read x) (stages x) (P x)) :
    GoesThrough (xs.mapM read) (xs.flatMap stages) (List.Forall₂ P xs) := by
  induction xs with
  | nil => exact pure .nil
  | cons x xs ih =>
      have hrest := ih fun y hy => h y (List.mem_cons_of_mem _ hy)
      rw [List.mapM_cons, List.flatMap_cons]
      refine (h x List.mem_cons_self).bind fun y hy => ?_
      rw [← map_eq_pure_bind]
      exact hrest.map fun ys hys => .cons hy hys

end GoesThrough

end Build

open Build (GoesThrough)

/-! ## Steps -/

namespace Step

variable [Numeral α]

/-- Tokens are read from left to right; parameters without one keep their defaults. -/
theorem goesThrough_readArguments (t : Transform) (defaults : List α) (tokens : List String) :
    GoesThrough (Build.ofOutcome (.ofResult (readArguments t defaults tokens)))
      ((tokens.take defaults.length).map fun token =>
        .test (Numeral.read? token : Option α).isSome (.argumentNotNumber token t))
      fun arguments => arguments.length = defaults.length ∧ ∀ i < defaults.length,
        arguments[i]? = tokens[i]?.elim defaults[i]? Numeral.read? := by
  induction defaults generalizing tokens with
  | nil => exact .pure ⟨rfl, fun i hi => absurd hi (Nat.not_lt_zero i)⟩
  | cons default defaults ih =>
      cases tokens with
      | nil => exact .pure ⟨rfl, fun i hi => by simp⟩
      | cons token tokens =>
          -- The first token is read before the others, which the hypothesis is about.
          have hsplit : readArguments t (default :: defaults) (token :: tokens) =
              ((Numeral.read? token).elim (.error (.argumentNotNumber token t)) .ok >>=
                fun value => (value :: ·) <$> readArguments t defaults tokens) := by
            rw [readArguments]
            cases (Numeral.read? token : Option α) <;> rfl
          rw [hsplit, Build.ofResult_bind, List.length_cons, List.take_succ_cons, List.map_cons,
            ← List.singleton_append]
          refine .bind (P := fun value => Numeral.read? token = some value) (.ofResult ?_ ?_) ?_
          · intro hread
            obtain ⟨value, hvalue⟩ := Option.isSome_iff_exists.mp hread
            exact ⟨value, by rw [hvalue]; rfl, hvalue⟩
          · intro hread
            rw [Option.isSome_eq_false_iff, Option.isNone_iff_eq_none] at hread
            rw [hread]
            rfl
          · intro value hvalue
            rw [Build.ofResult_map]
            refine (ih tokens).map ?_
            rintro arguments ⟨hlength, hget⟩
            refine ⟨by simp [hlength], fun i hi => ?_⟩
            cases i with
            | zero => simp [hvalue]
            | succ i => simpa using hget i (by simpa using hi)

end Step

section Steps

variable [Scalar α]

/-- A rule objects to the argument that it is about unless it accepts. -/
theorem Transform.rejected?_eq (t : Transform) (argument : Nat → α) :
    rejected? t ((List.range t.parameterCount).map argument) =
      .ok (if t.accepts argument then none else some (argument t.judged)) := by
  cases t with
  | exp | outward | inward =>
      cases h : argument 0 == 0 <;> simp [rejected?, accepts, judged, parameterCount, h] <;> rfl
  | cycle =>
      cases h : argument 0 == 1 <;> simp [rejected?, accepts, judged, parameterCount, h] <;> rfl
  | narrow =>
      cases h : argument 0 == argument 1 <;>
        simp [rejected?, accepts, judged, parameterCount, List.range_succ, h] <;> rfl
  | peak | triangle =>
      simp only [accepts, Bool.and_eq_true, decide_eq_true_eq]
      rfl
  | random | squareRandom =>
      simp only [accepts, Bool.and_eq_true, decide_eq_true_eq, and_assoc]
      rfl
  | _ => rfl

/-- Accepted arguments are resolved, whatever is drawn. -/
theorem Transform.result_resolveAccepted [Scalar.HasIntegerPart α] {t : Transform}
    {argument : Nat → α} (h : t.accepts argument = true) (g : Generator) :
    ∃ parameters, (t.resolveAccepted ((List.range t.parameterCount).map argument) g).1 =
      ⟨[], .ok parameters⟩ := by
  -- Only a break point count is computed with, and it is finite.
  have hcount : t = .random ∨ t = .squareRandom → ∃ n, Scalar.truncate (argument 0) = .ok n := by
    intro ht
    apply Scalar.HasIntegerPart.truncate_of_isFinite
    rcases ht with rfl | rfl <;>
    · simp only [accepts, Bool.and_eq_true] at h
      exact h.1.1
  cases t with
  | random =>
      obtain ⟨n, hn⟩ := hcount (.inl rfl)
      change ∃ parameters, ((Build.ofOutcome (.ofEval (Scalar.truncate (argument 0))) >>=
        fun n => segmentPoints n.toNat : Build α _) g).1 = ⟨[], .ok parameters⟩
      rw [hn]
      exact ⟨_, rfl⟩
  | squareRandom =>
      obtain ⟨n, hn⟩ := hcount (.inr rfl)
      change ∃ parameters, ((Build.ofOutcome (.ofEval (Scalar.truncate (argument 0))) >>=
        fun n => plateauPoints n.toNat : Build α _) g).1 = ⟨[], .ok parameters⟩
      rw [hn]
      exact ⟨_, rfl⟩
  | _ => exact ⟨_, rfl⟩

/-- Parameters to which arguments resolve, from some generator. -/
def Transform.ResolvesTo (t : Transform) (arguments : List α) (parameters : Array α) : Prop :=
  ∃ g g', t.resolve arguments g = (⟨[], .ok parameters⟩, g')

theorem Transform.goesThrough_resolve [Scalar.HasIntegerPart α] (t : Transform)
    (argument : Nat → α) :
    GoesThrough (t.resolve ((List.range t.parameterCount).map argument))
      [.test (t.accepts argument) (.argumentRejected (argument t.judged) t)]
      (t.ResolvesTo ((List.range t.parameterCount).map argument)) := by
  intro g
  have hresolve : t.resolve ((List.range t.parameterCount).map argument) g =
      (if t.accepts argument then t.resolveAccepted ((List.range t.parameterCount).map argument)
        else Build.fault (.argumentRejected (argument t.judged) t)) g := by
    unfold resolve
    rw [rejected?_eq]
    cases t.accepts argument <;> rfl
  cases haccepts : t.accepts argument with
  | false =>
      rw [hresolve, haccepts]
      exact ⟨rfl, rfl⟩
  | true =>
      obtain ⟨parameters, hok⟩ := result_resolveAccepted haccepts g
      rw [haccepts, if_pos rfl] at hresolve
      have hrun : t.resolve ((List.range t.parameterCount).map argument) g =
          (⟨[], .ok parameters⟩, (t.resolve ((List.range t.parameterCount).map argument) g).2) := by
        rw [hresolve, ← hok]
      rw [hrun]
      exact ⟨rfl, parameters, rfl, g, _, hrun⟩

variable [Numeral α]

/-- A step that was read off a phrase. -/
structure Phrase.ReadAs (p : Phrase) (step : Step α) : Prop where
  transform : p.transform? = some step.transform
  arguments : step.arguments = p.arguments step.transform
  parameters : step.transform.ResolvesTo step.arguments step.parameters

theorem Phrase.goesThrough_arguments (p : Phrase) (t : Transform) :
    GoesThrough (Build.ofOutcome (.ofResult (Step.readArguments t t.defaults p.tokens)))
      (p.numbers (α := α) t) fun arguments => arguments = p.arguments t := by
  have hread := Step.goesThrough_readArguments (α := α) t t.defaults p.tokens
  rw [t.length_defaults] at hread
  refine hread.imp fun found ⟨hlength, hget⟩ => ?_
  apply List.ext_getElem?
  intro i
  by_cases hi : i < t.parameterCount
  · have hi' : i < found.length := by omega
    have hvalue := hget i hi
    rw [List.getElem?_eq_getElem hi'] at hvalue ⊢
    rw [arguments, List.getElem?_map, List.getElem?_range hi, Option.map_some, argument]
    cases htoken : p.tokens[i]? with
    | some token =>
        rw [htoken, Option.elim_some] at hvalue
        simp [← hvalue]
    | none =>
        rw [htoken, Option.elim_none] at hvalue
        simp [← hvalue]
  · rw [List.getElem?_eq_none (by omega), arguments, List.getElem?_eq_none]
    simpa using hi

variable [Scalar.HasIntegerPart α]

theorem Phrase.goesThrough_ofArguments {p : Phrase} {t : Transform} (h : p.transform? = some t) :
    GoesThrough (Step.ofArguments t p.tokens) (p.numbers t ++ [p.rule t])
      (p.ReadAs (α := α)) := by
  refine (p.goesThrough_arguments t).bind ?_
  rintro _ rfl
  rw [← List.append_nil [p.rule t]]
  refine (t.goesThrough_resolve (p.argument t)).bind fun parameters hparameters => ?_
  exact .pure ⟨h, rfl, hparameters⟩

/-- Reading a step goes through the stages of its phrase. -/
theorem Step.goesThrough_parse (text : List Char) :
    GoesThrough (Step.parse text) (Phrase.ofText text).stages
      ((Phrase.ofText text).ReadAs (α := α)) := by
  have hparse : (Step.parse text : Build α (Step α)) =
      ofTokens (Phrase.ofText text).name (Phrase.ofText text).tokens := by
    unfold parse Phrase.ofText
    cases (Definition.tokens text).map String.ofList <;> rfl
  rw [hparse]
  generalize Phrase.ofText text = p
  have hname : Transform.ofName? p.name = p.transform? := rfl
  unfold ofTokens Phrase.stages
  rw [hname]
  cases htransform : p.transform? with
  | none => exact .fault
  | some t =>
      have hrest := Phrase.goesThrough_ofArguments (α := α) htransform
      simp only [Phrase.surplus]
      split
      next =>
        rw [List.append_assoc]
        exact (GoesThrough.notify _).bind fun _ _ => hrest
      next => exact hrest

end Steps

/-! ## Chains -/

section Chains

theorem Definition.split_ne_nil (separator : Char) (text : List Char) :
    split separator text ≠ [] := by
  unfold split
  split
  next h => exact absurd h (cut_ne_nil _ text)
  all_goals exact List.cons_ne_nil _ _

variable [Scalar α] [Numeral α]

/-- A chain that was read off phrases. -/
def Phrases.ReadAs (ps : Phrases) (chain : Chain α) : Prop :=
  List.Forall₂ Phrase.ReadAs ps chain.steps

theorem Phrase.ReadAs.text_eq {p : Phrase} {step : Step α} (h : p.ReadAs step) :
    p.text α = step.text := by
  unfold Phrase.text
  rw [h.transform]
  unfold Step.text
  rw [h.arguments]

/-- The weight of a chain that ends with a phrase. -/
theorem Phrase.ReadAs.weight_eq {p : Phrase} {step : Step α} (h : p.ReadAs step) :
    Phrases.weight [p] = Chain.weight ⟨[step]⟩ := by
  obtain ⟨t, arguments, parameters⟩ := step
  obtain ⟨htransform, harguments, hparameters⟩ := h
  dsimp only at htransform harguments hparameters
  by_cases ht : t = .weight
  · subst ht harguments
    obtain ⟨g, g', hresolve⟩ := hparameters
    cases hresolve
    simp only [Phrases.weight, List.getLast?_singleton, htransform, ↓reduceIte]
    rfl
  · have hone : Chain.weight (⟨[⟨t, arguments, parameters⟩]⟩ : Chain α) = 1 := by
      cases t with
      | weight => exact absurd rfl ht
      | _ => rfl
    simp [Phrases.weight, htransform, ht, hone]

theorem map_eq_map_of_forall₂ {β γ δ : Type} {R : β → γ → Prop} {f : β → δ} {f' : γ → δ}
    (h : ∀ b c, R b c → f b = f' c) {bs : List β} {cs : List γ} (hforall : List.Forall₂ R bs cs) :
    bs.map f = cs.map f' := by
  induction hforall with
  | nil => rfl
  | cons hR _ ih => rw [List.map_cons, List.map_cons, h _ _ hR, ih]

namespace Phrases.ReadAs

variable {ps : Phrases} {chain : Chain α}

theorem misplaced_eq (h : ps.ReadAs chain) :
    ps.dropLast.any (·.transform? == some .weight) =
      chain.steps.dropLast.any (·.transform == .weight) := by
  have hmap := congrArg (fun list => list.dropLast.any (· == some Transform.weight))
    (map_eq_map_of_forall₂ (fun _ _ h => h.transform) h)
  simp only [← List.map_dropLast, List.any_map] at hmap
  exact hmap

theorem text_eq (h : ps.ReadAs chain) : ps.text α = chain.text :=
  congrArg _ (map_eq_map_of_forall₂ (fun _ _ h => h.text_eq) h)

theorem weight_eq (h : ps.ReadAs chain) : ps.weight = chain.weight := by
  have hphrases : ps.weight = (ps.getLast?.map fun p => Phrases.weight [p]).getD (1 : α) := by
    unfold weight
    cases ps.getLast? <;> rfl
  have hsteps : chain.weight =
      (chain.steps.getLast?.map fun step => Chain.weight ⟨[step]⟩).getD 1 := by
    unfold Chain.weight
    cases chain.steps.getLast? <;> rfl
  have hmap := congrArg List.getLast? (map_eq_map_of_forall₂ (fun _ _ h => h.weight_eq) h)
  rw [List.getLast?_map, List.getLast?_map] at hmap
  rw [hphrases, hsteps, hmap]

end Phrases.ReadAs

variable [Scalar.HasIntegerPart α]

/-- Reading a chain goes through the stages of its phrases. -/
theorem Chain.goesThrough_parse (text : List Char) :
    GoesThrough (Chain.parse text) (Phrases.ofText text).stages
      ((Phrases.ofText text).ReadAs (α := α)) := by
  have hne : Definition.steps text ≠ [] := Definition.split_ne_nil _ text
  unfold parse ofTexts Phrases.stages Phrases.ofText
  rw [List.flatMap_map]
  refine (GoesThrough.mapM fun piece _ => Step.goesThrough_parse piece).bind fun steps hsteps => ?_
  have hread : Phrases.ReadAs ((Definition.steps text).map Phrase.ofText) ⟨steps⟩ :=
    List.forall₂_map_left_iff.mpr hsteps
  have hempty : steps.isEmpty = false := by
    rw [List.isEmpty_eq_false_iff, ← List.length_pos_iff, ← hsteps.length_eq]
    exact List.length_pos_iff.mpr hne
  rw [hread.misplaced_eq, hread.text_eq]
  refine .ofResult ?_ ?_
  · intro hpassed
    exact ⟨⟨steps⟩, by simp_all [ofSteps], hread⟩
  · intro hfailed
    simp_all [ofSteps]

end Chains

/-! ## Definitions -/

namespace Expression

section

variable [Scalar α] [Numeral α] [Scalar.HasIntegerPart α]

/-- An expression that was read off a text. -/
def ReadAs (text : String) (e : Expression α) : Prop :=
  List.Forall₂ Phrases.ReadAs (Definition.phrases text) e.chains

/-- Reading a definition goes through the stages of its text. -/
theorem goesThrough_parse (text : String) :
    GoesThrough (parse text) (Definition.stages text) (ReadAs (α := α) text) := by
  have hne : Definition.chains (Definition.normalize text.toList) ≠ [] :=
    Definition.split_ne_nil _ _
  unfold parse ofTexts Definition.stages
  rw [Definition.phrases, List.flatMap_map]
  refine (GoesThrough.mapM fun piece _ => Chain.goesThrough_parse piece).bind
    fun chains hchains => ?_
  have hread : List.Forall₂ Phrases.ReadAs (Definition.phrases text) chains :=
    List.forall₂_map_left_iff.mpr hchains
  have hempty : chains.isEmpty = false := by
    rw [List.isEmpty_eq_false_iff, ← List.length_pos_iff, ← hchains.length_eq]
    exact List.length_pos_iff.mpr hne
  have hweights := map_eq_map_of_forall₂ (fun _ _ h => Phrases.ReadAs.weight_eq h) hread
  have htexts := map_eq_map_of_forall₂ (fun _ _ h => Phrases.ReadAs.text_eq h) hread
  rw [Definition.phrases] at hweights htexts
  rw [hweights, htexts]
  have hchains : ofChains chains =
      if Scalar.sum (chains.map Chain.weight) == 0 then
        .error (.weightsSumToZero (" & ".intercalate (chains.map Chain.text)))
      else .ok ⟨chains⟩ := by
    simp only [ofChains, hempty, Bool.false_eq_true, ↓reduceIte]
    rfl
  refine .ofResult ?_ ?_
  · intro hpassed
    rw [Bool.not_eq_true'] at hpassed
    exact ⟨⟨chains⟩, by rw [hchains, hpassed]; rfl, hread⟩
  · intro hfailed
    rw [Bool.not_eq_false'] at hfailed
    rw [hchains, hfailed]
    rfl

end

/-- Reading a text gives the notices before the first stage that fails and has its
fault, whatever the generator. It has a result exactly if no stage fails, and then
each step has the transform and the arguments of its phrase, and parameters to
which these resolve. -/
theorem parse_stops_at_first_fault (text : String) (g : Generator) :
    ((parse text : Build Float (Expression Float)) g).1.notices =
        Stage.noticesBefore (Definition.stages text) ∧
      (∀ fault, ((parse text : Build Float (Expression Float)) g).1.result = .error fault ↔
        Stage.firstFault (Definition.stages text) = some fault) ∧
      ((∃ e, ((parse text : Build Float (Expression Float)) g).1.result = .ok e) ↔
        ∀ stage ∈ Definition.stages (α := Float) text, stage.fails = false) ∧
      ∀ e, ((parse text : Build Float (Expression Float)) g).1.result = .ok e →
        List.Forall₂ (fun phrases chain => List.Forall₂ Phrase.ReadAs phrases chain.steps)
          (Definition.phrases text) e.chains := by
  obtain ⟨hnotices, hresult⟩ := goesThrough_parse (α := Float) text g
  rw [← Stage.firstFault_eq_none_iff]
  refine ⟨hnotices, ?_⟩
  cases hfault : Stage.firstFault (Definition.stages (α := Float) text) with
  | some first =>
      simp only [hfault] at hresult
      rw [hresult]
      simp
  | none =>
      simp only [hfault] at hresult
      obtain ⟨e, he, hread⟩ := hresult
      rw [he]
      simp only [reduceCtorEq, Except.ok.injEq, exists_eq', forall_eq', iff_self, true_and,
        implies_true]
      exact hread

/-- A surplus token gives notice, and a misplaced weight is found before the token
of the next chain that is no number. A text without faults has a result. -/
theorem parse_stops_at_first_fault_weight :
    (∀ g, ((parse "Random 2, 7 > weight 2 > x && exp y" : Build Float _) g).1 =
      ⟨[.tooManyArguments .random 2], .error (.weightNotLast "random 2.0 > weight 2.0 > x")⟩) ∧
    ∀ g, ∃ e : Expression Float,
      ((parse "triangle & exp nan > weight .5" : Build Float _) g).1.result = .ok e ∧
        e.chains.length = 2 := by
  constructor
  · intro g
    obtain ⟨hnotices, hfault, _⟩ :=
      parse_stops_at_first_fault "Random 2, 7 > weight 2 > x && exp y" g
    have hstages : Stage.noticesBefore (Definition.stages (α := Float)
          "Random 2, 7 > weight 2 > x && exp y") = [.tooManyArguments .random 2] ∧
        Stage.firstFault (Definition.stages (α := Float) "Random 2, 7 > weight 2 > x && exp y") =
          some (.weightNotLast "random 2.0 > weight 2.0 > x") := by
      decide +kernel
    rw [hstages.1] at hnotices
    have hresult := (hfault _).mpr hstages.2
    rw [← hnotices, ← hresult]
  · intro g
    obtain ⟨_, _, hok, hread⟩ := parse_stops_at_first_fault "triangle & exp nan > weight .5" g
    have hstages : (∀ stage ∈ Definition.stages (α := Float) "triangle & exp nan > weight .5",
        stage.fails = false) ∧
          (Definition.phrases "triangle & exp nan > weight .5").length = 2 := by
      decide +kernel
    obtain ⟨e, he⟩ := hok.mpr hstages.1
    exact ⟨e, he, (hread e he).length_eq ▸ hstages.2⟩

end Expression

end Easing
