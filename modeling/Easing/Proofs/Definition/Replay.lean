import Easing.Compiler
import Easing.Proofs.Definition.Normal
import Easing.Proofs.Sequence

/-! # Reading a definition again

Whatever is read has a text of its own, with every argument filled in and none
to spare. Read from the same generator, that text gives the same thing, draws the
same numbers and gives no notice: first for steps, then for chains, then for
whole expressions.
-/

namespace Easing

namespace Build

variable {α β γ ι κ : Type}

/-- Reading again succeeds along a list if it succeeds for each element, from
the generator that the element was first read with. -/
theorem mapM_replay {read : ι → Build α β} {again : κ → Build α β} {print : β → κ}
    (h : ∀ x g notices y g', read x g = (⟨notices, .ok y⟩, g') →
      again (print y) g = (⟨[], .ok y⟩, g'))
    {xs : List ι} {ys : List β} {g g' : Generator} {notices : List (Notice α)}
    (hread : xs.mapM read g = (⟨notices, .ok ys⟩, g')) :
    (ys.map print).mapM again g = (⟨[], .ok ys⟩, g') := by
  -- Each element starts from the generator that the one before has left.
  induction xs generalizing ys g notices with
  | nil =>
      cases hread
      rfl
  | cons x xs ih =>
      rw [List.mapM_cons, bind_eq_ok_iff] at hread
      obtain ⟨_, y, middle, _, hy, hread, _⟩ := hread
      obtain ⟨_, rest, _, _, hrest, hpure, _⟩ := bind_eq_ok_iff.mp hread
      cases hpure
      rw [List.map_cons, List.mapM_cons, bind_apply_ok (h x g _ y middle hy),
        bind_apply_ok (ih hrest)]
      rfl

/-- What is read along a list has the property that each element has when it is read. -/
theorem forall_of_mapM {read : ι → Build α β} {P : β → Prop}
    (h : ∀ x g notices y g', read x g = (⟨notices, .ok y⟩, g') → P y)
    {xs : List ι} {ys : List β} {g g' : Generator} {notices : List (Notice α)}
    (hread : xs.mapM read g = (⟨notices, .ok ys⟩, g')) : ∀ y ∈ ys, P y := by
  induction xs generalizing ys g notices with
  | nil =>
      cases hread
      simp
  | cons x xs ih =>
      rw [List.mapM_cons, bind_eq_ok_iff] at hread
      obtain ⟨_, y, middle, _, hy, hread, _⟩ := hread
      obtain ⟨_, rest, _, _, hrest, hpure, _⟩ := bind_eq_ok_iff.mp hread
      cases hpure
      exact List.forall_mem_cons.mpr ⟨h x g _ y middle hy, ih hrest⟩

theorem ofResult_apply_eq_ok {result : Except (Fault α) β} {g g' : Generator} {b : β}
    {notices : List (Notice α)}
    (h : ofOutcome (.ofResult result) g = (⟨notices, .ok b⟩, g')) : result = .ok b ∧ g = g' := by
  simp only [ofOutcome_apply, Prod.mk.injEq] at h
  exact ⟨congrArg Outcome.result h.1, h.2⟩

/-- Parts that are put together in the end were all read before. -/
theorem collect_eq_ok {read : ι → Build α β} {collect : List β → Except (Fault α) γ}
    {xs : List ι} {c : γ} {g g' : Generator} {notices : List (Notice α)}
    (h : (xs.mapM read >>= fun ys => ofOutcome (.ofResult (collect ys))) g =
      (⟨notices, .ok c⟩, g')) :
    ∃ before ys, xs.mapM read g = (⟨before, .ok ys⟩, g') ∧ collect ys = .ok c := by
  obtain ⟨before, ys, middle, _, hys, hc, _⟩ := bind_eq_ok_iff.mp h
  obtain ⟨hcollect, rfl⟩ := ofResult_apply_eq_ok hc
  exact ⟨before, ys, hys, hcollect⟩

/-- The same for parts that are put together in the end. -/
theorem collect_replay {read : ι → Build α β} {again : κ → Build α β} {print : β → κ}
    {collect : List β → Except (Fault α) γ}
    (h : ∀ x g notices y g', read x g = (⟨notices, .ok y⟩, g') →
      again (print y) g = (⟨[], .ok y⟩, g'))
    {xs : List ι} {c : γ} {g g' : Generator} {notices : List (Notice α)}
    (hread : (xs.mapM read >>= fun ys => ofOutcome (.ofResult (collect ys))) g =
      (⟨notices, .ok c⟩, g')) :
    ∃ ys before middle, xs.mapM read g = (⟨before, .ok ys⟩, middle) ∧ collect ys = .ok c ∧
      ((ys.map print).mapM again >>= fun ys => ofOutcome (.ofResult (collect ys))) g =
        (⟨[], .ok c⟩, g') := by
  obtain ⟨before, ys, hys, hcollect⟩ := collect_eq_ok hread
  refine ⟨ys, before, g', hys, hcollect, ?_⟩
  rw [bind_apply_ok (mapM_replay h hys), hcollect]
  rfl

/-! ## Operations that give no notice -/

/-- An operation that gives no notice, from whichever generator. -/
def Quiet (operation : Build α β) : Prop := ∀ g, (operation g).1.notices = []

theorem Quiet.pure (b : β) : Quiet (pure b : Build α β) := fun _ => rfl

theorem Quiet.ofEval (result : Except EvalFault β) :
    Quiet (ofOutcome (.ofEval result) : Build α β) := fun _ => rfl

theorem Quiet.fault (f : Fault α) : Quiet (fault f : Build α β) := fun _ => rfl

theorem Quiet.draw (next : Generator → β × Generator) : Quiet (draw next : Build α β) :=
  fun _ => rfl

theorem Quiet.bind {first : Build α β} {second : β → Build α γ} (hfirst : Quiet first)
    (hsecond : ∀ b, Quiet (second b)) : Quiet (first >>= second) := by
  intro g
  have hnone := hfirst g
  rcases h : first g with ⟨⟨notices, f | b⟩, g'⟩
  · rw [h] at hnone
    rw [bind_apply_error h]
    exact hnone
  · rw [h] at hnone
    rw [bind_apply_ok h]
    exact List.append_eq_nil_iff.mpr ⟨hnone, hsecond b g'⟩

end Build

namespace Transform

open Build (Quiet)

variable {α : Type} [Scalar α]

theorem quiet_resolveAccepted (t : Transform) (arguments : List α) :
    Quiet (t.resolveAccepted arguments) := by
  unfold resolveAccepted
  split
  · exact .pure _
  · refine .bind (.ofEval _) fun count => ?_
    exact .bind (.draw _) fun points => .pure _
  · refine .bind (.ofEval _) fun count => ?_
    exact .bind (.draw _) fun heights => .pure _
  · exact .pure _

/-- Resolving arguments gives no notice. -/
theorem quiet_resolve (t : Transform) (arguments : List α) : Quiet (t.resolve arguments) := by
  refine .bind (.ofEval _) fun rejected => ?_
  cases rejected with
  | some value => exact .fault _
  | none => exact quiet_resolveAccepted t arguments

end Transform

namespace Step

section Arguments

variable {α : Type} [Numeral α]

theorem length_readArguments {transform : Transform} {defaults arguments : List α}
    {tokens : List String} (h : readArguments transform defaults tokens = .ok arguments) :
    arguments.length = defaults.length := by
  induction defaults generalizing tokens arguments with
  | nil =>
      cases h
      rfl
  | cons default defaults ih =>
      cases tokens with
      | nil =>
          cases h
          rfl
      | cons token tokens =>
          rw [readArguments] at h
          split at h
          next => cases h
          next value _ =>
            obtain ⟨rest, hrest, heq⟩ := Except.bind_eq_ok_iff.mp h
            cases heq
            simp [ih hrest]

/-- Arguments are read off their texts. -/
theorem readArguments_text [LawfulNumeral α] (transform : Transform) {defaults arguments : List α}
    (h : arguments.length = defaults.length) :
    readArguments transform defaults (arguments.map Numeral.text) = .ok arguments := by
  induction arguments generalizing defaults with
  | nil =>
      obtain rfl := List.length_eq_zero_iff.mp h.symm
      rfl
  | cons argument rest ih =>
      cases defaults with
      | nil => cases h
      | cons default defaults =>
          rw [List.length_cons, List.length_cons, Nat.add_right_cancel_iff] at h
          rw [List.map_cons, readArguments, LawfulNumeral.read?_text]
          simp only [ih h]
          rfl

/-- The names of transforms are tokens. -/
theorem word_name (t : Transform) : Definition.Word t.name.toList := by
  have hplain : t.name.toList.all Definition.isPlain = true := by cases t <;> decide +kernel
  constructor
  · cases t <;> decide
  · exact List.all_eq_true.mp hplain

theorem toList_text (step : Step α) :
    step.text.toList =
      Definition.stepLine step.transform.name.toList
        (step.arguments.map fun argument => (Numeral.text argument).toList) := by
  unfold text
  split
  next harguments => rw [harguments]; rfl
  next harguments =>
    have hspace : " ".toList = [' '] := by decide
    have hcomma : ", ".toList = Definition.comma := by decide
    rw [String.toList_append, String.toList_append, String.toList_intercalate, List.map_map,
      hspace, hcomma]
    cases hlist : step.arguments with
    | nil => exact absurd hlist harguments
    | cons first rest => simp [Definition.stepLine, Function.comp_def]

end Arguments

end Step

variable {α : Type} [Scalar α] [Numeral α]

namespace Step

/-- The part of reading a step that comes after the warning. -/
def ofArguments (transform : Transform) (tokens : List String) : Build α (Step α) := do
  let arguments ← Build.ofOutcome (.ofResult (readArguments transform transform.defaults tokens))
  let parameters ← transform.resolve arguments
  return ⟨transform, arguments, parameters⟩

/-- A step that is read has as many arguments as parameters, and resolving them
from the same generator gives its parameters. -/
theorem ofArguments_eq_ok {transform : Transform} {tokens : List String} {step : Step α}
    {g g' : Generator} {notices : List (Notice α)}
    (h : ofArguments transform tokens g = (⟨notices, .ok step⟩, g')) :
    step.arguments.length = step.transform.parameterCount ∧
      step.transform.resolve step.arguments g = (⟨[], .ok step.parameters⟩, g') := by
  obtain ⟨_, arguments, middle, _, harguments, h, _⟩ := Build.bind_eq_ok_iff.mp h
  obtain ⟨before, parameters, last, _, hparameters, hstep, _⟩ := Build.bind_eq_ok_iff.mp h
  cases hstep
  -- Only the warning is a notice, and it was given before.
  have hquiet := transform.quiet_resolve arguments middle
  rw [hparameters] at hquiet
  cases hquiet
  obtain ⟨hread, rfl⟩ := Build.ofResult_apply_eq_ok harguments
  exact ⟨(length_readArguments hread).trans transform.length_defaults, hparameters⟩

theorem ofTokens_eq_ok {name : String} {tokens : List String} {step : Step α} {g g' : Generator}
    {notices : List (Notice α)} (h : ofTokens name tokens g = (⟨notices, .ok step⟩, g')) :
    step.arguments.length = step.transform.parameterCount ∧
      step.transform.resolve step.arguments g = (⟨[], .ok step.parameters⟩, g') := by
  unfold ofTokens at h
  cases hname : Transform.ofName? name with
  | none =>
      rw [hname] at h
      cases h
  | some transform =>
      simp only [hname] at h
      split at h
      next =>
        obtain ⟨_, _, middle, _, hnotify, h, _⟩ := Build.bind_eq_ok_iff.mp h
        cases hnotify
        exact ofArguments_eq_ok h
      next => exact ofArguments_eq_ok h

/-- The tokens of such a step are read without a warning. -/
theorem ofTokens_text [LawfulNumeral α] {step : Step α} {g g' : Generator}
    (hlength : step.arguments.length = step.transform.parameterCount)
    (hresolve : step.transform.resolve step.arguments g = (⟨[], .ok step.parameters⟩, g')) :
    ofTokens step.transform.name (step.arguments.map Numeral.text) g = (⟨[], .ok step⟩, g') := by
  have hread : readArguments step.transform step.transform.defaults
      (step.arguments.map Numeral.text) = .ok step.arguments :=
    readArguments_text step.transform (hlength.trans step.transform.length_defaults.symm)
  have hcount : ¬ step.transform.parameterCount < (step.arguments.map Numeral.text).length := by
    rw [List.length_map, hlength]
    exact Nat.lt_irrefl _
  have hok : (Build.ofOutcome (.ofResult (.ok step.arguments)) : Build α (List α)) g =
      (⟨[], .ok step.arguments⟩, g) := rfl
  unfold ofTokens
  simp only [Transform.ofName?_name, if_neg hcount, hread]
  rw [Build.bind_apply_ok hok, Build.bind_apply_ok hresolve]
  rfl

/-- Reading the text of a step that was read, from the same generator. -/
theorem parse_text [LawfulNumeral α] {text : List Char} {step : Step α} {g g' : Generator}
    {notices : List (Notice α)} (h : parse text g = (⟨notices, .ok step⟩, g')) :
    parse step.text.toList g = (⟨[], .ok step⟩, g') := by
  have hstep : step.arguments.length = step.transform.parameterCount ∧
      step.transform.resolve step.arguments g = (⟨[], .ok step.parameters⟩, g') := by
    unfold parse at h
    cases htokens : (Definition.tokens text).map String.ofList with
    | nil =>
        rw [htokens] at h
        exact ofTokens_eq_ok h
    | cons name tokens =>
        rw [htokens] at h
        exact ofTokens_eq_ok h
  unfold parse
  rw [toList_text, Definition.tokens_stepLine (word_name _)]
  · have htokens : (step.arguments.map fun argument => (Numeral.text argument).toList).map
        String.ofList = step.arguments.map Numeral.text := by
      simp [Function.comp_def]
    rw [List.map_cons, String.ofList_toList, htokens]
    exact ofTokens_text hstep.1 hstep.2
  · intro word hword
    obtain ⟨argument, _, rfl⟩ := List.mem_map.mp hword
    exact LawfulNumeral.word_text argument

end Step

section Lines

open Definition (Line spaced stepSeparator chainSeparator)

variable {α : Type} [Numeral α]

theorem Chain.toList_text (chain : Chain α) :
    chain.text.toList =
      (spaced stepSeparator).intercalate (chain.steps.map fun step => step.text.toList) := by
  have hspaced : " > ".toList = spaced stepSeparator := by decide
  rw [text, String.toList_intercalate, hspaced, List.map_map]
  rfl

theorem Expression.toList_definition (e : Expression α) :
    e.definition.toList =
      (spaced chainSeparator).intercalate (e.chains.map fun chain => chain.text.toList) := by
  have hspaced : " & ".toList = spaced chainSeparator := by decide
  rw [definition, String.toList_intercalate, hspaced, List.map_map]
  rfl

theorem Chain.ofSteps_eq_ok {steps : List (Step α)} {chain : Chain α}
    (h : Chain.ofSteps steps = .ok chain) : chain = ⟨steps⟩ ∧ chain.steps ≠ [] := by
  unfold ofSteps at h
  split at h
  next => cases h
  next hne =>
    split at h
    next => cases h
    next =>
      cases h
      exact ⟨rfl, by simpa using hne⟩

/-- Only the last step of an accepted chain may be a weight. -/
theorem Chain.clear_of_ofSteps {front : List (Step α)} {last : Step α} {chain : Chain α}
    (h : Chain.ofSteps (front ++ [last]) = .ok chain) :
    ∀ step ∈ front, step.transform ≠ .weight := by
  unfold ofSteps at h
  split at h
  next => cases h
  next =>
    split at h
    next => cases h
    next hany =>
      rw [List.dropLast_concat, Bool.not_eq_true, List.any_eq_false] at hany
      intro step hstep
      simpa using hany step hstep

variable [LawfulNumeral α]

theorem Step.line_text (step : Step α) : Line [] step.text.toList := by
  rw [toList_text]
  refine .stepLine (word_name _) ?_
  intro word hword
  obtain ⟨argument, _, rfl⟩ := List.mem_map.mp hword
  exact LawfulNumeral.word_text argument

theorem Chain.line_steps (chain : Chain α) :
    ∀ line ∈ chain.steps.map fun step => step.text.toList, Line [] line := by
  intro line hline
  obtain ⟨step, _, rfl⟩ := List.mem_map.mp hline
  exact step.line_text

theorem Chain.line_text {chain : Chain α} (h : chain.steps ≠ []) :
    Line [stepSeparator] chain.text.toList := by
  rw [toList_text]
  exact .intercalate rfl (by simpa using h) chain.line_steps

/-- The steps of a chain are found in its text. -/
theorem Chain.steps_text {chain : Chain α} (h : chain.steps ≠ []) :
    Definition.steps chain.text.toList = chain.steps.map fun step => step.text.toList := by
  rw [Definition.steps, toList_text]
  exact Line.split_spaced rfl List.not_mem_nil (by simpa using h) chain.line_steps

variable {e : Expression α} (hne : e.chains ≠ []) (h : ∀ chain ∈ e.chains, chain.steps ≠ [])
include h

theorem Expression.line_chains :
    ∀ line ∈ e.chains.map fun chain => chain.text.toList, Line [stepSeparator] line := by
  intro line hline
  obtain ⟨chain, hchain, rfl⟩ := List.mem_map.mp hline
  exact chain.line_text (h chain hchain)

include hne

theorem Expression.line_definition : Line [chainSeparator, stepSeparator] e.definition.toList := by
  rw [toList_definition]
  exact .intercalate rfl (by simpa using hne) (line_chains h)

/-- The chains of an expression are found in its definition. -/
theorem Expression.chains_definition :
    Definition.chains e.definition.toList = e.chains.map fun chain => chain.text.toList := by
  have hnew : chainSeparator ∉ [stepSeparator] := by decide
  rw [Definition.chains, toList_definition]
  exact Line.split_spaced rfl hnew (by simpa using hne) (line_chains h)

end Lines

/-! ## Chains and expressions -/

theorem Expression.ofChains_eq_ok {chains : List (Chain α)} {e : Expression α}
    (h : Expression.ofChains chains = .ok e) : e = ⟨chains⟩ ∧ e.chains ≠ [] := by
  unfold ofChains at h
  split at h
  next => cases h
  next hne =>
    simp only at h
    split at h
    next => cases h
    next =>
      cases h
      exact ⟨rfl, by simpa using hne⟩

variable [LawfulNumeral α]

/-- Reading the text of a chain that was read, from the same generator. -/
theorem Chain.parse_text {text : List Char} {chain : Chain α} {g g' : Generator}
    {notices : List (Notice α)} (h : Chain.parse text g = (⟨notices, .ok chain⟩, g')) :
    chain.steps ≠ [] ∧ Chain.parse chain.text.toList g = (⟨[], .ok chain⟩, g') := by
  obtain ⟨steps, _, _, _, hchain, hagain⟩ :=
    Build.collect_replay (fun _ _ _ _ _ h => Step.parse_text h) h
  obtain ⟨rfl, hne⟩ := ofSteps_eq_ok hchain
  refine ⟨hne, ?_⟩
  rw [parse, steps_text hne]
  exact hagain

/-- Reading the definition of an expression that was read, from the same generator. -/
theorem Expression.parse_definition {text : String} {e : Expression α} {g g' : Generator}
    {notices : List (Notice α)} (h : Expression.parse text g = (⟨notices, .ok e⟩, g')) :
    Definition.normalize e.definition.toList = e.definition.toList ∧
      Expression.parse e.definition g = (⟨[], .ok e⟩, g') := by
  obtain ⟨chains, _, _, hchains, he, hagain⟩ :=
    Build.collect_replay (fun _ _ _ _ _ h => (Chain.parse_text h).2) h
  obtain ⟨rfl, hne⟩ := ofChains_eq_ok he
  have hsteps : ∀ chain ∈ chains, chain.steps ≠ [] :=
    Build.forall_of_mapM (fun _ _ _ _ _ h => (Chain.parse_text h).1) hchains
  have hnormal := (line_definition hne hsteps).normalize
  refine ⟨hnormal, ?_⟩
  rw [parse, hnormal, chains_definition hne hsteps]
  exact hagain

end Easing
