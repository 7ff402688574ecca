import Easing.Proofs.Definition.Draws
import Easing.Proofs.Definition.FirstFault
import Mathlib

/-! # What a text draws

Reading a text draws for the random steps that it comes to and accepts, one after
another, and for nothing else: what is drawn is listed stage by stage, and reading has
drawn what stands before the first stage that fails. Of a text without faults, the break
points of each step are the numbers that the generator gives behind those of the steps
before it.
-/

namespace Easing

variable {α β γ ι : Type}

/-! ## Counts -/

section Counts

variable [Scalar α]

/-- The integer part of a number that is not negative. Any other number has none. -/
def Scalar.wholePart (x : α) : Nat :=
  match truncate x with
  | .ok n => n.toNat
  | .error _ => 0

/-- How many numbers a transform draws for arguments that it accepts. -/
def Transform.draws : Transform → List α → Nat
  | random, count :: _ => Scalar.wholePart count + 2
  | squareRandom, count :: _ => Scalar.wholePart count
  | _, _ => 0

/-- How many numbers were drawn for a step. -/
def Step.draws (step : Step α) : Nat := step.transform.draws step.arguments

/-- Parameters that come from a generator: break points are the next numbers that it gives,
and whatever is not drawn is the same from any generator. -/
def Step.DrawnFrom (g : Generator) (step : Step α) : Prop :=
  match step.transform with
  | .random => step.parameters = (Generator.units step.draws g).1.toArray
  | .squareRandom => step.parameters =
      ((Generator.units step.draws g).1 ++
        (Generator.units step.draws g : List α × Generator).1.getLast?.toList).toArray
  | _ => ∀ h, step.transform.resolve step.arguments h = (⟨[], .ok step.parameters⟩, h)

/-- Steps whose break points follow one another in what a generator gives. -/
def Step.DrawnInOrder : List (Step α) → Generator → Prop
  | [], _ => True
  | step :: rest, g => step.DrawnFrom g ∧ DrawnInOrder rest (Generator.step^[step.draws] g)

theorem Step.drawnInOrder_append {steps more : List (Step α)} {g : Generator} :
    DrawnInOrder (steps ++ more) g ↔ DrawnInOrder steps g ∧
      DrawnInOrder more (Generator.step^[(steps.map Step.draws).sum] g) := by
  induction steps generalizing g with
  | nil => simp [DrawnInOrder]
  | cons step steps ih =>
      have hadd : Generator.step^[((step :: steps).map Step.draws).sum] g =
          Generator.step^[(steps.map Step.draws).sum] (Generator.step^[step.draws] g) := by
        rw [List.map_cons, List.sum_cons, Nat.add_comm, Function.iterate_add_apply]
      rw [List.cons_append, DrawnInOrder, DrawnInOrder, ih, hadd, and_assoc]

/-- Steps with the break points that a generator gives, and the generator behind them. -/
def Step.Drawn (steps : List (Step α)) (g g' : Generator) : Prop :=
  DrawnInOrder steps g ∧ g' = Generator.step^[(steps.map Step.draws).sum] g

theorem Step.Drawn.append {steps more : List (Step α)} {g g' g'' : Generator}
    (h : Drawn steps g g') (h' : Drawn more g' g'') : Drawn (steps ++ more) g g'' := by
  obtain ⟨hdrawn, rfl⟩ := h
  obtain ⟨hdrawn', rfl⟩ := h'
  refine ⟨drawnInOrder_append.mpr ⟨hdrawn, hdrawn'⟩, ?_⟩
  rw [List.map_append, List.sum_append, Nat.add_comm, Function.iterate_add_apply]

end Counts

namespace Stage

/-- What reading has drawn when it comes to the first test that fails, if so much is drawn
at each stage that it passes. -/
def drawnBefore (stages : List (Stage α × Nat)) : Nat :=
  ((stages.takeWhile (!·.1.fails)).map Prod.snd).sum

/-- Where no test fails, everything is drawn. -/
theorem drawnBefore_of_none {stages : List (Stage α × Nat)}
    (h : firstFault (stages.map Prod.fst) = none) :
    drawnBefore stages = (stages.map Prod.snd).sum := by
  have hpass : ∀ stage ∈ stages, (!stage.1.fails) = true := by
    intro stage hstage
    rw [firstFault_eq_none_iff.mp h stage.1 (List.mem_map_of_mem hstage)]
    rfl
  rw [drawnBefore, List.takeWhile_eq_self_iff.mpr hpass]

theorem drawnBefore_append_of_none {first : List (Stage α × Nat)}
    (h : firstFault (first.map Prod.fst) = none) (second : List (Stage α × Nat)) :
    drawnBefore (first ++ second) = drawnBefore first + drawnBefore second := by
  have hpass : ∀ stage ∈ first, (!stage.1.fails) = true := by
    intro stage hstage
    rw [firstFault_eq_none_iff.mp h stage.1 (List.mem_map_of_mem hstage)]
    rfl
  have hall : first.takeWhile (!·.1.fails) = first := List.takeWhile_eq_self_iff.mpr hpass
  rw [drawnBefore, drawnBefore, drawnBefore, List.takeWhile_append_of_pos hpass, hall,
    List.map_append, List.sum_append]

theorem drawnBefore_append_of_some {first : List (Stage α × Nat)} {fault : Fault α}
    (h : firstFault (first.map Prod.fst) = some fault) (second : List (Stage α × Nat)) :
    drawnBefore (first ++ second) = drawnBefore first := by
  induction first with
  | nil => cases h
  | cons stage rest ih =>
      cases hfails : stage.1.fails with
      | true => simp [drawnBefore, hfails]
      | false =>
          have hrest : firstFault (rest.map Prod.fst) = some fault := by
            simpa [firstFault, hfails] using h
          have htail := ih hrest
          simp only [drawnBefore, List.cons_append, List.takeWhile_cons, hfails, Bool.not_false,
            ↓reduceIte, List.map_cons, List.sum_cons] at htail ⊢
          rw [htail]

/-- Stages at which nothing is drawn. -/
def idle (stages : List (Stage α)) : List (Stage α × Nat) := stages.map (·, 0)

@[simp] theorem map_fst_idle (stages : List (Stage α)) : (idle stages).map Prod.fst = stages := by
  simp [idle, Function.comp_def]

@[simp] theorem drawnBefore_idle (stages : List (Stage α)) : drawnBefore (idle stages) = 0 := by
  induction stages with
  | nil => rfl
  | cons stage rest ih =>
      cases hfails : stage.fails with
      | true => simp [drawnBefore, idle, hfails]
      | false => simpa [drawnBefore, idle, hfails] using ih

end Stage

/-! ## What is drawn at the stages of a text -/

section Texts

variable [Scalar α] [Numeral α]

/-- The stages of a step. At the last of them, once its arguments are accepted, its break
points are drawn. -/
def Phrase.drawStages (p : Phrase) : List (Stage α × Nat) :=
  match p.transform? with
  | none => [(.test false (.unknownTransform p.name), 0)]
  | some t => Stage.idle (p.surplus t ++ p.numbers t) ++
      [(p.rule t, t.draws (p.arguments t : List α))]

def Phrases.drawStages (ps : Phrases) : List (Stage α × Nat) :=
  ps.flatMap Phrase.drawStages ++
    [(.test (!ps.dropLast.any (·.transform? == some .weight)) (.weightNotLast (ps.text α)), 0)]

/-- The stages of a text and what is drawn at each of them. The tests of whole chains and
of the whole text come when everything before them has been drawn. -/
def Definition.drawStages (text : String) : List (Stage α × Nat) :=
  (Definition.phrases text).flatMap Phrases.drawStages ++
    [(.test (!(Scalar.sum ((Definition.phrases text).map (Phrases.weight (α := α))) == 0))
      (.weightsSumToZero (" & ".intercalate ((Definition.phrases text).map (Phrases.text α)))), 0)]

/-- How many numbers are drawn for a text. -/
def Definition.drawn (α : Type) [Scalar α] [Numeral α] (text : String) : Nat :=
  Stage.drawnBefore (Definition.drawStages (α := α) text)

theorem Phrase.map_fst_drawStages (p : Phrase) :
    (p.drawStages : List (Stage α × Nat)).map Prod.fst = p.stages := by
  unfold drawStages stages
  cases p.transform? with
  | none => rfl
  | some t =>
      dsimp only
      rw [List.map_append, Stage.map_fst_idle]
      rfl

theorem Phrases.map_fst_drawStages (ps : Phrases) :
    (ps.drawStages : List (Stage α × Nat)).map Prod.fst = ps.stages := by
  rw [drawStages, stages, List.map_append, List.map_flatMap]
  simp only [Phrase.map_fst_drawStages]
  rfl

/-- With or without what is drawn, the stages are the same. -/
theorem Definition.map_fst_drawStages (text : String) :
    (Definition.drawStages text : List (Stage α × Nat)).map Prod.fst = Definition.stages text := by
  rw [drawStages, stages, List.map_append, List.map_flatMap]
  simp only [Phrases.map_fst_drawStages]
  rfl

theorem sum_flatMap (f : β → List Nat) (xs : List β) :
    (xs.flatMap f).sum = (xs.map fun x => (f x).sum).sum := by
  rw [List.flatMap_def, List.sum_flatten, List.map_map]
  rfl

/-- What can be drawn for a step that is read is drawn. -/
theorem Phrase.ReadAs.sum_drawStages {p : Phrase} {step : Step α} (h : p.ReadAs step) :
    ((p.drawStages : List (Stage α × Nat)).map Prod.snd).sum = step.draws := by
  unfold drawStages Step.draws
  rw [h.transform, h.arguments]
  simp [Stage.idle, Function.comp_def]

theorem Phrases.ReadAs.sum_drawStages {ps : Phrases} {chain : Chain α} (h : ps.ReadAs chain) :
    ((ps.drawStages : List (Stage α × Nat)).map Prod.snd).sum = (chain.steps.map Step.draws).sum := by
  have hsteps := map_eq_map_of_forall₂ (fun _ _ h => h.sum_drawStages) h
  rw [drawStages, List.map_append, List.sum_append, List.map_flatMap, sum_flatMap, hsteps]
  simp

theorem Expression.ReadAs.sum_drawStages {text : String} {e : Expression α}
    (h : ReadAs text e) :
    ((Definition.drawStages text : List (Stage α × Nat)).map Prod.snd).sum =
      (e.steps.map Step.draws).sum := by
  have hchains := map_eq_map_of_forall₂ (fun _ _ h => Phrases.ReadAs.sum_drawStages h) h
  rw [Definition.drawStages, List.map_append, List.sum_append, List.map_flatMap, sum_flatMap,
    hchains, Expression.steps, List.map_flatMap, sum_flatMap]
  simp

end Texts

/-! ## What reading draws -/

namespace Build

/-- An operation that has drawn what is listed before the first test that fails, from
whichever generator and whatever comes of it. -/
def Consumes (operation : Build α β) (stages : List (Stage α × Nat)) : Prop :=
  ∀ g, (operation g).2 = Generator.step^[Stage.drawnBefore stages] g

namespace Consumes

theorem ofOutcome (outcome : Outcome α β) (stages : List (Stage α)) :
    Consumes (ofOutcome outcome) (Stage.idle stages) := by
  intro g
  rw [Stage.drawnBefore_idle]
  rfl

theorem pure (b : β) : Consumes (Pure.pure b : Build α β) [] := ofOutcome _ []

variable {first : Build α β} {second : β → Build α γ} {stages more : List (Stage α × Nat)}
  {P : β → Prop}

/-- A sequence draws for its second part only if the first part goes through. -/
theorem bind (hfirst : Consumes first stages)
    (hgoes : GoesThrough first (stages.map Prod.fst) P)
    (hsecond : ∀ b, P b → Consumes (second b) more) :
    Consumes (first >>= second) (stages ++ more) := by
  intro g
  have hdrawn := hfirst g
  obtain ⟨_, hresult⟩ := hgoes g
  rcases hrun : first g with ⟨⟨notices, result⟩, g'⟩
  rw [hrun] at hdrawn hresult
  cases hfault : Stage.firstFault (stages.map Prod.fst) with
  | some fault =>
      simp only [hfault] at hresult
      subst hresult
      rw [bind_apply_error hrun, Stage.drawnBefore_append_of_some hfault]
      exact hdrawn
  | none =>
      simp only [hfault] at hresult
      obtain ⟨b, rfl, hP⟩ := hresult
      rw [bind_apply_ok hrun, Stage.drawnBefore_append_of_none hfault, Nat.add_comm,
        Function.iterate_add_apply]
      dsimp only at hdrawn ⊢
      rw [hsecond b hP g', hdrawn]

theorem map (h : Consumes first stages) (f : β → γ) : Consumes (f <$> first) stages := by
  intro g
  rw [map_apply]
  exact h g

theorem mapM {read : ι → Build α β} {stages : ι → List (Stage α × Nat)} {P : ι → β → Prop}
    {xs : List ι} (h : ∀ x ∈ xs, Consumes (read x) (stages x))
    (hgoes : ∀ x ∈ xs, GoesThrough (read x) ((stages x).map Prod.fst) (P x)) :
    Consumes (xs.mapM read) (xs.flatMap stages) := by
  induction xs with
  | nil => exact pure []
  | cons x xs ih =>
      have hrest := ih (fun y hy => h y (List.mem_cons_of_mem x hy))
        fun y hy => hgoes y (List.mem_cons_of_mem x hy)
      rw [List.mapM_cons, List.flatMap_cons]
      refine (h x List.mem_cons_self).bind (hgoes x List.mem_cons_self) fun y _ => ?_
      rw [← map_eq_pure_bind]
      exact hrest.map _

/-- The parts are drawn one after another, and putting them together draws nothing. -/
theorem collect {read : ι → Build α β} {stages : ι → List (Stage α × Nat)} {P : ι → β → Prop}
    {xs : List ι} (h : ∀ x ∈ xs, Consumes (read x) (stages x))
    (hgoes : ∀ x ∈ xs, GoesThrough (read x) ((stages x).map Prod.fst) (P x))
    (result : List β → Except (Fault α) γ) (stage : Stage α) :
    Consumes (xs.mapM read >>= fun ys => Build.ofOutcome (.ofResult (result ys)))
      (xs.flatMap stages ++ [(stage, 0)]) := by
  have hparts : GoesThrough (xs.mapM read) ((xs.flatMap stages).map Prod.fst)
      (List.Forall₂ P xs) := by
    rw [List.map_flatMap]
    exact .mapM hgoes
  exact (mapM h hgoes).bind hparts fun ys _ => ofOutcome _ [stage]

end Consumes

end Build

open Build (Consumes GoesThrough)

section Rules

variable [Scalar α]

/-- Along a list, each element is drawn behind the one before it. -/
theorem Step.drawn_of_mapM {read : ι → Build α β} (steps : β → List (Step α))
    (h : ∀ x g notices y g', read x g = (⟨notices, .ok y⟩, g') → Drawn (steps y) g g')
    {xs : List ι} {ys : List β} {g g' : Generator} {notices : List (Notice α)}
    (hread : xs.mapM read g = (⟨notices, .ok ys⟩, g')) : Drawn (ys.flatMap steps) g g' := by
  induction xs generalizing ys g notices with
  | nil =>
      cases hread
      exact ⟨trivial, rfl⟩
  | cons x xs ih =>
      rw [List.mapM_cons, Build.bind_eq_ok_iff] at hread
      obtain ⟨_, y, middle, _, hy, hread, _⟩ := hread
      obtain ⟨_, rest, _, _, hrest, hpure, _⟩ := Build.bind_eq_ok_iff.mp hread
      cases hpure
      rw [List.flatMap_cons]
      exact (h x g _ y middle hy).append (ih hrest)

/-- Accepted arguments are resolved without further tests. -/
theorem Transform.resolve_of_accepts {t : Transform} {argument : Nat → α}
    (h : t.accepts argument = true) (g : Generator) :
    t.resolve ((List.range t.parameterCount).map argument) g =
      t.resolveAccepted ((List.range t.parameterCount).map argument) g := by
  unfold resolve
  rw [rejected?_eq, h]
  rfl

theorem Transform.resolve_of_not_accepts {t : Transform} {argument : Nat → α}
    (h : t.accepts argument = false) (g : Generator) :
    t.resolve ((List.range t.parameterCount).map argument) g =
      (.fault (.argumentRejected (argument t.judged) t), g) := by
  unfold resolve
  rw [rejected?_eq, h]
  rfl

/-- For accepted arguments a transform draws the numbers that it computes with. -/
theorem Transform.resolveAccepted_apply [Scalar.HasIntegerPart α] {t : Transform}
    {argument : Nat → α} (h : t.accepts argument = true) (g : Generator) :
    ∃ parameters,
      t.resolveAccepted ((List.range t.parameterCount).map argument) g =
        (⟨[], .ok parameters⟩,
          Generator.step^[t.draws ((List.range t.parameterCount).map argument)] g) ∧
      Step.DrawnFrom g ⟨t, (List.range t.parameterCount).map argument, parameters⟩ := by
  -- Only a break point count is computed with, and it is finite.
  have hcount : t = .random ∨ t = .squareRandom → ∃ n, Scalar.truncate (argument 0) = .ok n := by
    intro ht
    apply Scalar.HasIntegerPart.truncate_of_isFinite
    rcases ht with rfl | rfl <;>
    · simp only [accepts, Bool.and_eq_true] at h
      exact h.1.1
  have hpart : ∀ {n}, Scalar.truncate (argument 0) = .ok n →
      Scalar.wholePart (argument 0) = n.toNat := by
    intro n hn
    rw [Scalar.wholePart, hn]
  cases t with
  | random =>
      obtain ⟨n, hn⟩ := hcount (.inl rfl)
      refine ⟨(Generator.units (n.toNat + 2) g).1.toArray, ?_, ?_⟩
      · change (Build.ofOutcome (.ofEval (Scalar.truncate (argument 0))) >>=
          fun n => segmentPoints n.toNat : Build α _) g =
            (_, Generator.step^[Scalar.wholePart (argument 0) + 2] g)
        rw [hpart hn, hn, ← Generator.units_snd (α := α)]
        rfl
      · change _ = (Generator.units (Scalar.wholePart (argument 0) + 2) g).1.toArray
        rw [hpart hn]
  | squareRandom =>
      obtain ⟨n, hn⟩ := hcount (.inr rfl)
      refine ⟨((Generator.units n.toNat g).1 ++
        (Generator.units n.toNat g : List α × Generator).1.getLast?.toList).toArray, ?_, ?_⟩
      · change (Build.ofOutcome (.ofEval (Scalar.truncate (argument 0))) >>=
          fun n => plateauPoints n.toNat : Build α _) g =
            (_, Generator.step^[Scalar.wholePart (argument 0)] g)
        rw [hpart hn, hn, ← Generator.units_snd (α := α)]
        rfl
      · change _ = ((Generator.units (Scalar.wholePart (argument 0)) g).1 ++
          (Generator.units (Scalar.wholePart (argument 0)) g).1.getLast?.toList).toArray
        rw [hpart hn]
  | _ => exact ⟨_, rfl, fun g' => resolve_of_accepts h g'⟩

end Rules

section Reading

variable [Scalar α] [Scalar.HasIntegerPart α]

theorem Transform.consumes_resolve (t : Transform) (argument : Nat → α) :
    Consumes (t.resolve ((List.range t.parameterCount).map argument))
      [(.test (t.accepts argument) (.argumentRejected (argument t.judged) t),
        t.draws ((List.range t.parameterCount).map argument))] := by
  intro g
  cases haccepts : t.accepts argument with
  | false =>
      rw [resolve_of_not_accepts haccepts]
      rfl
  | true =>
      obtain ⟨parameters, hresolve, _⟩ := resolveAccepted_apply haccepts g
      rw [resolve_of_accepts haccepts, hresolve]
      simp [Stage.drawnBefore, Stage.fails]

variable [Numeral α]

theorem Phrase.consumes_ofArguments (p : Phrase) (t : Transform) :
    Consumes (Step.ofArguments t p.tokens : Build α (Step α))
      (Stage.idle (p.numbers t) ++ [(p.rule t, t.draws (p.arguments t : List α))]) := by
  have hgoes := p.goesThrough_arguments (α := α) t
  refine (Consumes.ofOutcome _ _).bind (by rw [Stage.map_fst_idle]; exact hgoes) ?_
  rintro _ rfl
  rw [← map_eq_pure_bind]
  exact (t.consumes_resolve (p.argument t)).map _

omit [Scalar.HasIntegerPart α] in
theorem Step.parse_eq_ofTokens (text : List Char) :
    (parse text : Build α (Step α)) =
      ofTokens (Phrase.ofText text).name (Phrase.ofText text).tokens := by
  unfold parse Phrase.ofText
  cases (Definition.tokens text).map String.ofList <;> rfl

/-- Reading a step draws its break points once its arguments are accepted. -/
theorem Step.consumes_parse (text : List Char) :
    Consumes (parse text : Build α (Step α)) (Phrase.ofText text).drawStages := by
  rw [parse_eq_ofTokens]
  generalize Phrase.ofText text = p
  have hname : Transform.ofName? p.name = p.transform? := rfl
  unfold ofTokens Phrase.drawStages
  rw [hname]
  cases p.transform? with
  | none => exact .ofOutcome _ [_]
  | some t =>
      have hrest := p.consumes_ofArguments (α := α) t
      simp only [Phrase.surplus]
      split
      next =>
        have hgoes := GoesThrough.notify (.tooManyArguments t p.tokens.length : Notice α)
        exact (Consumes.ofOutcome _ [_]).bind hgoes fun _ _ => hrest
      next => exact hrest

/-- Reading a chain draws for its steps, one after another. A misplaced weight is found
when all of them have been drawn. -/
theorem Chain.consumes_parse (text : List Char) :
    Consumes (parse text : Build α (Chain α)) (Phrases.ofText text).drawStages := by
  unfold parse ofTexts Phrases.drawStages Phrases.ofText
  rw [List.flatMap_map]
  have hgoes : ∀ piece ∈ Definition.steps text, GoesThrough (Step.parse piece : Build α (Step α))
      ((Phrase.ofText piece).drawStages.map Prod.fst) ((Phrase.ofText piece).ReadAs) := by
    intro piece _
    rw [Phrase.map_fst_drawStages]
    exact Step.goesThrough_parse piece
  exact .collect (fun piece _ => Step.consumes_parse piece) hgoes _ _

/-- Reading a definition draws for its chains, one after another. -/
theorem Expression.consumes_parse (text : String) :
    Consumes (parse text : Build α (Expression α)) (Definition.drawStages text) := by
  unfold parse ofTexts Definition.drawStages Definition.phrases
  rw [List.flatMap_map]
  have hgoes : ∀ piece ∈ Definition.chains (Definition.normalize text.toList),
      GoesThrough (Chain.parse piece : Build α (Chain α))
        ((Phrases.ofText piece).drawStages.map Prod.fst) ((Phrases.ofText piece).ReadAs) := by
    intro piece _
    rw [Phrases.map_fst_drawStages]
    exact Chain.goesThrough_parse piece
  exact .collect (fun piece _ => Chain.consumes_parse piece) hgoes _ _

/-! ## What was drawn for an expression -/

omit [Scalar.HasIntegerPart α] in
/-- The arguments of a step that is read were accepted, and its parameters are those that
they resolve to. -/
theorem Step.accepted_of_parse {text : List Char} {step : Step α} {g g' : Generator}
    {notices : List (Notice α)} (h : parse text g = (⟨notices, .ok step⟩, g')) :
    ∃ argument : Nat → α,
      step.arguments = (List.range step.transform.parameterCount).map argument ∧
        step.transform.accepts argument = true ∧
        step.transform.resolveAccepted step.arguments g = (⟨[], .ok step.parameters⟩, g') := by
  rw [parse_eq_ofTokens] at h
  obtain ⟨hlength, hresolve⟩ := ofTokens_eq_ok h
  obtain ⟨argument, hargument⟩ : ∃ argument : Nat → α,
      step.arguments = (List.range step.transform.parameterCount).map argument := by
    refine ⟨fun i => step.arguments.getD i 0, ?_⟩
    rw [← hlength]
    apply List.ext_getElem
    · simp
    · intro i hi _
      simp [hi]
  refine ⟨argument, hargument, ?_⟩
  rw [hargument] at hresolve ⊢
  cases haccepts : step.transform.accepts argument with
  | false =>
      rw [Transform.resolve_of_not_accepts haccepts] at hresolve
      cases hresolve
  | true =>
      rw [Transform.resolve_of_accepts haccepts] at hresolve
      exact ⟨rfl, hresolve⟩

/-- The break points of a step that is read are the next numbers. -/
theorem Step.drawn_of_parse {text : List Char} {step : Step α} {g g' : Generator}
    {notices : List (Notice α)} (h : parse text g = (⟨notices, .ok step⟩, g')) :
    Drawn [step] g g' := by
  obtain ⟨argument, hargument, haccepts, hresolve⟩ := accepted_of_parse h
  obtain ⟨t, arguments, parameters⟩ := step
  dsimp only at hargument haccepts hresolve
  subst hargument
  obtain ⟨parameters', happly, hdrawn⟩ := Transform.resolveAccepted_apply haccepts g
  rw [happly] at hresolve
  cases hresolve
  refine ⟨⟨hdrawn, trivial⟩, ?_⟩
  rw [List.map_singleton, List.sum_singleton]
  rfl

theorem Chain.drawn_of_parse {text : List Char} {chain : Chain α} {g g' : Generator}
    {notices : List (Notice α)} (h : parse text g = (⟨notices, .ok chain⟩, g')) :
    Step.Drawn chain.steps g g' := by
  obtain ⟨_, steps, hsteps, hcollect⟩ := Build.collect_eq_ok h
  obtain ⟨rfl, _⟩ := Chain.ofSteps_eq_ok hcollect
  have hdrawn := Step.drawn_of_mapM (fun step => [step])
    (fun _ _ _ _ _ hread => Step.drawn_of_parse hread) hsteps
  rwa [List.flatMap_singleton'] at hdrawn

theorem Expression.drawn_of_parse {text : String} {e : Expression α} {g g' : Generator}
    {notices : List (Notice α)} (h : parse text g = (⟨notices, .ok e⟩, g')) :
    Step.Drawn e.steps g g' := by
  obtain ⟨_, chains, hchains, hcollect⟩ := Build.collect_eq_ok h
  obtain ⟨rfl, _⟩ := Expression.ofChains_eq_ok hcollect
  exact Step.drawn_of_mapM Chain.steps (fun _ _ _ _ _ hread => Chain.drawn_of_parse hread) hchains

/-- Reading a text draws what is listed up to its first fault. Without a fault that is so
much as its steps were given, in their order. -/
theorem Expression.parse_draws (text : String) (g : Generator) :
    (parse text g : Outcome α (Expression α) × Generator).2 =
        Generator.step^[Definition.drawn α text] g ∧
      ∀ e, (parse text g : Outcome α (Expression α) × Generator).1.result = .ok e →
        Definition.drawn α text = (e.steps.map Step.draws).sum ∧ Step.DrawnInOrder e.steps g := by
  refine ⟨consumes_parse text g, fun e he => ?_⟩
  obtain ⟨_, hresult⟩ := goesThrough_parse (α := α) text g
  cases hfault : Stage.firstFault (Definition.stages (α := α) text) with
  | some fault =>
      simp only [hfault, he] at hresult
      cases hresult
  | none =>
      simp only [hfault, he, Except.ok.injEq, exists_eq_left'] at hresult
      rw [← Definition.map_fst_drawStages] at hfault
      constructor
      · rw [Definition.drawn, Stage.drawnBefore_of_none hfault, hresult.sum_drawStages]
      · rcases hrun : (parse text g : Outcome α (Expression α) × Generator) with
          ⟨⟨notices, result⟩, g'⟩
        rw [hrun] at he
        subst he
        exact (drawn_of_parse hrun).1

end Reading

end Easing
