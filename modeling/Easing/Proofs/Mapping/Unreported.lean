import Easing.Proofs.Definition.Draws
import Easing.Proofs.Mapping.Policy
import Easing.Proofs.Session.Links

/-! # Operations that ask no range

Numbers outside a range are reported where a range is asked to bring them in. Reading a
definition, sampling a curve and changing the bounds of a mapping never do that: curves
and samples are moved between ranges without being checked. So there is neither a notice
about a number outside nor a fault, however far a curve leaves the unit interval.
-/

namespace Easing

variable {α β γ ι : Type}

/-- Whether a fault is that of a number outside a range. -/
def Fault.isExceeded : Fault α → Bool
  | exceeded .. => true
  | _ => false

namespace Outcome

/-- No number was reported or refused for being outside a range. -/
structure Unreported (o : Outcome α β) : Prop where
  notices : ∀ notice ∈ o.notices, notice.isOutside = false
  fault : ∀ f, o.result = .error f → f.isExceeded = false

namespace Unreported

theorem pure (b : β) : (Pure.pure b : Outcome α β).Unreported :=
  ⟨fun _ h => absurd h List.not_mem_nil, fun _ h => nomatch h⟩

theorem notify {notice : Notice α} (h : notice.isOutside = false) : (notify notice).Unreported :=
  ⟨List.forall_mem_singleton.mpr h, fun _ h => nomatch h⟩

theorem ofResult {result : Except (Fault α) β}
    (h : ∀ f, result = .error f → f.isExceeded = false) : (ofResult result).Unreported :=
  ⟨fun _ h => absurd h List.not_mem_nil, h⟩

theorem ofEval (value : Except EvalFault β) : (ofEval value : Outcome α β).Unreported := by
  refine ⟨fun _ h => absurd h List.not_mem_nil, fun f h => ?_⟩
  cases value with
  | error cause =>
      cases h
      rfl
  | ok b => cases h

theorem bind {first : Outcome α β} {second : β → Outcome α γ} (hfirst : first.Unreported)
    (hsecond : ∀ b, (second b).Unreported) : (first >>= second).Unreported := by
  obtain ⟨notices, result⟩ := first
  cases result with
  | error f =>
      rw [bind_mk_error]
      exact ⟨hfirst.notices, fun g h => hfirst.fault g (by cases h; rfl)⟩
  | ok b =>
      rw [bind_mk_ok]
      refine ⟨fun notice h => ?_, (hsecond b).fault⟩
      exact (List.mem_append.mp h).elim (hfirst.notices notice) ((hsecond b).notices notice)

theorem map {o : Outcome α β} (h : o.Unreported) (f : β → γ) : (f <$> o).Unreported := by
  rw [map_eq_pure_bind]
  exact h.bind fun b => .pure (f b)

end Unreported

end Outcome

namespace Build

/-- Nothing is reported or refused, from whichever generator the operation draws. -/
def Unreported (operation : Build α β) : Prop := ∀ g, (operation g).1.Unreported

namespace Unreported

theorem ofOutcome {outcome : Outcome α β} (h : outcome.Unreported) :
    Unreported (ofOutcome outcome) := fun _ => h

theorem ofResult {result : Except (Fault α) β}
    (h : ∀ f, result = .error f → f.isExceeded = false) :
    Unreported (Build.ofOutcome (.ofResult result)) := .ofOutcome (.ofResult h)

theorem fault {f : Fault α} (h : f.isExceeded = false) : Unreported (fault f : Build α β) :=
  .ofResult fun _ heq => Except.error.inj heq ▸ h

theorem pure (b : β) : Unreported (Pure.pure b : Build α β) := .ofOutcome (.pure b)

theorem draw (next : Generator → β × Generator) : Unreported (draw next : Build α β) :=
  fun g => .pure (next g).1

theorem bind {first : Build α β} {second : β → Build α γ} (hfirst : Unreported first)
    (hsecond : ∀ b, Unreported (second b)) : Unreported (first >>= second) := by
  intro g
  have hbefore := hfirst g
  rcases h : first g with ⟨⟨notices, f | b⟩, g'⟩
  · rw [h] at hbefore
    rw [bind_apply_error h]
    exact ⟨hbefore.notices, fun f' h => hbefore.fault f' (by cases h; rfl)⟩
  · rw [h] at hbefore
    rw [bind_apply_ok h]
    refine ⟨fun notice hmem => ?_, (hsecond b g').fault⟩
    exact (List.mem_append.mp hmem).elim (hbefore.notices notice) ((hsecond b g').notices notice)

theorem mapM {read : ι → Build α β} (h : ∀ x, Unreported (read x)) (xs : List ι) :
    Unreported (xs.mapM read) := by
  induction xs with
  | nil => exact .pure _
  | cons x xs ih =>
      rw [List.mapM_cons]
      exact .bind (h x) fun y => .bind ih fun ys => .pure _

end Unreported

end Build

open Build (Unreported)

/-! ## Reading definitions -/

section Reading

variable [Scalar α]

theorem Transform.unreported_resolveAccepted (t : Transform) (arguments : List α) :
    Unreported (t.resolveAccepted arguments) := by
  unfold resolveAccepted
  split
  · exact .pure _
  · refine .bind (.ofOutcome (.ofEval _)) fun count => ?_
    exact .bind (.draw _) fun points => .pure _
  · refine .bind (.ofOutcome (.ofEval _)) fun count => ?_
    exact .bind (.draw _) fun heights => .pure _
  · exact .pure _

theorem Transform.unreported_resolve (t : Transform) (arguments : List α) :
    Unreported (t.resolve arguments) := by
  refine .bind (.ofOutcome (.ofEval _)) fun rejected => ?_
  cases rejected with
  | some value => exact .fault rfl
  | none => exact t.unreported_resolveAccepted arguments

variable [Numeral α]

omit [Scalar α] in
theorem Step.isExceeded_of_readArguments {t : Transform} {defaults : List α}
    {tokens : List String} {f : Fault α} (h : readArguments t defaults tokens = .error f) :
    f.isExceeded = false := by
  induction defaults generalizing tokens with
  | nil => cases h
  | cons d defaults ih =>
      cases tokens with
      | nil => cases h
      | cons token tokens =>
          unfold readArguments at h
          split at h
          next =>
            cases h
            rfl
          next => exact ih (Except.eq_error_of_bind_pure h)

theorem Step.unreported_ofTokens (name : String) (tokens : List String) :
    Unreported (ofTokens name tokens : Build α (Step α)) := by
  unfold ofTokens
  split
  next => exact .fault rfl
  next transform _ =>
    have hread : Unreported (do
        let arguments ← Build.ofOutcome
          (.ofResult (readArguments transform transform.defaults tokens))
        let parameters ← transform.resolve arguments
        return (⟨transform, arguments, parameters⟩ : Step α)) :=
      .bind (.ofResult fun _ => isExceeded_of_readArguments) fun arguments =>
        .bind (transform.unreported_resolve arguments) fun parameters => .pure _
    dsimp only
    split
    next => exact .bind (.ofOutcome (.notify rfl)) fun _ => hread
    next => exact hread

theorem Step.unreported_parse (text : List Char) :
    Unreported (parse text : Build α (Step α)) := by
  unfold parse
  split <;> exact unreported_ofTokens _ _

theorem Chain.unreported_parse (text : List Char) :
    Unreported (parse text : Build α (Chain α)) := by
  refine .bind (.mapM Step.unreported_parse _) fun steps => .ofResult fun f h => ?_
  unfold ofSteps at h
  split at h
  · cases h
    rfl
  · split at h <;> cases h
    rfl

theorem Expression.unreported_parse (text : String) :
    Unreported (parse text : Build α (Expression α)) := by
  refine .bind (.mapM Chain.unreported_parse _) fun chains => .ofResult fun f h => ?_
  unfold ofChains at h
  dsimp only at h
  split at h
  · cases h
    rfl
  · split at h <;> cases h
    rfl

end Reading

/-! ## Making and changing mappings -/

section Making

variable [Scalar α]

/-- Bounds are refused for what they are, not for what is outside them. -/
theorem Range.isExceeded_of_checkBounds {start stop : α} {f : Fault α}
    (h : checkBounds start stop = .error f) : f.isExceeded = false := by
  unfold checkBounds at h
  split at h
  · cases h
    rfl
  · split at h <;> cases h
    rfl

theorem Mapping.isExceeded_of_setRange {m : Mapping α} {d : Domain α}
    {repeats : Option RepeatPolicy} {f : Fault α} (h : m.setRange d repeats = .error f) :
    f.isExceeded = false := by
  have hcheck : d.check = .error f := Except.eq_error_of_bind_pure h
  rcases Except.bind_eq_error_iff.mp hcheck with hinput | ⟨_, _, houtput⟩
  · exact Range.isExceeded_of_checkBounds hinput
  · exact Range.isExceeded_of_checkBounds houtput

theorem Mapping.isExceeded_of_setBlendRange {m : Mapping α} {start stop : α} {f : Fault α}
    (h : m.setBlendRange start stop = .error f) : f.isExceeded = false := by
  have hmake : Range.make start stop m.head.blend.repeats m.head.blend.onExceed = .error f :=
    Except.eq_error_of_bind_pure h
  exact Range.isExceeded_of_checkBounds (Except.eq_error_of_bind_pure hmake)

/-- Samples are put into a range without asking it. -/
theorem Table.unreported_make (f : α → Except EvalFault α) (resolution : Int)
    (output : Option (Range α)) : (make f resolution output).Unreported := by
  unfold make
  split
  · exact .ofResult fun _ h => Except.error.inj h ▸ rfl
  · split
    · exact .ofResult fun _ h => Except.error.inj h ▸ rfl
    · exact .ofEval _

theorem Link.unreported_make (expression : Expression α) (precision : Precision)
    (onExceed : ExceedAction) : (make expression precision onExceed).Unreported := by
  unfold make
  dsimp only
  split
  · exact .bind (.pure _) fun table => .pure _
  · exact .bind ((Table.unreported_make _ _ _).map _) fun table => .pure _

variable [Numeral α]

namespace Compiler.Config

variable (config : Config)

theorem unreported_compile (text : String) (requested : Option Precision) :
    Unreported (config.compile text requested : Build α (Link α)) := by
  refine .bind (Expression.unreported_parse text) fun expression => .ofOutcome ?_
  exact .bind (.notify rfl) fun _ => Link.unreported_make _ _ _

theorem unreported_attach (m : Mapping α) (text : String) (requested : Option Precision) :
    Unreported (config.attach m text requested) :=
  .bind (config.unreported_compile text requested) fun _ => .pure _

theorem unreported_build (request : Request α) : Unreported (config.build request) := by
  refine .bind (config.unreported_compile _ _) fun head => ?_
  refine .bind (.ofResult fun _ => Mapping.isExceeded_of_setRange) fun m => ?_
  split
  next => exact .pure _
  next text _ => exact config.unreported_attach m text _

end Compiler.Config

end Making

end Easing
