import Easing.Proofs.Mapping.Refusal
import Easing.Proofs.Session.Links

/-! # Changing a mapping step by step

A mapping and its targets are separate things that are changed one after another:
the table of a link, then its input range, then its output range, and all links
behind it before that. A fault on the way would leave the links as they are by then,
some of them changed and others not. There is no such fault: whatever can be refused
is refused at the first link, before anything is changed, so that the steps amount
to the change of all links at once.
-/

namespace Easing.Mapping

variable {α β γ : Type}

/-- What a change works on. -/
structure Work (α : Type) where
  /-- The links, nearest first. -/
  links : List (Link α)
  generator : Generator
  /-- The notices given so far. -/
  notices : List (Notice α)

/-- Changes that are made one after another. A fault does not take back the
changes before it. -/
abbrev Steps (α : Type) := ExceptT (Fault α) (StateM (Work α))

namespace Steps

/-- What comes of some steps, and what they leave behind. -/
def outcome (steps : Steps α β) (work : Work α) : Except (Fault α) β × Work α :=
  steps.run.run work

/-- Changes the first link. -/
def assign (change : Link α → Link α) : Steps α Unit :=
  modify fun work => { work with links := work.links.modifyHead change }

/-- Takes steps on other links. -/
def onLinks (links : List (Link α)) (steps : Steps α β) : Steps α (β × List (Link α)) :=
  fun work =>
    let (result, done) := steps.outcome { work with links := links }
    (result.map (·, done.links), { done with links := work.links })

/-- Takes steps on the links behind the first, and keeps what they did even if
they end with a fault. -/
def behind (steps : Steps α Unit) : Steps α Unit :=
  fun work =>
    let (result, done) := steps.outcome { work with links := work.links.tail }
    (result, { done with links := work.links.take 1 ++ done.links })

/-- Goes on with a result. -/
def require (result : Except (Fault α) β) : Steps α β := liftExcept result

/-- Runs an operation on the generator. -/
def draw (operation : Build α β) : Steps α β :=
  fun work =>
    let (outcome, generator) := operation work.generator
    (outcome.result, ⟨work.links, generator, work.notices ++ outcome.notices⟩)

variable [Scalar α]

/-- Sets the ranges of so many links, the first one last. Its new ranges are made
before the links behind it are changed. -/
def setRange (d : Domain α) (repeats : Option RepeatPolicy) : Nat → Steps α Unit
  | 0 => pure ()
  | count + 1 => do
    let some link := (← get).links.head? | pure ()
    let input ← require (Range.make d.inputStart d.inputStop
      (repeats.getD link.input.repeats) link.input.onExceed)
    let output ← require (Range.make d.outputStart d.outputStop
      link.output.repeats link.output.onExceed)
    behind (setRange d repeats count)
    assign fun link => { link with
      table := link.table.map fun table => table.rescale link.output output }
    assign fun link => { link with input := input }
    assign fun link => { link with output := output }

/-- Sets the blend range of the first link. -/
def setBlendRange (start stop : α) : Steps α Unit := do
  let some link := (← get).links.head? | pure ()
  let blend ← require (Range.make start stop link.blend.repeats link.blend.onExceed)
  assign fun link => { link with blend := blend }

/-- Sets the ranges of a target and then puts it behind the first link. -/
def attach (target : Link α) : Steps α Unit := do
  let some link := (← get).links.head? | pure ()
  let ((), targets) ← onLinks [target] (setRange link.domain (some link.input.repeats) 1)
  modify fun work => { work with links := work.links.take 1 ++ targets }

/-- Compiles a target and then attaches it. -/
def setTarget [Numeral α] (config : Compiler.Config) (text : String)
    (precision : Option Precision) : Steps α Unit := do
  attach (← draw (config.compile text precision))

/-! ## What the steps amount to -/

section Outcome

omit [Scalar α]

variable {work done : Work α} {first : Steps α β} {second : β → Steps α γ}

theorem outcome_bind_ok {b : β} (h : first.outcome work = (.ok b, done)) :
    (first >>= second).outcome work = (second b).outcome done := by
  unfold outcome at h ⊢
  rw [ExceptT.run_bind, StateT.run_bind, h]
  rfl

theorem outcome_bind_error {f : Fault α} (h : first.outcome work = (.error f, done)) :
    (first >>= second).outcome work = (.error f, done) := by
  unfold outcome at h ⊢
  rw [ExceptT.run_bind, StateT.run_bind, h]
  rfl

theorem outcome_get_bind (second : Work α → Steps α γ) :
    (get >>= second).outcome work = (second work).outcome work := rfl

theorem outcome_require_ok {result : Except (Fault α) β} {b : β} (h : result = .ok b) :
    (require result).outcome work = (.ok b, work) := by
  subst h
  rfl

theorem outcome_require_error {result : Except (Fault α) β} {f : Fault α}
    (h : result = .error f) : (require result : Steps α β).outcome work = (.error f, work) := by
  subst h
  rfl

theorem outcome_draw (work : Work α) (operation : Build α β) :
    (draw operation).outcome work =
      ((operation work.generator).1.result, ⟨work.links, (operation work.generator).2,
        work.notices ++ (operation work.generator).1.notices⟩) := rfl

end Outcome

variable {d : Domain α} (repeats : Option RepeatPolicy) (g : Generator)
  (notices : List (Notice α))

/-- Once the bounds are accepted, all links get them and nothing can go wrong on
the way. The induction is on the links, as the steps go from each to the next. -/
theorem outcome_setRange_ok (h : d.check = .ok ()) (links : List (Link α)) :
    (setRange d repeats links.length).outcome ⟨links, g, notices⟩ =
      (.ok (), ⟨links.map (·.withDomain d repeats), g, notices⟩) := by
  obtain ⟨hinput, houtput⟩ := Domain.check_eq_ok_iff.mp h
  induction links with
  | nil => rfl
  | cons link rest ih =>
      have hbehind : (behind (setRange d repeats rest.length)).outcome ⟨link :: rest, g, notices⟩ =
          (.ok (), ⟨link :: rest.map (·.withDomain d repeats), g, notices⟩) :=
        congrArg (fun left => (left.1, { left.2 with links := link :: left.2.links })) ih
      rw [List.length_cons, setRange, outcome_get_bind]
      simp only [List.head?_cons]
      rw [outcome_bind_ok (outcome_require_ok (Range.make_of_ok hinput _ _)),
        outcome_bind_ok (outcome_require_ok (Range.make_of_ok houtput _ _)),
        outcome_bind_ok hbehind]
      rfl

/-- Bounds that are refused are refused before any link is changed. -/
theorem outcome_setRange_error {f : Fault α} (h : d.check = .error f) (link : Link α)
    (rest : List (Link α)) (count : Nat) :
    (setRange d repeats (count + 1)).outcome ⟨link :: rest, g, notices⟩ =
      (.error f, ⟨link :: rest, g, notices⟩) := by
  rw [setRange, outcome_get_bind]
  simp only [List.head?_cons]
  rcases Domain.check_eq_error_iff.mp h with hinput | ⟨haccepted, houtput⟩
  · rw [← Range.checkBounds_eq_error_iff] at hinput
    rw [outcome_bind_error (outcome_require_error (Range.make_of_error hinput _ _))]
  · rw [← Range.checkBounds_eq_ok_iff] at haccepted
    rw [← Range.checkBounds_eq_error_iff] at houtput
    rw [outcome_bind_ok (outcome_require_ok (Range.make_of_ok haccepted _ _)),
      outcome_bind_error (outcome_require_error (Range.make_of_error houtput _ _))]

/-- Steps that are all taken, and then amount to an operation on the mapping, or
else leave all links as they were. The generator and the notices are those of the
operation in either case. -/
def AllOrNothing (steps : Steps α Unit) (m : Mapping α) (operation : Build α (Mapping α)) :
    Prop :=
  ∀ g notices, steps.outcome ⟨m.links, g, notices⟩ =
    match operation g with
    | (⟨given, .ok changed⟩, g') => (.ok (), ⟨changed.links, g', notices ++ given⟩)
    | (⟨given, .error f⟩, g') => (.error f, ⟨m.links, g', notices ++ given⟩)

omit [Scalar α] in
theorem AllOrNothing.ofResult {steps : Steps α Unit} {m : Mapping α}
    {result : Except (Fault α) (Mapping α)}
    (hok : ∀ changed g notices, result = .ok changed →
      steps.outcome ⟨m.links, g, notices⟩ = (.ok (), ⟨changed.links, g, notices⟩))
    (herror : ∀ f g notices, result = .error f →
      steps.outcome ⟨m.links, g, notices⟩ = (.error f, ⟨m.links, g, notices⟩)) :
    AllOrNothing steps m (.ofOutcome (.ofResult result)) := by
  intro g notices
  cases result with
  | ok changed =>
      rw [hok changed g notices rfl]
      simp [Outcome.ofResult]
  | error f =>
      rw [herror f g notices rfl]
      simp [Outcome.ofResult]

theorem allOrNothing_setRange (m : Mapping α) (d : Domain α) (repeats : Option RepeatPolicy) :
    AllOrNothing (setRange d repeats m.links.length) m
      (.ofOutcome (.ofResult (m.setRange d repeats))) := by
  refine .ofResult ?_ ?_
  · intro changed g notices hok
    obtain ⟨_, hcheck, hchanged⟩ := Except.bind_eq_ok_iff.mp hok
    cases hchanged
    exact outcome_setRange_ok repeats g notices hcheck m.links
  · intro f g notices herror
    cases hcheck : d.check with
    | ok => simp [Mapping.setRange_of_ok hcheck] at herror
    | error f' =>
        rw [Mapping.setRange_of_error hcheck, Except.error.injEq] at herror
        subst herror
        exact outcome_setRange_error repeats g notices hcheck m.head m.targets _

theorem allOrNothing_setBlendRange (m : Mapping α) (start stop : α) :
    AllOrNothing (setBlendRange start stop) m
      (.ofOutcome (.ofResult (m.setBlendRange start stop))) := by
  have hblend : m.setBlendRange start stop =
      (Range.make start stop m.head.blend.repeats m.head.blend.onExceed).map
        fun blend => { m with head := { m.head with blend := blend } } := by
    unfold Mapping.setBlendRange Range.withBounds
    cases Range.make start stop m.head.blend.repeats m.head.blend.onExceed <;> rfl
  rw [hblend]
  refine .ofResult ?_ ?_
  · intro changed g notices hok
    rw [setBlendRange, outcome_get_bind]
    simp only [links, List.head?_cons]
    cases hmake : Range.make start stop m.head.blend.repeats m.head.blend.onExceed with
    | error f => simp [hmake, Except.map] at hok
    | ok blend =>
        rw [hmake] at hok
        cases hok
        rw [outcome_bind_ok (outcome_require_ok rfl)]
        rfl
  · intro f g notices herror
    rw [setBlendRange, outcome_get_bind]
    simp only [links, List.head?_cons]
    cases hmake : Range.make start stop m.head.blend.repeats m.head.blend.onExceed with
    | ok blend => simp [hmake, Except.map] at herror
    | error f' =>
        rw [hmake] at herror
        cases herror
        rw [outcome_bind_error (outcome_require_error rfl)]

/-- The ranges of a mapping have been accepted before, so its target gets them. -/
theorem outcome_attach {m : Mapping α} (h : m.head.domain.check = .ok ()) (target : Link α) :
    (attach target).outcome ⟨m.links, g, notices⟩ =
      (.ok (), ⟨(m.withTarget target).links, g, notices⟩) := by
  have hranges := outcome_setRange_ok (some m.head.input.repeats) g notices h [target]
  have hapart : (onLinks [target]
        (setRange m.head.domain (some m.head.input.repeats) 1)).outcome ⟨m.links, g, notices⟩ =
      (.ok ((), [target.withDomain m.head.domain (some m.head.input.repeats)]),
        ⟨m.links, g, notices⟩) :=
    congrArg (fun left => (left.1.map (·, left.2.links), { left.2 with links := m.links })) hranges
  rw [attach, outcome_get_bind]
  simp only [links, List.head?_cons] at hapart ⊢
  rw [outcome_bind_ok hapart]
  rfl

theorem allOrNothing_setTarget [Numeral α] {m : Mapping α} (h : m.head.domain.check = .ok ())
    (config : Compiler.Config) (text : String) (precision : Option Precision) :
    AllOrNothing (setTarget config text precision) m (config.attach m text precision) := by
  intro g notices
  unfold setTarget Compiler.Config.attach
  generalize (config.compile text precision : Build α (Link α)) = compiled
  have hdraw := outcome_draw ⟨m.links, g, notices⟩ compiled
  rcases hcompile : compiled g with ⟨⟨given, f | target⟩, g'⟩
  · simp only [hcompile] at hdraw
    rw [outcome_bind_error hdraw, Build.bind_apply_error hcompile]
  · simp only [hcompile] at hdraw
    rw [outcome_bind_ok hdraw, Build.bind_apply_ok hcompile, outcome_attach _ _ h]
    simp

end Steps
end Easing.Mapping
