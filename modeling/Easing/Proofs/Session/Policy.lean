import Easing.Proofs.Mapping.Policy
import Easing.Proofs.Session.Run

/-! # Runs under different actions

Two compilers that are told different actions for numbers outside ranges, and
otherwise the same, take the same actions of a session to the same mappings with
different actions in their ranges: nothing on the way from a definition to a
mapping consults a range. So a call under one action is the call under another,
read as `Outcome.under` says.
-/

namespace Easing

variable {α β : Type}

/-- What a compiler is told, with another action. -/
def Compiler.Config.under (action : ExceedAction) (config : Compiler.Config) : Compiler.Config :=
  { config with onExceed := action }

/-- A change for what the configured compiler makes, and none for the rest. -/
def Maker.ifOwn (change : β → β) : Maker → β → β
  | .own => change
  | .standard => id

namespace Session

/-- The entry with another action, if the configured compiler made it. -/
def Entry.under (action : ExceedAction) (entry : Entry α) : Entry α :=
  { entry with mapping := entry.maker.ifOwn (Mapping.under action) entry.mapping }

/-- The session with another action for the configured compiler and its mappings. -/
def under (action : ExceedAction) (s : Session α) : Session α :=
  { s with
    own := { s.own with config := s.own.config.under action }
    entries := s.entries.map (Entry.under action) }

/-! ## Entries commute with a change of action -/

@[simp] theorem config_compiler_under (action : ExceedAction) (s : Session α) (maker : Maker) :
    ((s.under action).compiler maker).config =
      maker.ifOwn (Compiler.Config.under action) (s.compiler maker).config := by
  cases maker <;> rfl

theorem run_under (action : ExceedAction) (s : Session α) (maker : Maker)
    (operation : Build α β) :
    (s.under action).run maker operation =
      ((s.run maker operation).1, (s.run maker operation).2.under action) := by
  cases maker <;> rfl

theorem run_map (s : Session α) (maker : Maker) {γ : Type} (f : β → γ) (operation : Build α β) :
    s.run maker (f <$> operation) =
      (f <$> (s.run maker operation).1, (s.run maker operation).2) := by
  cases maker <;> simp [run, Compiler.run, Build.map_apply]

theorem put_under (action : ExceedAction) (s : Session α) (entry : Entry α) :
    (s.under action).put (entry.under action) = (s.put entry).under action := by
  have hnames : (s.under action).entries.any (·.name == (entry.under action).name) =
      s.entries.any (·.name == entry.name) := by
    simp [under, Entry.under, List.any_map, Function.comp_def]
  unfold put
  rw [hnames]
  split
  · simp only [under, List.map_map, Session.mk.injEq, true_and]
    apply List.map_congr_left
    intro e _
    change (if e.name == entry.name then entry.under action else e.under action) =
      (if e.name == entry.name then entry else e).under action
    split <;> rfl
  · simp [under]

/-- Keeping a mapping commutes with a change of action. -/
theorem keep_under (action : ExceedAction) (s : Session α) (outcome : Outcome α (Mapping α))
    {change : Mapping α → Mapping α} {entry entry' : Mapping α → Entry α}
    (h : ∀ m, entry' (change m) = (entry m).under action) :
    ((s.under action).keep (change <$> outcome) entry').2 =
      (s.keep outcome entry).2.under action := by
  obtain ⟨notices, f | m⟩ := outcome
  · rw [Outcome.map_mk_error]
    rfl
  · rw [Outcome.map_mk_ok]
    change (s.under action).put (entry' (change m)) = _
    rw [h, put_under]
    rfl

theorem find?_under (action : ExceedAction) (s : Session α) (place : Place) :
    (s.under action).find? place = (s.find? place).map fun found =>
      (found.1.under action, found.1.maker.ifOwn (Mapping.under action) found.2) := by
  have hentry : entry? (s.under action) place.name =
      Option.map (Entry.under action) ( s.entry? place.name) := by
    unfold entry?
    simp [under, Entry.under, List.find?_map, Function.comp_def]
  unfold find?
  rw [hentry]
  cases s.entry? place.name with
  | none => rfl
  | some entry =>
      obtain ⟨name, maker, m⟩ := entry
      cases maker with
      | standard =>
          cases hm : m.atDepth? place.depth <;> simp [Entry.under, Maker.ifOwn, hm]
      | own =>
          cases hm : m.atDepth? place.depth <;>
            simp [Entry.under, Maker.ifOwn, hm, Mapping.atDepth?_under]

end Session

/-! ## Making and changing mappings commute with a change of action -/

section Making

variable [Scalar α]

/-- A new link samples its curve without regard to the action of its ranges. -/
theorem Link.make_under (expression : Expression α) (precision : Precision)
    (action action' : ExceedAction) :
    Link.make expression precision action =
      Link.under action <$> Link.make expression precision action' := by
  unfold Link.make
  cases precision.isExact with
  | true => rfl
  | false =>
      simp only [Bool.false_eq_true, ↓reduceIte, map_bind, map_pure]
      rfl

theorem Mapping.setRange_under (action : ExceedAction) (m : Mapping α) (d : Domain α)
    (repeats : Option RepeatPolicy) :
    (m.under action).setRange d repeats = (m.setRange d repeats).map (Mapping.under action) := by
  simp only [Mapping.setRange]
  cases d.check with
  | error f => rfl
  | ok =>
      have htargets : (m.targets.map (Link.under action)).map (·.withDomain d repeats) =
          (m.targets.map (·.withDomain d repeats)).map (Link.under action) := by
        rw [List.map_map, List.map_map]
        rfl
      simp only [Mapping.under, htargets]
      rfl

theorem Mapping.setBlendRange_under (action : ExceedAction) (m : Mapping α) (start stop : α) :
    (m.under action).setBlendRange start stop =
      (m.setBlendRange start stop).map (Mapping.under action) := by
  have hblend : (m.under action).head.blend.withBounds start stop =
      (m.head.blend.withBounds start stop).map (Range.under action) := by
    simp only [Range.withBounds, Range.make]
    cases Range.checkBounds start stop <;> rfl
  simp only [Mapping.setBlendRange, hblend]
  cases m.head.blend.withBounds start stop <;> rfl

theorem Mapping.withTarget_under (action : ExceedAction) (m : Mapping α) (target : Link α) :
    (m.under action).withTarget (target.under action) = (m.withTarget target).under action := rfl

variable [Numeral α]

namespace Compiler.Config

theorem compile_under (action : ExceedAction) (config : Config) (text : String)
    (requested : Option Precision) :
    ((config.under action).compile text requested : Build α (Link α)) =
      Link.under action <$> config.compile text requested := by
  unfold compile
  rw [map_bind]
  congr 1
  funext expression g
  rw [Build.map_apply]
  change (link (config.under action) expression requested, g) = (_ <$> link config _ _, g)
  unfold link
  rw [map_bind]
  simp only [← Link.make_under _ _ action config.onExceed]
  rfl

theorem attach_under (action : ExceedAction) (config : Config) (m : Mapping α) (text : String)
    (requested : Option Precision) :
    (config.under action).attach (m.under action) text requested =
      Mapping.under action <$> config.attach m text requested := by
  unfold attach
  rw [compile_under, map_bind, bind_map_left]
  simp only [map_pure, Mapping.withTarget_under]

theorem build_under (action : ExceedAction) (config : Config) (request : Request α) :
    (config.under action).build request = Mapping.under action <$> config.build request := by
  unfold build
  rw [compile_under, map_bind, bind_map_left]
  congr 1
  funext head
  have hset : (⟨head.under action, []⟩ : Mapping α).setRange request.domain
      (some request.inputRepeat) = ((⟨head, []⟩ : Mapping α).setRange request.domain
        (some request.inputRepeat)).map (Mapping.under action) :=
    Mapping.setRange_under action ⟨head, []⟩ _ _
  rw [hset, map_bind]
  cases (⟨head, []⟩ : Mapping α).setRange request.domain (some request.inputRepeat) with
  | error f => rfl
  | ok m =>
      change pure (m.under action) >>= _ = pure m >>= _
      rw [pure_bind, pure_bind]
      cases request.target with
      | none => rw [map_pure]
      | some text => exact attach_under action config m text request.targetPrecision

end Compiler.Config

end Making

/-! ## Runs -/

namespace Session

variable [Scalar α] [Numeral α]

theorem compile_ifOwn (action : ExceedAction) (s : Session α) (maker : Maker) (text : String)
    (precision : Option Precision) :
    (((s.under action).compiler maker).config.compile text precision : Build α (Link α)) =
      maker.ifOwn (Link.under action) <$> (s.compiler maker).config.compile text precision := by
  rw [config_compiler_under]
  cases maker with
  | own => exact Compiler.Config.compile_under action _ text precision
  | standard => exact (id_map _).symm

theorem attach_ifOwn (action : ExceedAction) (s : Session α) (maker : Maker) (m : Mapping α)
    (text : String) (precision : Option Precision) :
    ((s.under action).compiler maker).config.attach (maker.ifOwn (Mapping.under action) m) text
        precision =
      maker.ifOwn (Mapping.under action) <$>
        (s.compiler maker).config.attach m text precision := by
  rw [config_compiler_under]
  cases maker with
  | own => exact Compiler.Config.attach_under action _ m text precision
  | standard => exact (id_map _).symm

theorem changed_under (action : ExceedAction) (s : Session α) (maker : Maker) (m : Mapping α)
    (change : Change α) :
    (s.under action).changed maker (maker.ifOwn (Mapping.under action) m) change =
      (maker.ifOwn (Mapping.under action) <$> (s.changed maker m change).1,
        (s.changed maker m change).2.under action) := by
  cases change with
  | setRange d repeats =>
      simp only [changed, Prod.mk.injEq, and_true]
      cases maker with
      | own =>
          simp only [Maker.ifOwn, Mapping.setRange_under]
          cases m.setRange d repeats <;> simp [Outcome.ofResult, Except.map]
      | standard => simp only [Maker.ifOwn, id_map, id_eq]
  | setBlendRange start stop =>
      simp only [changed, Prod.mk.injEq, and_true]
      cases maker with
      | own =>
          simp only [Maker.ifOwn, Mapping.setBlendRange_under]
          cases m.setBlendRange start stop <;> simp [Outcome.ofResult, Except.map]
      | standard => simp only [Maker.ifOwn, id_map, id_eq]
  | setTarget definition precision =>
      rw [changed, changed, attach_ifOwn, run_map, run_under]

/-- A change of action before an action of the session is one after it. -/
theorem act_under (action : ExceedAction) (s : Session α) (a : Action α) :
    ((s.under action).act a).2 = (s.act a).2.under action := by
  cases a with
  | compile maker name definition precision =>
      rw [act_compile, act_compile, compile_ifOwn, run_map, run_under]
      generalize s.run maker ((s.compiler maker).config.compile definition precision) = ran
      have hnew : (⟨·, []⟩ : Link α → Mapping α) <$> maker.ifOwn (Link.under action) <$> ran.1 =
          maker.ifOwn (Mapping.under action) <$> (⟨·, []⟩ : Link α → Mapping α) <$> ran.1 := by
        cases maker with
        | own => simp only [Functor.map_map, Maker.ifOwn]; rfl
        | standard => simp only [Maker.ifOwn, id_map]
      dsimp only
      rw [hnew]
      exact keep_under action ran.2 _ fun m => rfl
  | build name request =>
      have hbuild : (s.under action).own.config.build request =
          Mapping.under action <$> s.own.config.build request :=
        Compiler.Config.build_under action s.own.config request
      rw [act_build, act_build, hbuild, run_map, run_under]
      generalize s.run .own (s.own.config.build request) = ran
      exact keep_under action ran.2 ran.1 fun m => rfl
  | parse definition => rw [act_parse, act_parse, run_under]
  | query place query => rw [act_query, act_query]
  | change place change =>
      cases hfind : s.find? place with
      | none =>
          have hnone : (s.under action).find? place = none := by rw [find?_under, hfind]; rfl
          rw [act_change_of_none hfind, act_change_of_none hnone]
      | some found =>
          obtain ⟨entry, m⟩ := found
          have hsome : (s.under action).find? place =
              some (entry.under action, entry.maker.ifOwn (Mapping.under action) m) := by
            rw [find?_under, hfind]
            rfl
          rw [act_change_of_some hfind, act_change_of_some hsome]
          change (Session.keep (Session.changed _ entry.maker _ change).2
            (Session.changed _ entry.maker _ change).1 _).2 = _
          rw [changed_under]
          generalize s.changed entry.maker m change = ran
          refine keep_under action ran.2 ran.1 fun changed => ?_
          obtain ⟨name, maker, mapping⟩ := entry
          cases maker with
          | own => simp only [Entry.under, Maker.ifOwn, Mapping.replaceAt_under]
          | standard => rfl

/-- A whole run under another action ends in the same state, with that action. -/
theorem after_under (action : ExceedAction) (s : Session α) (actions : List (Action α)) :
    (s.under action).after actions = (s.after actions).under action := by
  induction actions generalizing s with
  | nil => rfl
  | cons a rest ih =>
      change ((s.under action).act a).2.after rest = _
      rw [act_under, ih]
      rfl

/-- The session that the same actions lead to when the configured compiler is told
an action for numbers outside ranges. -/
def afterUnder (config : Compiler.Config) (g : Generator) (standard : Compiler)
    (actions : List (Action α)) (action : ExceedAction) : Session α :=
  (start ⟨config.under action, g⟩ standard : Session α).after actions

theorem afterUnder_eq (config : Compiler.Config) (g : Generator) (standard : Compiler)
    (actions : List (Action α)) (action : ExceedAction) :
    afterUnder config g standard actions action =
      (afterUnder config g standard actions .warn).under action := by
  unfold afterUnder
  rw [← after_under]
  rfl

/-- The action for numbers outside ranges only reports. After the same actions of
three sessions with equal seeds, the same places hold mappings. A call that gives
notice of numbers outside has the same outcome silently, without those notices;
strictly it is refused with the first of them, and unchanged if there is none. -/
theorem action_only_reports (config : Compiler.Config) (g : Generator) (standard : Compiler)
    (actions : List (Action α)) (place : Place) (x : α) (ratio : Option α) :
    let run := afterUnder config g standard actions
    (∀ action, ((run action).find? place).isSome = ((run .warn).find? place).isSome) ∧
    ∀ entry m, (run .warn).find? place = some (entry, m) → entry.maker = .own →
      ∃ entrySilent silent entryStrict strict,
        (run .silent).find? place = some (entrySilent, silent) ∧
        (run .fail).find? place = some (entryStrict, strict) ∧
        let reports := (m.map x ratio).notices.filter Notice.isOutside
        silent.map x ratio =
          ⟨(m.map x ratio).notices.filter (!·.isOutside), (m.map x ratio).result⟩ ∧
        (reports = [] → strict.map x ratio = m.map x ratio) ∧
        ∀ first rest, reports = first :: rest →
          ∃ value start stop, (strict.map x ratio).result = .error (.exceeded value start stop) ∧
            (Fault.exceeded value start stop).message = first.message := by
  intro run
  have hrun : ∀ action, run action = (run .warn).under action :=
    afterUnder_eq config g standard actions
  refine ⟨fun action => by rw [hrun action, find?_under, Option.isSome_map], ?_⟩
  intro entry m hfind hmaker
  have hunder : ∀ action, (run action).find? place = some (entry.under action, m.under action) := by
    intro action
    rw [hrun action, find?_under, hfind, Option.map_some, hmaker]
    rfl
  have hwarn : m.under .warn = m := by
    have htwice := hunder .warn
    rw [hfind] at htwice
    exact (Prod.mk.inj (Option.some.inj htwice)).2.symm
  have hmap : ∀ action, (m.under action).map x ratio = (m.map x ratio).under action := by
    intro action
    rw [Mapping.map_under, hwarn]
  refine ⟨_, _, _, _, hunder .silent, hunder .fail, hmap .silent, ?_, ?_⟩
  · intro hnone
    rw [hmap, Outcome.under_of_filter_eq_nil hnone]
  · intro first rest hreports
    obtain ⟨value, start, stop, rfl, hresult⟩ := Outcome.under_fail_of_filter_eq_cons hreports
    rw [hmap]
    exact ⟨value, start, stop, hresult, rfl⟩

/-- Twice and a half is outside the unit interval. -/
theorem action_only_reports_identity :
    let run := afterUnder (.standard) (.ofSeed 1) ⟨.standard, .ofSeed 0⟩
      [.compile .own "ramp" "x" none]
    ∃ (entry : Entry Float) (m : Mapping Float),
      (run .warn).find? ⟨"ramp", 0⟩ = some (entry, m) ∧ entry.maker = .own ∧
      (m.map 2.5 none).notices.filter Notice.isOutside = [.outside 2.5 0 1] ∧
      ∃ (entryStrict : Entry Float) (strict : Mapping Float),
        (run .fail).find? ⟨"ramp", 0⟩ = some (entryStrict, strict) ∧
        ∃ value start stop, (strict.map 2.5 none).result = .error (.exceeded value start stop) ∧
          (Fault.exceeded value start stop).message =
            (Notice.outside (2.5 : Float) 0 1).message := by
  intro run
  have hkernel : ((run .warn).find? ⟨"ramp", 0⟩).map (fun found =>
      (found.1.maker, (found.2.map 2.5 none).notices.filter Notice.isOutside)) =
        some (.own, [.outside 2.5 0 1]) := by
    decide +kernel
  obtain ⟨⟨entry, m⟩, hfind, hfound⟩ := Option.map_eq_some_iff.mp hkernel
  obtain ⟨hmaker, hreports⟩ := Prod.mk.inj hfound
  obtain ⟨_, _, entryStrict, strict, _, hstrict, _, _, hfirst⟩ :=
    (action_only_reports .standard (.ofSeed 1) ⟨.standard, .ofSeed 0⟩
      [.compile .own "ramp" "x" none] ⟨"ramp", 0⟩ 2.5 none).2 entry m hfind hmaker
  exact ⟨entry, m, hfind, hmaker, hreports, entryStrict, strict, hstrict, hfirst _ _ hreports⟩

end Session

end Easing
