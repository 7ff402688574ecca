import Easing.Proofs.Definition.Consumption
import Easing.Proofs.Session.Sharing
import Easing.Proofs.Session.Atomicity

/-! # Break points depend on texts alone

The generator of a compiler goes on by what is drawn for the texts that are read with
it, and by nothing else. Which texts an action reads is mostly written on it: the text of
a target is read once the mapping that it is for has been made.
-/

namespace Easing

variable {α : Type}

/-! ## Texts that are read -/

/-- Whether an action reads texts. -/
def Action.reads : Action α → Bool
  | .compile .. | .build .. | .parse _ | .change _ (.setTarget ..) => true
  | .query .. | .change _ (.setRange ..) | .change _ (.setBlendRange ..) => false

/-- The request without its target. -/
def Request.curve (request : Request α) : Request α := { request with target := none }

variable [Scalar α] [Numeral α]

/-- The texts that are read for a request. The text of the target is read once the mapping
that it is for has been made. -/
def Compiler.Config.textsOf (config : Config) (request : Request α) (g : Generator) :
    List String :=
  request.definition ::
    if (config.build request.curve g).1.result.isOk then request.target.toList else []

namespace Session

/-- The texts that an action reads, in order. -/
def textsRead (s : Session α) : Action α → List String
  | .compile _ _ definition _ | .parse definition => [definition]
  | .build _ request => s.own.config.textsOf request s.own.generator
  | .change place (.setTarget definition _) =>
    if (s.find? place).isSome then [definition] else []
  | _ => []

/-- The texts that an action reads with the generator of one of the compilers. -/
def textsReadBy (s : Session α) (maker : Maker) (action : Action α) : List String :=
  if s.reader action = some maker then s.textsRead action else []

/-- The texts that are read with the generator of one of the compilers in a run. -/
def textsOfRun (s : Session α) (maker : Maker) : List (Action α) → List String
  | [] => []
  | action :: rest => s.textsReadBy maker action ++ textsOfRun (s.act action).2 maker rest

end Session

/-- The results of reading texts one after another. -/
def Expression.readAll : List String → Generator → List (Except (Fault α) (Expression α))
  | [], _ => []
  | text :: texts, g => (parse text g).1.result :: readAll texts (parse text g : Outcome α _ × _).2

theorem Expression.readAll_cons (text : String) (texts : List String) (g : Generator) :
    (readAll (text :: texts) g : List (Except (Fault α) (Expression α))) =
      (parse text g).1.result :: readAll texts (parse text g : Outcome α _ × _).2 := rfl

theorem Expression.readAll_singleton (text : String) (g : Generator) :
    (readAll [text] g : List (Except (Fault α) (Expression α))) = [(parse text g).1.result] := rfl

/-- How far reading texts takes a generator. -/
def Definition.drawnFor (α : Type) [Scalar α] [Numeral α] (texts : List String) : Nat :=
  (texts.map (Definition.drawn α)).sum

/-- The expressions that an action has made for a mapping. -/
def Action.made (m : Mapping α) : Action α → List (Expression α)
  | .compile .. => [m.head.expression]
  | .build .. => m.links.map Link.expression
  | .change _ (.setTarget ..) => m.targets.map Link.expression
  | _ => []

namespace Compiler.Config

variable (config : Config) (text : String) (requested : Option Precision) (g : Generator)

theorem compile_snd :
    (config.compile text requested g : Outcome α (Link α) × Generator).2 =
      (Expression.parse text g : Outcome α (Expression α) × Generator).2 := by
  unfold compile
  rcases h : (Expression.parse text : Build α _) g with ⟨⟨notices, f | e⟩, g'⟩
  · rw [Build.bind_apply_error h]
  · rw [Build.bind_apply_ok h]
    rfl

theorem attach_snd (m : Mapping α) :
    (config.attach m text requested g).2 =
      (Expression.parse text g : Outcome α (Expression α) × Generator).2 := by
  unfold attach
  rw [← map_eq_pure_bind, Build.map_apply, compile_snd]

variable {config text requested g}

/-- A compiled link has the expression that is read. -/
theorem parse_of_compile {made : Link α}
    (h : (config.compile text requested g).1.result = .ok made) :
    (Expression.parse text g).1.result = .ok made.expression := by
  unfold compile at h
  rcases hparse : (Expression.parse text : Build α _) g with ⟨⟨notices, f | e⟩, g'⟩
  · rw [Build.bind_apply_error hparse] at h
    cases h
  · rw [Build.bind_apply_ok hparse] at h
    simp only [Build.ofOutcome_apply, link, Outcome.result_bind_eq_ok_iff] at h
    obtain ⟨_, _, hlink⟩ := h
    obtain ⟨_, _, rfl⟩ := Link.result_make_eq_ok_iff.mp hlink
    rfl

theorem parse_of_attach {m changed : Mapping α}
    (h : (config.attach m text requested g).1.result = .ok changed) :
    ∃ target : Link α, changed = m.withTarget target ∧
      (Expression.parse text g).1.result = .ok target.expression := by
  unfold attach at h
  rw [← map_eq_pure_bind, Build.map_apply, Outcome.result_map_eq_ok_iff] at h
  obtain ⟨target, htarget, rfl⟩ := h
  exact ⟨target, rfl, parse_of_compile htarget⟩

variable {request : Request α}

/-- A mapping is built without its target first. -/
theorem build_eq (config : Config) (request : Request α) :
    config.build request = config.build request.curve >>= fun m =>
      match request.target with
      | none => pure m
      | some text => config.attach m text request.targetPrecision := by
  unfold build Request.curve
  cases request.target with
  | none => simp only [bind_pure]
  | some text => simp only [bind_assoc, bind_pure]

theorem build_curve_eq (config : Config) (request : Request α) :
    config.build request.curve =
      config.compile request.definition request.precision >>= fun head => Build.ofOutcome
        (.ofResult (Mapping.setRange ⟨head, []⟩ request.domain (some request.inputRepeat))) := by
  unfold build Request.curve
  simp only [bind_pure]

theorem build_curve_snd (config : Config) (request : Request α) (g : Generator) :
    (config.build request.curve g).2 =
      (Expression.parse request.definition g : Outcome α (Expression α) × Generator).2 := by
  rw [build_curve_eq, ← compile_snd config request.definition request.precision g]
  rcases h : (config.compile request.definition request.precision : Build α _) g with
    ⟨⟨notices, f | head⟩, g'⟩
  · rw [Build.bind_apply_error h]
  · rw [Build.bind_apply_ok h]
    rfl

/-- What was built without its target has the expression that is read. -/
theorem parse_of_build_curve {m : Mapping α}
    (h : (config.build request.curve g).1.result = .ok m) :
    m.targets = [] ∧
      (Expression.parse request.definition g).1.result = .ok m.head.expression := by
  rw [build_curve_eq] at h
  rcases hcompile : (config.compile request.definition request.precision : Build α _) g with
    ⟨⟨notices, f | head⟩, g'⟩
  · rw [Build.bind_apply_error hcompile] at h
    cases h
  · rw [Build.bind_apply_ok hcompile] at h
    simp only [Build.ofOutcome_apply, Outcome.ofResult] at h
    cases hcheck : request.domain.check with
    | error f =>
        rw [Mapping.setRange_of_error hcheck] at h
        cases h
    | ok =>
        rw [Mapping.setRange_of_ok hcheck] at h
        cases h
        have hparse := parse_of_compile (show _ = Except.ok head by rw [hcompile])
        exact ⟨rfl, hparse⟩

end Compiler.Config

/-- What is built has the expressions of the texts that are read for it. -/
theorem Compiler.Config.readAll_textsOf {config : Config} {request : Request α} {g : Generator}
    {m : Mapping α} (h : (config.build request g).1.result = .ok m) :
    Expression.readAll (config.textsOf request g) g =
      (m.links.map Link.expression).map .ok := by
  rw [build_eq] at h
  unfold textsOf
  have hcurve := config.build_curve_snd request g
  rcases hrun : config.build request.curve g with ⟨⟨notices, f | built⟩, g'⟩
  · rw [Build.bind_apply_error hrun] at h
    cases h
  · rw [Build.bind_apply_ok hrun] at h
    rw [hrun] at hcurve
    obtain ⟨htargets, hparse⟩ := parse_of_build_curve (m := built) (by rw [hrun])
    have hok : (Except.ok built : Except (Fault α) (Mapping α)).isOk = true := rfl
    dsimp only at hcurve
    rw [if_pos hok, Expression.readAll_cons, hparse, ← hcurve]
    cases htarget : request.target with
    | none =>
        rw [htarget] at h
        cases h
        rw [Mapping.links, htargets]
        rfl
    | some text =>
        simp only [htarget] at h
        obtain ⟨target, rfl, hparse'⟩ := parse_of_attach h
        rw [Option.toList_some, Expression.readAll_singleton, hparse']
        rfl

namespace Session

omit [Scalar α] [Numeral α] in
theorem result_keep (s : Session α) (outcome : Outcome α (Mapping α))
    (entry : Mapping α → Entry α) :
    (s.keep outcome entry).1.result = outcome.result.map .mapping := by
  rcases outcome with ⟨notices, f | m⟩ <;> rfl

omit [Scalar α] [Numeral α] in
theorem result_of_keep {s : Session α} {outcome : Outcome α (Mapping α)}
    {entry : Mapping α → Entry α} {m : Mapping α}
    (h : (s.keep outcome entry).1.result = .ok (.mapping m)) : outcome.result = .ok m := by
  rcases outcome with ⟨notices, f | m'⟩
  · cases h
  · cases h
    rfl

/-- A mapping that an action makes or gives a target has the expressions of the texts that
the action reads, from where the generator stands. -/
theorem readAll_textsRead {s : Session α} {action : Action α} {maker : Maker} {m : Mapping α}
    (hreader : s.reader action = some maker) (h : (s.act action).1.result = .ok (.mapping m)) :
    Expression.readAll (s.textsRead action) (s.compiler maker).generator =
      (action.made m).map .ok := by
  cases action with
  | compile reader name definition precision =>
      obtain rfl := Option.some.inj hreader
      rw [act_compile] at h
      have hresult := result_of_keep h
      rw [Outcome.result_map_eq_ok_iff, run_outcome] at hresult
      obtain ⟨link, hlink, rfl⟩ := hresult
      rw [textsRead, Expression.readAll_singleton, Compiler.Config.parse_of_compile hlink]
      rfl
  | build name request =>
      obtain rfl := Option.some.inj hreader
      rw [act_build] at h
      have hresult := result_of_keep h
      rw [run_outcome] at hresult
      have hall := Compiler.Config.readAll_textsOf hresult
      rw [textsRead, Action.made]
      exact hall
  | parse definition =>
      simp only [act, Outcome.result_map_eq_ok_iff] at h
      obtain ⟨_, _, hmapping⟩ := h
      cases hmapping
  | query place query => cases hreader
  | change place change =>
      cases change with
      | setTarget definition precision =>
          obtain ⟨⟨entry, whole⟩, hfind, rfl⟩ := Option.map_eq_some_iff.mp hreader
          rw [act_change_of_some hfind] at h
          have hresult := result_of_keep h
          rw [changed, run_outcome] at hresult
          obtain ⟨target, rfl, hparse⟩ := Compiler.Config.parse_of_attach hresult
          rw [textsRead, hfind, Option.isSome_some, if_pos rfl, Expression.readAll_singleton, hparse]
          rfl
      | _ => cases hreader

end Session

section Draws

variable [Scalar.HasIntegerPart α]

theorem Expression.parse_snd (text : String) (g : Generator) :
    (parse text g : Outcome α (Expression α) × Generator).2 =
      Generator.step^[Definition.drawn α text] g := consumes_parse text g

omit [Scalar.HasIntegerPart α] in
theorem Definition.drawnFor_append (texts more : List String) :
    drawnFor α (texts ++ more) = drawnFor α texts + drawnFor α more := by
  rw [drawnFor, drawnFor, drawnFor, List.map_append, List.sum_append]

/-- A build draws for the text of its curve, and for that of its target if the curve was
made. -/
theorem Compiler.Config.build_snd (config : Config) (request : Request α) (g : Generator) :
    (config.build request g).2 =
      Generator.step^[Definition.drawnFor α (config.textsOf request g)] g := by
  have hcurve := config.build_curve_snd request g
  rw [Expression.parse_snd] at hcurve
  rw [build_eq]
  unfold textsOf
  rcases hrun : config.build request.curve g with ⟨⟨notices, f | m⟩, g'⟩
  · rw [hrun] at hcurve
    rw [Build.bind_apply_error hrun]
    simp only [Except.isOk, Except.toBool, Bool.false_eq_true, ↓reduceIte]
    simpa [Definition.drawnFor] using hcurve
  · rw [hrun] at hcurve
    rw [Build.bind_apply_ok hrun]
    simp only [Except.isOk, Except.toBool, ↓reduceIte]
    cases request.target with
    | none => simpa [Definition.drawnFor] using hcurve
    | some text =>
        dsimp only at hcurve ⊢
        rw [attach_snd, Expression.parse_snd, hcurve, ← Function.iterate_add_apply, Nat.add_comm]
        simp [Definition.drawnFor]

namespace Session

omit [Scalar α] [Numeral α] [Scalar.HasIntegerPart α] in
theorem run_compiler {β : Type} (s : Session α) (maker other : Maker) (operation : Build α β) :
    (s.run maker operation).2.compiler other =
      { s.compiler other with generator :=
          if maker = other then (operation (s.compiler other).generator).2
          else (s.compiler other).generator } := by
  cases maker <;> cases other <;> rfl

omit [Scalar α] [Numeral α] [Scalar.HasIntegerPart α] in
@[simp] theorem keep_compiler (s : Session α) (outcome : Outcome α (Mapping α))
    (entry : Mapping α → Entry α) : (s.keep outcome entry).2.compiler = s.compiler := by
  rcases outcome with ⟨notices, f | m⟩
  · rfl
  · funext maker
    change (s.put (entry m)).compiler maker = _
    unfold put
    split <;> cases maker <;> rfl

/-- A compiler after an action is what it was, but for what was drawn for the texts that
the action reads with it. -/
theorem act_compiler (s : Session α) (action : Action α) (maker : Maker) :
    (s.act action).2.compiler maker = ⟨(s.compiler maker).config,
      Generator.step^[Definition.drawnFor α (s.textsReadBy maker action)]
        (s.compiler maker).generator⟩ := by
  unfold textsReadBy
  cases action with
  | compile reader name definition precision =>
      rw [act_compile, keep_compiler, run_compiler, Compiler.Config.compile_snd,
        Expression.parse_snd]
      by_cases h : reader = maker <;> simp [Session.reader, textsRead, Definition.drawnFor, h]
  | build name request =>
      rw [act_build, keep_compiler, run_compiler, Compiler.Config.build_snd]
      cases maker with
      | own => rw [if_pos rfl, if_pos (by rfl), textsRead, compiler]
      | standard => rw [if_neg (by decide), if_neg (by simp [Session.reader])]; rfl
  | parse definition =>
      rw [act_parse, run_compiler, Expression.parse_snd]
      by_cases h : Maker.own = maker <;>
        simp [Session.reader, textsRead, Definition.drawnFor, h]
  | query place query =>
      rw [act_query]
      rfl
  | change place change =>
      cases hfind : s.find? place with
      | none =>
          rw [act_change_of_none hfind]
          cases change <;> simp [Session.reader, hfind, Definition.drawnFor]
      | some found =>
          obtain ⟨entry, m⟩ := found
          rw [act_change_of_some hfind, keep_compiler]
          cases change with
          | setTarget definition precision =>
              rw [changed, run_compiler, Compiler.Config.attach_snd, Expression.parse_snd]
              by_cases h : entry.maker = maker <;>
                simp [Session.reader, textsRead, hfind, Definition.drawnFor, h]
          | _ => rfl

/-- In a run, a generator goes on by what is drawn for the texts that are read with it. -/
theorem after_generator (s : Session α) (actions : List (Action α)) (maker : Maker) :
    ((s.after actions).compiler maker).generator =
      Generator.step^[Definition.drawnFor α (s.textsOfRun maker actions)]
        (s.compiler maker).generator := by
  induction actions generalizing s with
  | nil => rfl
  | cons action rest ih =>
      have hrest := ih (s.act action).2
      rw [act_compiler, ← Function.iterate_add_apply, Nat.add_comm,
        ← Definition.drawnFor_append] at hrest
      exact hrest

end Session

end Draws

end Easing
