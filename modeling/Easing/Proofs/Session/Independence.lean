import Easing.Proofs.Mapping.Tabulated
import Easing.Proofs.Session.Alike

/-! # What break points do not depend on

Two runs that read the same texts have the same expressions everywhere, whatever they
ask and whichever ranges they set in between. A run that requests other precisions reads
the same texts as long as every curve can be sampled. A build that fails because its curve
cannot be sampled does not read the text of its target, so that later texts draw other
numbers than they do where the curve is not sampled.
-/

namespace Easing

variable {α : Type}

variable [Scalar α] [Numeral α]

/-! ## Curves that can be sampled -/

namespace Compiler.Config

variable {config : Config} {text : String} {requested : Option Precision} {g : Generator}
  {request : Request α}

/-- Where no sampling fails, a definition is compiled if it can be read. -/
theorem isOk_compile
    (h : ∀ cause, (config.compile text requested g : Outcome α (Link α) × Generator).1.result ≠
      .error (.evaluation cause)) :
    (config.compile text requested g : Outcome α (Link α) × Generator).1.result.isOk =
      (Expression.parse text g : Outcome α (Expression α) × Generator).1.result.isOk := by
  unfold compile at h ⊢
  rcases hparse : (Expression.parse text : Build α _) g with ⟨⟨notices, f | e⟩, g'⟩
  · rw [Build.bind_apply_error hparse]
    rfl
  · rw [Build.bind_apply_ok hparse] at h ⊢
    simp only [Build.ofOutcome_apply] at h ⊢
    cases hlink : (config.link e requested).result with
    | ok made => rfl
    | error f =>
        have hmake : (Link.make e (e.selectPrecision requested config.precision)
            config.onExceed).result = .error f := hlink
        obtain ⟨_, _, _, cause, rfl, _⟩ := Link.result_make_eq_error_iff.mp hmake
        exact absurd hlink (h cause)

theorem isOk_attach (config : Config) (m : Mapping α) (text : String)
    (requested : Option Precision) (g : Generator) :
    (config.attach m text requested g).1.result.isOk =
      (config.compile text requested g : Outcome α (Link α) × Generator).1.result.isOk := by
  unfold attach
  rw [← map_eq_pure_bind, Build.map_apply, Outcome.result_map, Except.isOk_map]

theorem isOk_build_curve
    (h : ∀ cause, (config.build request.curve g).1.result ≠ .error (.evaluation cause)) :
    (config.build request.curve g).1.result.isOk =
      ((Expression.parse request.definition g : Outcome α (Expression α) × Generator).1.result.isOk
        && request.domain.check.isOk) := by
  have hcompile : ∀ cause, (config.compile request.definition request.precision g :
      Outcome α (Link α) × Generator).1.result ≠ .error (.evaluation cause) := by
    intro cause hcause
    apply h cause
    rw [build_curve_eq]
    rcases hrun : (config.compile request.definition request.precision : Build α _) g with
      ⟨⟨notices, f | head⟩, g'⟩
    · rw [hrun] at hcause
      obtain rfl := Except.error.inj hcause
      rw [Build.bind_apply_error hrun]
    · rw [hrun] at hcause
      cases hcause
  rw [← isOk_compile hcompile, build_curve_eq]
  rcases hrun : (config.compile request.definition request.precision : Build α _) g with
    ⟨⟨notices, f | head⟩, g'⟩
  · rw [Build.bind_apply_error hrun]
    rfl
  · rw [Build.bind_apply_ok hrun]
    cases hcheck : request.domain.check with
    | error f => simp [Mapping.setRange_of_error hcheck, Outcome.ofResult, Except.isOk, Except.toBool]
    | ok => simp [Mapping.setRange_of_ok hcheck, Outcome.ofResult, Except.isOk, Except.toBool]

/-- Where no sampling fails, whether a mapping is built does not depend on precisions. -/
theorem isOk_build
    (h : ∀ cause, (config.build request g).1.result ≠ .error (.evaluation cause)) :
    (config.build request.curve g).1.result.isOk =
        ((Expression.parse request.definition g : Outcome α (Expression α) × Generator).1.result.isOk
          && request.domain.check.isOk) ∧
      (config.build request g).1.result.isOk =
        ((config.build request.curve g).1.result.isOk && request.target.all fun text =>
          (Expression.parse text (Expression.parse request.definition g :
            Outcome α (Expression α) × Generator).2 :
              Outcome α (Expression α) × Generator).1.result.isOk) := by
  have hsnd := config.build_curve_snd request g
  rw [build_eq config request] at h ⊢
  rcases hrun : config.build request.curve g with ⟨⟨notices, f | m⟩, g'⟩
  · rw [Build.bind_apply_error hrun] at h ⊢
    rw [← isOk_build_curve (by rw [hrun]; exact h), hrun]
    exact ⟨rfl, rfl⟩
  · rw [Build.bind_apply_ok hrun] at h ⊢
    rw [hrun] at hsnd
    rw [← isOk_build_curve (by rw [hrun]; intro cause hcause; cases hcause), hrun, ← hsnd]
    refine ⟨rfl, ?_⟩
    cases htarget : request.target with
    | none => rfl
    | some text =>
        simp only [htarget] at h ⊢
        have hcompile : ∀ cause, (config.compile text request.targetPrecision g' :
            Outcome α (Link α) × Generator).1.result ≠ .error (.evaluation cause) := by
          intro cause hcause
          apply h cause
          unfold attach
          rw [← map_eq_pure_bind, Build.map_apply, Outcome.result_map, hcause]
          rfl
        have hok : (Except.ok m : Except (Fault α) (Mapping α)).isOk = true := rfl
        rw [isOk_attach, isOk_compile hcompile, hok, Bool.true_and, Option.all_some]

end Compiler.Config

/-! ## Runs -/

namespace Session

variable {s t : Session α}

theorem result_act_compile (s : Session α) (maker : Maker) (name definition : String)
    (precision : Option Precision) :
    (s.act (.compile maker name definition precision)).1.result =
      ((s.compiler maker).config.compile definition precision
        (s.compiler maker).generator).1.result.map fun link => .mapping ⟨link, []⟩ := by
  rw [act_compile, result_keep, run_outcome, Outcome.result_map]
  cases ((s.compiler maker).config.compile definition precision (s.compiler maker).generator :
    Outcome α (Link α) × Generator).1.result <;> rfl

theorem result_act_build (s : Session α) (name : String) (request : Request α) :
    (s.act (.build name request)).1.result =
      (s.own.config.build request s.own.generator).1.result.map .mapping := by
  rw [act_build, result_keep, run_outcome, compiler]

theorem result_act_setTarget {place : Place} {entry : Entry α} {m : Mapping α}
    (hfind : s.find? place = some (entry, m)) (definition : String)
    (precision : Option Precision) :
    (s.act (.change place (.setTarget definition precision))).1.result =
      ((s.compiler entry.maker).config.compile definition precision
        (s.compiler entry.maker).generator).1.result.map fun target =>
          .mapping (m.withTarget target) := by
  rw [act_change_of_some hfind, result_keep, changed, run_outcome, Compiler.Config.attach,
    ← map_eq_pure_bind, Build.map_apply, Outcome.result_map]
  cases ((s.compiler entry.maker).config.compile definition precision
    (s.compiler entry.maker).generator : Outcome α (Link α) × Generator).1.result <;> rfl

theorem isOk_act_parse (s : Session α) (definition : String) :
    (s.act (.parse definition)).1.result.isOk =
      (Expression.parse definition s.own.generator :
        Outcome α (Expression α) × Generator).1.result.isOk := by
  simp only [act, Outcome.result_map, Except.isOk_map, run_outcome, compiler]

/-- Whether an action, if it reads texts, does not fail for want of samples. -/
def Samples (s : Session α) (action : Action α) : Prop :=
  action.reads = true → ∀ cause, (s.act action).1.result ≠ .error (.evaluation cause)

/-- A run in which every curve that is to be sampled can be. -/
def SamplesAll (s : Session α) : List (Action α) → Prop
  | [] => True
  | action :: rest => s.Samples action ∧ SamplesAll (s.act action).2 rest

variable [Scalar.HasIntegerPart α]

/-- An action keeps sessions with the same compilers alike. -/
theorem Alike.act_same (h : s.Alike t) (hs : s.Reachable) (ht : t.Reachable)
    (hcompiler : ∀ maker, t.compiler maker = s.compiler maker) (action : Action α) :
    (s.act action).2.Alike (t.act action).2 := by
  cases hreads : action.reads with
  | false => exact (hs.alike_act hreads).symm.trans (h.trans (ht.alike_act hreads))
  | true =>
      have hown : t.own = s.own := hcompiler .own
      cases action with
      | compile maker name definition precision =>
          refine h.act .compile hreads rfl ?_
          rw [result_act_compile, result_act_compile, hcompiler]
      | build name request =>
          refine h.act (.refl _) hreads ?_ ?_
          · rw [textsRead, textsRead, hown]
          · rw [result_act_build, result_act_build, hown]
      | parse definition =>
          refine h.act .parse hreads rfl ?_
          rw [isOk_act_parse, isOk_act_parse, hown]
      | query => cases hreads
      | change place change =>
          cases change with
          | setTarget definition precision =>
              refine h.act .setTarget hreads ?_ ?_
              · rw [textsRead, textsRead, h.isSome_find?]
              · cases hfind : s.find? place with
                | none => simp [Session.act, hfind, h.find?_eq_none hfind]
                | some found =>
                    obtain ⟨entry, m⟩ := found
                    obtain ⟨entry', m', hfind', hcurves, _⟩ := h.find? hfind
                    have hmaker : entry'.maker = entry.maker := congrArg Curves.maker hcurves
                    rw [result_act_setTarget hfind, result_act_setTarget hfind', hmaker, hcompiler,
                      Except.isOk_map, Except.isOk_map]
          | _ => cases hreads

/-- Actions that differ in precisions keep sessions alike, if all their curves can be
sampled. -/
theorem Alike.act_samples (h : s.Alike t) (hs : s.Reachable) (ht : t.Reachable)
    {action other : Action α} (hup : action.UpToPrecision other) (hsample : s.Samples action)
    (hsample' : t.Samples other) : (s.act action).2.Alike (t.act other).2 := by
  cases hup with
  | compile =>
      have hresult := hsample rfl
      have hresult' := hsample' rfl
      rw [result_act_compile] at hresult hresult'
      simp only [ne_eq, Except.map_eq_error_iff] at hresult hresult'
      refine h.act .compile rfl rfl ?_
      rw [result_act_compile, result_act_compile, Except.isOk_map, Except.isOk_map,
        Compiler.Config.isOk_compile hresult, Compiler.Config.isOk_compile hresult', h.generator]
  | build =>
      have hresult := hsample rfl
      have hresult' := hsample' rfl
      rw [result_act_build] at hresult hresult'
      simp only [ne_eq, Except.map_eq_error_iff] at hresult hresult'
      obtain ⟨hcurve, hbuild⟩ := Compiler.Config.isOk_build hresult
      obtain ⟨hcurve', hbuild'⟩ := Compiler.Config.isOk_build hresult'
      have hgenerator : t.own.generator = s.own.generator := h.generator .own
      refine h.act .build rfl ?_ ?_
      · rw [textsRead, textsRead, Compiler.Config.textsOf, Compiler.Config.textsOf, hcurve, hcurve',
          hgenerator]
      · rw [result_act_build, result_act_build, Except.isOk_map, Except.isOk_map, hbuild, hbuild',
          hcurve, hcurve', hgenerator]
  | @setTarget place definition precision other =>
      refine h.act .setTarget rfl ?_ ?_
      · rw [textsRead, textsRead, h.isSome_find?]
      · cases hfind : s.find? place with
        | none => simp [Session.act, hfind, h.find?_eq_none hfind]
        | some found =>
            obtain ⟨entry, m⟩ := found
            obtain ⟨entry', m', hfind', hcurves, _⟩ := h.find? hfind
            have hmaker : entry'.maker = entry.maker := congrArg Curves.maker hcurves
            have hresult := hsample rfl
            have hresult' := hsample' rfl
            rw [result_act_setTarget hfind] at hresult
            rw [result_act_setTarget hfind'] at hresult'
            simp only [ne_eq, Except.map_eq_error_iff] at hresult hresult'
            rw [result_act_setTarget hfind, result_act_setTarget hfind', Except.isOk_map,
              Except.isOk_map, Compiler.Config.isOk_compile hresult,
              Compiler.Config.isOk_compile hresult', hmaker, h.generator]
  | parse =>
      have hgenerator : t.own.generator = s.own.generator := h.generator .own
      refine h.act .parse rfl rfl ?_
      rw [isOk_act_parse, isOk_act_parse, hgenerator]
  | rest hreads => exact (hs.alike_act hreads).symm.trans (h.trans (ht.alike_act hreads))

theorem act_config (s : Session α) (action : Action α) (maker : Maker) :
    ((s.act action).2.compiler maker).config = (s.compiler maker).config := by
  rw [act_compiler]

/-- Runs that differ only in questions and changes of ranges. -/
theorem Alike.after_same {actions others : List (Action α)}
    (hruns : Action.Interleaved Eq actions others) (h : s.Alike t) (hs : s.Reachable)
    (ht : t.Reachable)
    (hconfig : ∀ maker, (t.compiler maker).config = (s.compiler maker).config) :
    (s.after actions).Alike (t.after others) := by
  induction hruns generalizing s t with
  | nil => exact h
  | left hreads _ ih =>
      refine ih ((hs.alike_act hreads).symm.trans h) (hs.act _) ht fun maker => ?_
      rw [act_config, hconfig]
  | right hreads _ ih =>
      refine ih (h.trans (ht.alike_act hreads)) hs (ht.act _) fun maker => ?_
      rw [act_config, hconfig]
  | both hsame _ ih =>
      subst hsame
      refine ih (h.act_same hs ht (h.compiler_eq hconfig) _) (hs.act _) (ht.act _) fun maker => ?_
      rw [act_config, act_config, hconfig]

/-- Runs that differ in precisions as well. -/
theorem Alike.after_samples {actions others : List (Action α)}
    (hruns : Action.Interleaved Action.UpToPrecision actions others) (h : s.Alike t)
    (hs : s.Reachable) (ht : t.Reachable) (hsamples : s.SamplesAll actions)
    (hsamples' : t.SamplesAll others) : (s.after actions).Alike (t.after others) := by
  induction hruns generalizing s t with
  | nil => exact h
  | left hreads _ ih =>
      exact ih ((hs.alike_act hreads).symm.trans h) (hs.act _) ht hsamples.2 hsamples'
  | right hreads _ ih =>
      exact ih (h.trans (ht.alike_act hreads)) hs (ht.act _) hsamples hsamples'.2
  | both hup _ ih =>
      exact ih (h.act_samples hs ht hup hsamples.1 hsamples'.1) (hs.act _) (ht.act _) hsamples.2
        hsamples'.2

end Session

/-- Compilers with one seed start from one generator. Without a seed they start from those
that are given. -/
theorem Compiler.generator_eq_of_make {config config' : Compiler.Config}
    {unseeded unseeded' : Generator} {own own' : Compiler}
    (h : Compiler.make config unseeded = .ok own) (h' : Compiler.make config' unseeded' = .ok own')
    (hseed : config'.seed = config.seed) (hunseeded : config.seed = none → unseeded' = unseeded) :
    own'.generator = own.generator := by
  obtain ⟨g, hg, hown⟩ := Except.bind_eq_ok_iff.mp h
  obtain ⟨g', hg', hown'⟩ := Except.bind_eq_ok_iff.mp h'
  cases hown
  cases hown'
  have hsame : Generator.make config'.seed unseeded' = Generator.make config.seed unseeded := by
    rw [hseed]
    cases hnone : config.seed with
    | none => rw [hunseeded hnone]
    | some n => cases n <;> rfl
  rw [hsame, hg, Except.ok.injEq] at hg'
  exact hg'.symm

namespace Session

/-- Reading a text draws for the random steps that it comes to and accepts, one after
another, and for nothing else; a generator goes on by what is drawn for the texts that are
read with it, and each expression is read from where they leave it. So runs that differ in
questions and changes of ranges only have the same expressions, and so have runs of two
compilers with one seed, or without one and with one generator, that differ in precisions as
well, as long as every curve that is to be sampled can be. -/
theorem draws_follow_texts :
    (∀ (text : String) (g : Generator),
      (Expression.parse text g : Outcome Float (Expression Float) × Generator).2 =
          Generator.step^[Definition.drawn Float text] g ∧
        ∀ e : Expression Float, (Expression.parse text g).1.result = .ok e →
          Definition.drawn Float text = (e.steps.map Step.draws).sum ∧
            Step.DrawnInOrder e.steps g) ∧
    (∀ (s : Session Float) (actions : List (Action Float)) (maker : Maker),
      ((s.after actions).compiler maker).generator =
        Generator.step^[Definition.drawnFor Float (s.textsOfRun maker actions)]
          (s.compiler maker).generator) ∧
    (∀ (s : Session Float) (action : Action Float) (maker : Maker) (m : Mapping Float),
      s.reader action = some maker → (s.act action).1.result = .ok (.mapping m) →
        Expression.readAll (s.textsRead action) (s.compiler maker).generator =
          (action.made m).map .ok) ∧
    (∀ (own standard : Compiler) (actions others : List (Action Float)),
      Action.Interleaved Eq actions others →
        ((start own standard).after actions).Alike ((start own standard).after others)) ∧
    ∀ (config config' : Compiler.Config) (unseeded unseeded' : Generator)
        (own own' standard standard' : Compiler) (actions others : List (Action Float)),
      Compiler.make config unseeded = .ok own → Compiler.make config' unseeded' = .ok own' →
      config'.seed = config.seed → (config.seed = none → unseeded' = unseeded) →
      standard'.generator = standard.generator →
      Action.Interleaved Action.UpToPrecision actions others →
      (start own standard).SamplesAll actions → (start own' standard').SamplesAll others →
        ((start own standard).after actions).Alike ((start own' standard').after others) := by
  refine ⟨Expression.parse_draws, after_generator, fun s action maker m => readAll_textsRead,
    ?_, ?_⟩
  · intro own standard actions others hruns
    have hs : (start own standard : Session Float).Reachable := ⟨own, standard, [], rfl⟩
    exact Alike.after_same hruns (.refl _) hs hs fun _ => rfl
  · intro config config' unseeded unseeded' own own' standard standard' actions others hmake
      hmake' hseed hunseeded hstandard hruns hsamples hsamples'
    have hs : (start own standard : Session Float).Reachable := ⟨own, standard, [], rfl⟩
    have ht : (start own' standard' : Session Float).Reachable := ⟨own', standard', [], rfl⟩
    refine Alike.after_samples hruns ⟨fun maker => ?_, rfl⟩ hs ht hsamples hsamples'
    have hown := Compiler.generator_eq_of_make hmake hmake' hseed hunseeded
    cases maker
    · exact hown
    · exact hstandard

/-- The break points of the steps of a mapping. -/
def breakPoints (s : Session Float) (place : Place) : Option (List (Array Float)) :=
  (s.find? place).map fun found => found.2.head.expression.steps.map Step.parameters

theorem Alike.breakPoints_eq {s t : Session Float} (h : s.Alike t) (place : Place) :
    breakPoints t place = breakPoints s place := by
  unfold breakPoints
  cases hfind : s.find? place with
  | none => rw [h.find?_eq_none hfind]
  | some found =>
      obtain ⟨entry', m', hfind', _, hlinks⟩ := h.find? hfind
      have hhead : m'.head.expression = found.2.head.expression := (List.cons.inj hlinks).1
      rw [hfind', Option.map_some, Option.map_some, hhead]

theorem Samples.of_isOk {s : Session Float} {action : Action Float}
    (h : (s.act action).1.result.isOk = true) : s.Samples action := by
  intro _ cause herror
  rw [herror] at h
  cases h

/-- A misplaced weight is found when its whole chain has been drawn. Two runs with other
precisions, ranges and questions, from compilers with one seed, have the same break points. -/
theorem draws_follow_texts_misplaced :
    (∀ g, (Expression.parse "random 2 & squarerandom 3.5 > weight 2 > random" g :
        Outcome Float (Expression Float) × Generator).2 = Generator.step^[15] g) ∧
      ∃ (own own' : Compiler) (actions others : List (Action Float)),
        Compiler.make ⟨.high, .silent, some 7⟩ = .ok own ∧
        Compiler.make ⟨.low, .warn, some 7⟩ = .ok own' ∧ actions.length ≠ others.length ∧
        breakPoints ((start own' own').after others) ⟨"later", 0⟩ =
          breakPoints ((start own own).after actions) ⟨"later", 0⟩ ∧
        ((breakPoints ((start own own).after actions) ⟨"later", 0⟩).map
          (·.map Array.size)) = some [3] := by
  obtain ⟨htexts, _, _, _, hruns⟩ := draws_follow_texts
  constructor
  · intro g
    have hdrawn : Definition.drawn Float "random 2 & squarerandom 3.5 > weight 2 > random" =
        15 := by
      decide +kernel
    rw [(htexts _ g).1, hdrawn]
  · have hmake : Compiler.make ⟨.high, .silent, some 7⟩ =
        .ok ⟨⟨.high, .silent, some 7⟩, .ofSeed 7⟩ := by
      decide +kernel
    have hmake' : Compiler.make ⟨.low, .warn, some 7⟩ =
        .ok ⟨⟨.low, .warn, some 7⟩, .ofSeed 7⟩ := by
      decide +kernel
    have hsize : ((breakPoints ((start ⟨⟨.high, .silent, some 7⟩, .ofSeed 7⟩
        ⟨⟨.high, .silent, some 7⟩, .ofSeed 7⟩).after
          [.compile .own "ramp" "random 3 > peak 0.25" (some .low),
            .query ⟨"ramp", 0⟩ (.map 0.5 none),
            .change ⟨"ramp", 0⟩ (.setRange ⟨0, 10, 5, -5⟩ none),
            .change ⟨"ramp", 0⟩ (.setTarget "squarerandom 2" none),
            .compile .own "later" "random 1.5" none]) ⟨"later", 0⟩).map
              (·.map Array.size)) = some [3] := by
      decide +kernel
    refine ⟨_, ⟨⟨.low, .warn, some 7⟩, .ofSeed 7⟩, _,
      [.compile .own "ramp" "random 3 > peak 0.25" (some .highest),
        .change ⟨"ramp", 0⟩ (.setTarget "squarerandom 2" (some .highest)),
        .compile .own "later" "random 1.5" none],
      hmake, hmake', by decide, ?_, hsize⟩
    apply Alike.breakPoints_eq
    refine hruns ⟨.high, .silent, some 7⟩ ⟨.low, .warn, some 7⟩ _ _ _ _ _ _ _ _ hmake hmake' rfl
      nofun rfl
      (.both .compile (.left rfl (.left rfl (.both .setTarget (.both .compile .nil))))) ?_ ?_
    · exact ⟨.of_isOk (by decide +kernel), nofun, nofun, .of_isOk (by decide +kernel),
        .of_isOk (by decide +kernel), trivial⟩
    · exact ⟨.of_isOk (by decide +kernel), .of_isOk (by decide +kernel),
        .of_isOk (by decide +kernel), trivial⟩

/-- The build of a curve that has no value at any place, with a random target. -/
def boundless (precision : Precision) : Action Float :=
  .build "boundless"
    ⟨"constant inf > sin", some precision, ⟨0, 1, 0, 1⟩, .both, some "random 3", none⟩

/-- A curve that cannot be sampled is not built at a low precision, so that the text of its
target is not read. At the highest precision it is built, and a later text has other break
points, from the same seed. -/
theorem precision_moves_break_points :
    Compiler.make ⟨.high, .silent, some 7⟩ = .ok ⟨⟨.high, .silent, some 7⟩, .ofSeed 7⟩ ∧
      Action.Interleaved Action.UpToPrecision
        [boundless .low, .compile .own "later" "random 3" none]
        [boundless .highest, .compile .own "later" "random 3" none] ∧
      breakPoints ((start ⟨⟨.high, .silent, some 7⟩, .ofSeed 7⟩ ⟨.standard, .ofSeed 0⟩).after
          [boundless .low, .compile .own "later" "random 3" none]) ⟨"later", 0⟩ ≠
        breakPoints ((start ⟨⟨.high, .silent, some 7⟩, .ofSeed 7⟩ ⟨.standard, .ofSeed 0⟩).after
          [boundless .highest, .compile .own "later" "random 3" none]) ⟨"later", 0⟩ := by
  refine ⟨by decide +kernel, .both .build (.both .compile .nil), ?_⟩
  decide +kernel

end Session

end Easing
