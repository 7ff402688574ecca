import Easing.Proofs.Session.Run

/-! # Links in every state of a session

A link comes out of a compiler with the unit interval for all its ranges, and
afterwards only accepted bounds reach it: those of a change of range, or those
of the mapping whose target it becomes. `Link.Invariant` lists what has to be
shown of a property of links, and `Reachable.link` carries it to every link of
every mapping, at any depth, after any actions.
-/

namespace Easing

variable {α : Type} [Scalar α]

/-- Numbers whose zero and one are accepted as bounds. -/
class Scalar.HasUnit (α : Type) [Scalar α] : Prop where
  /-- Zero and one are finite and differ. -/
  checkBounds_zero_one : Range.checkBounds (0 : α) 1 = .ok ()

theorem Domain.check_eq_ok_iff {d : Domain α} :
    d.check = .ok () ↔ Range.checkBounds d.inputStart d.inputStop = .ok () ∧
      Range.checkBounds d.outputStart d.outputStop = .ok () := by
  unfold Domain.check
  cases hinput : Range.checkBounds d.inputStart d.inputStop with
  | error f =>
      constructor
      · intro h
        cases h
      · rintro ⟨h, _⟩
        cases h
  | ok _ => exact ⟨fun h => ⟨rfl, h⟩, fun h => h.2⟩

/-- The table that a new link has at a precision. -/
inductive Link.NewTable (expression : Expression α) (precision : Precision)
    (onExceed : ExceedAction) : Option (Table α) → Prop
  | exact (h : precision.isExact = true) : NewTable expression precision onExceed none
  | approximate {table : Table α} (h : precision.isExact = false)
      (hmake : (Table.make expression.eval precision.resolution
        (some (Range.unit .none onExceed))).result = .ok table) :
      NewTable expression precision onExceed (some table)

/-- A new link has the unit interval for all its ranges. -/
theorem Link.result_make_eq_ok_iff {expression : Expression α} {precision : Precision}
    {onExceed : ExceedAction} {link : Link α} :
    (Link.make expression precision onExceed).result = .ok link ↔
      ∃ table, Link.NewTable expression precision onExceed table ∧
        link = ⟨expression, precision, .unit .both onExceed, .unit .none onExceed,
          .unit .none onExceed, table⟩ := by
  cases hexact : precision.isExact with
  | true =>
      have hmake : (Link.make expression precision onExceed).result = .ok
          ⟨expression, precision, .unit .both onExceed, .unit .none onExceed,
            .unit .none onExceed, none⟩ := by
        simp [Link.make, hexact]
      rw [hmake, Except.ok.injEq]
      constructor
      · rintro rfl
        exact ⟨none, .exact hexact, rfl⟩
      · rintro ⟨table, hexact' | ⟨happrox, _⟩, rfl⟩
        · rfl
        · simp [hexact] at happrox
  | false =>
      simp only [Link.make, hexact, Bool.false_eq_true, ↓reduceIte, Outcome.result_bind_eq_ok_iff,
        Outcome.result_map_eq_ok_iff, Outcome.result_pure, Except.ok.injEq]
      constructor
      · rintro ⟨_, ⟨table, hmake, rfl⟩, rfl⟩
        exact ⟨some table, .approximate hexact hmake, rfl⟩
      · rintro ⟨_, happrox | ⟨_, hmake⟩, rfl⟩
        · simp [hexact] at happrox
        · exact ⟨_, ⟨_, hmake, rfl⟩, rfl⟩

theorem Mapping.setRange_of_ok {d : Domain α} (h : d.check = .ok ()) (m : Mapping α)
    (repeats : Option RepeatPolicy) :
    m.setRange d repeats =
      .ok ⟨m.head.withDomain d repeats, m.targets.map (·.withDomain d repeats)⟩ := by
  simp only [setRange, h]
  rfl

theorem Mapping.setRange_of_error {d : Domain α} {f : Fault α} (h : d.check = .error f)
    (m : Mapping α) (repeats : Option RepeatPolicy) : m.setRange d repeats = .error f := by
  simp only [setRange, h]
  rfl

variable [Numeral α]

/-- A link as it comes out of a compiler. -/
def Link.Compiled (link : Link α) : Prop :=
  ∃ (config : Compiler.Config) (text : String) (requested : Option Precision) (g : Generator),
    (config.compile text requested g).1.result = .ok link

/-- A compiled link is the new link of the expression of some definition. -/
theorem Link.Compiled.exists_make {link : Link α} (h : link.Compiled) :
    ∃ (text : String) (g : Generator) (expression : Expression α) (precision : Precision)
      (onExceed : ExceedAction),
      (Expression.parse text g).1.result = .ok expression ∧
        (Link.make expression precision onExceed).result = .ok link := by
  obtain ⟨config, text, requested, g, hcompile⟩ := h
  unfold Compiler.Config.compile at hcompile
  rcases hparse : (Expression.parse text : Build α _) g with ⟨⟨notices, f | expression⟩, g'⟩
  · rw [Build.bind_apply_error hparse] at hcompile
    cases hcompile
  · rw [Build.bind_apply_ok hparse] at hcompile
    simp only [Build.ofOutcome_apply, Compiler.Config.link,
      Outcome.result_bind_eq_ok_iff] at hcompile
    obtain ⟨_, _, hlink⟩ := hcompile
    exact ⟨text, g, expression, _, _, by rw [hparse], hlink⟩

namespace Mapping

/-- What a change that succeeds makes of a mapping. -/
inductive ChangesTo (m : Mapping α) : Change α → Mapping α → Prop
  | setRange {d : Domain α} {repeats : Option RepeatPolicy} (h : d.check = .ok ()) :
      ChangesTo m (.setRange d repeats)
        ⟨m.head.withDomain d repeats, m.targets.map (·.withDomain d repeats)⟩
  | setBlendRange {start stop : α} {blend : Range α}
      (h : m.head.blend.withBounds start stop = .ok blend) :
      ChangesTo m (.setBlendRange start stop) { m with head := { m.head with blend := blend } }
  | setTarget {definition : String} {precision : Option Precision} {target : Link α}
      (h : target.Compiled) :
      ChangesTo m (.setTarget definition precision) (m.withTarget target)

end Mapping

namespace Compiler.Config

/-- Attaching a target succeeds by compiling it. -/
theorem attach_result {config : Config} {m m' : Mapping α} {text : String}
    {requested : Option Precision} {g : Generator}
    (h : (config.attach m text requested g).1.result = .ok m') :
    ∃ target : Link α, target.Compiled ∧ m' = m.withTarget target := by
  unfold attach at h
  rcases hlink : (config.compile text requested : Build α _) g with ⟨⟨notices, f | target⟩, g'⟩
  · rw [Build.bind_apply_error hlink] at h
    cases h
  · rw [Build.bind_apply_ok hlink] at h
    exact ⟨target, ⟨config, _, _, g, by rw [hlink]⟩, (Except.ok.inj h).symm⟩

/-- A mapping made in one go is a compiled link that was given accepted bounds
and perhaps a compiled target. -/
theorem build_result {config : Config} {request : Request α} {g : Generator} {m : Mapping α}
    (h : (config.build request g).1.result = .ok m) :
    ∃ head : Link α, head.Compiled ∧ request.domain.check = .ok () ∧
      (m = ⟨head.withDomain request.domain (some request.inputRepeat), []⟩ ∨
        ∃ target : Link α, target.Compiled ∧
          m = (⟨head.withDomain request.domain (some request.inputRepeat), []⟩ :
            Mapping α).withTarget target) := by
  unfold build at h
  rcases hhead : (config.compile request.definition request.precision : Build α _) g with
    ⟨⟨notices, f | head⟩, g'⟩
  · rw [Build.bind_apply_error hhead] at h
    cases h
  rw [Build.bind_apply_ok hhead] at h
  refine ⟨head, ⟨config, _, _, g, by rw [hhead]⟩, ?_⟩
  cases hcheck : request.domain.check with
  | error f =>
      rw [Mapping.setRange_of_error hcheck, Build.bind_apply_error (by rfl)] at h
      cases h
  | ok =>
      rw [Mapping.setRange_of_ok hcheck, List.map_nil, Build.bind_apply_ok (by rfl)] at h
      refine ⟨rfl, ?_⟩
      cases htarget : request.target with
      | none =>
          simp only [htarget] at h
          exact .inl (Except.ok.inj h).symm
      | some text =>
          simp only [htarget] at h
          exact .inr (attach_result h)

end Compiler.Config

namespace Session

/-- A change that succeeds does what `ChangesTo` says. -/
theorem changed_result {s : Session α} {maker : Maker} {m m' : Mapping α} {change : Change α}
    (h : (s.changed maker m change).1.result = .ok m') : m.ChangesTo change m' := by
  cases change with
  | setRange d repeats =>
      simp only [changed, Outcome.ofResult] at h
      cases hcheck : d.check with
      | error f => simp [Mapping.setRange_of_error hcheck] at h
      | ok =>
          rw [Mapping.setRange_of_ok hcheck, Except.ok.injEq] at h
          subst h
          exact .setRange hcheck
  | setBlendRange start stop =>
      simp only [changed, Outcome.ofResult, Mapping.setBlendRange] at h
      cases hblend : m.head.blend.withBounds start stop with
      | error f =>
          rw [hblend] at h
          cases h
      | ok blend =>
          rw [hblend] at h
          cases h
          exact .setBlendRange hblend
  | setTarget definition precision =>
      rw [changed, run_outcome] at h
      obtain ⟨target, htarget, rfl⟩ := Compiler.Config.attach_result h
      exact .setTarget htarget

end Session

/-- A property that links have when they are compiled, and that accepted bounds
do not take from them. -/
structure Link.Invariant (P : Link α → Prop) : Prop where
  /-- Compiled links have it. -/
  compiled : ∀ {link}, link.Compiled → P link
  /-- Accepted bounds keep it. -/
  withDomain : ∀ {link d} (repeats : Option RepeatPolicy),
    P link → link.domain.check = .ok () → d.check = .ok () → P (link.withDomain d repeats)
  /-- Another blend range keeps it. -/
  withBlend : ∀ {link : Link α} {start stop : α} {blend : Range α},
    P link → link.blend.withBounds start stop = .ok blend → P { link with blend := blend }

/-- A property and the acceptance of the bounds, together. -/
def Link.Sound (P : Link α → Prop) (link : Link α) : Prop := P link ∧ link.domain.check = .ok ()

theorem Link.Invariant.sound_withDomain {P : Link α → Prop} (h : Link.Invariant P) {link : Link α}
    {d : Domain α} (repeats : Option RepeatPolicy) (hlink : link.Sound P)
    (hd : d.check = .ok ()) : (link.withDomain d repeats).Sound P :=
  ⟨h.withDomain repeats hlink.1 hlink.2 hd, hd⟩

section Reachable

variable [Scalar.HasUnit α]

/-- The ranges of a compiled link have accepted bounds. -/
theorem Link.Compiled.check_domain {link : Link α} (h : link.Compiled) :
    link.domain.check = .ok () := by
  obtain ⟨_, _, _, _, _, _, hmake⟩ := h.exists_make
  obtain ⟨_, _, rfl⟩ := Link.result_make_eq_ok_iff.mp hmake
  exact Domain.check_eq_ok_iff.mpr
    ⟨Scalar.HasUnit.checkBounds_zero_one, Scalar.HasUnit.checkBounds_zero_one⟩

variable {P : Link α → Prop}

theorem Link.Invariant.sound_compiled (h : Link.Invariant P) {link : Link α}
    (hlink : link.Compiled) : link.Sound P :=
  ⟨h.compiled hlink, hlink.check_domain⟩

/-- A target that is attached takes over bounds that were accepted before. -/
theorem Link.Invariant.sound_withTarget (h : Link.Invariant P) {m : Mapping α}
    {target link : Link α}
    (hhead : m.head.Sound P) (htarget : target.Compiled)
    (hlink : link ∈ (m.withTarget target).links) : link.Sound P := by
  rcases List.mem_cons.mp hlink with rfl | hlink
  · exact hhead
  · simp only [Mapping.withTarget, List.mem_singleton] at hlink
    subst hlink
    exact h.sound_withDomain _ (h.sound_compiled htarget) hhead.2

/-- A change keeps a property of all links. -/
theorem Mapping.ChangesTo.sound (h : Link.Invariant P) {m m' : Mapping α} {change : Change α}
    (hchange : m.ChangesTo change m') (hm : ∀ link ∈ m.links, link.Sound P) :
    ∀ link ∈ m'.links, link.Sound P := by
  intro link hlink
  cases hchange with
  | setRange hd =>
      rcases List.mem_cons.mp hlink with rfl | hlink
      · exact h.sound_withDomain _ (hm _ m.head_mem_links) hd
      · obtain ⟨target, htarget, rfl⟩ := List.mem_map.mp hlink
        exact h.sound_withDomain _ (hm _ (List.mem_cons_of_mem _ htarget)) hd
  | setBlendRange hblend =>
      rcases List.mem_cons.mp hlink with rfl | hlink
      · have hhead := hm _ m.head_mem_links
        exact ⟨h.withBlend hhead.1 hblend, hhead.2⟩
      · exact hm _ (List.mem_cons_of_mem _ hlink)
  | setTarget htarget => exact h.sound_withTarget (hm _ m.head_mem_links) htarget hlink

/-- An entry that an action puts has the property on all links, if all earlier
entries do. -/
theorem Session.Puts.sound (h : Link.Invariant P) {s : Session α} {action : Action α}
    {entry : Session.Entry α} (hputs : s.Puts action entry)
    (hs : ∀ entry ∈ s.entries, ∀ link ∈ entry.mapping.links, link.Sound P) :
    ∀ link ∈ entry.mapping.links, link.Sound P := by
  intro link hlink
  cases hputs with
  | compile hcompile =>
      rw [Mapping.links, List.mem_singleton] at hlink
      subst hlink
      exact h.sound_compiled ⟨_, _, _, _, hcompile⟩
  | build hbuild =>
      obtain ⟨head, hhead, hd, rfl | ⟨target, htarget, rfl⟩⟩ := Compiler.Config.build_result hbuild
      · rw [Mapping.links, List.mem_singleton] at hlink
        subst hlink
        exact h.sound_withDomain _ (h.sound_compiled hhead) hd
      · exact h.sound_withTarget (h.sound_withDomain _ (h.sound_compiled hhead) hd) htarget hlink
  | change hfind hchanged =>
      have hentry := hs _ (Session.mem_entries_of_find? hfind)
      have hdepth := (Session.find?_eq_some_iff.mp hfind).2
      rcases Mapping.mem_links_replaceAt hdepth hlink with hlink | hlink
      · exact hentry link hlink
      · exact (Session.changed_result hchanged).sound h
          (fun link hlink => hentry link (Session.links_subset_of_find? hfind hlink)) link hlink

/-- A property that links have when compiled and keep when their bounds change
holds of every link in every state, whatever actions led there. -/
theorem Session.Reachable.sound (h : Link.Invariant P) {s : Session α} (hs : s.Reachable) :
    ∀ entry ∈ s.entries, ∀ link ∈ entry.mapping.links, link.Sound P := by
  refine hs.induct (P := fun s => ∀ entry ∈ s.entries, ∀ link ∈ entry.mapping.links, link.Sound P)
    (fun own standard => by simp [Session.start]) fun s action ih => ?_
  rcases s.act_entries action with hentries | ⟨put, hputs, hentries⟩
  · rw [hentries]
    exact ih
  · intro entry hentry
    rw [hentries] at hentry
    rcases Session.mem_put_entries hentry with rfl | hentry
    · exact hputs.sound h ih
    · exact ih entry hentry

/-- The same for the first link of the mapping at a place. -/
theorem Session.Reachable.sound_head (h : Link.Invariant P) {s : Session α} (hs : s.Reachable)
    {place : Place} {entry : Session.Entry α} {m : Mapping α}
    (hfind : s.find? place = some (entry, m)) : m.head.Sound P :=
  hs.sound h entry (Session.mem_entries_of_find? hfind) m.head
    (Session.links_subset_of_find? hfind m.head_mem_links)

end Reachable

end Easing
