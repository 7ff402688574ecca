import Easing.Proofs.Session.Follow

/-! # One domain for a mapping and its targets

A target takes over the ranges of the mapping that it is attached to, and a change
of range goes on to all targets. So as long as ranges are changed at the first link
of a mapping only, all its links have the same bounds and the same policies. Where
the ranges of a target were changed by themselves, one change at the first link that
names the repeat policy brings all links together again.
-/

namespace Easing

variable {α : Type}

theorem Except.isOk_iff_exists {ε : Type} {result : Except ε α} :
    result.isOk = true ↔ ∃ x, result = .ok x := by
  cases result <;> simp [Except.isOk, Except.toBool]

/-- Whether an action changes the ranges of all links of a mapping or of none. -/
def Action.keepsTogether : Action α → Bool
  | .change place (.setRange _ _) => place.depth == 0
  | _ => true

/-- A link with given input and output bounds and a given repeat policy for its
input range. Its output range does not wrap around. -/
structure Link.Spans (link : Link α) (d : Domain α) (repeats : RepeatPolicy) : Prop where
  domain : link.domain = d
  inputRepeats : link.input.repeats = repeats
  outputRepeats : link.output.repeats = .none

/-- A mapping all of whose links have the same ranges. -/
def Mapping.Shares (m : Mapping α) : Prop :=
  ∃ d repeats, ∀ link ∈ m.links, link.Spans d repeats

namespace Link.Spans

variable [Scalar α] {link : Link α}

/-- A compiled link has the unit interval for its ranges. -/
theorem compiled [Numeral α] (h : link.Compiled) : link.Spans ⟨0, 1, 0, 1⟩ .both := by
  obtain ⟨_, _, _, _, _, _, hmake⟩ := h.exists_make
  obtain ⟨_, _, rfl⟩ := Link.result_make_eq_ok_iff.mp hmake
  exact ⟨rfl, rfl, rfl⟩

/-- Another domain replaces the bounds, and the repeat policy if it names one. -/
theorem withDomain {d : Domain α} {p : RepeatPolicy} (h : link.Spans d p) (other : Domain α)
    (repeats : Option RepeatPolicy) :
    (link.withDomain other repeats).Spans other (repeats.getD p) := by
  refine ⟨rfl, ?_, h.outputRepeats⟩
  change repeats.getD link.input.repeats = _
  rw [h.inputRepeats]

end Link.Spans

namespace Mapping

variable [Scalar α] [Numeral α]

/-- Changes of the blend range and of the target leave all links with the ranges
that the mapping has. -/
theorem ChangesTo.spans {m changed : Mapping α} {change : Change α}
    (h : m.ChangesTo change changed) (hchange : ∀ d repeats, change ≠ .setRange d repeats)
    {d : Domain α} {p : RepeatPolicy} (hm : ∀ link ∈ m.links, link.Spans d p) :
    ∀ link ∈ changed.links, link.Spans d p := by
  intro link hlink
  have hhead := hm _ m.head_mem_links
  cases h with
  | setRange _ => exact absurd rfl (hchange _ _)
  | setBlendRange _ =>
      rcases List.mem_cons.mp hlink with rfl | hlink
      · exact ⟨hhead.domain, hhead.inputRepeats, hhead.outputRepeats⟩
      · exact hm _ (List.mem_cons_of_mem _ hlink)
  | setTarget htarget =>
      rcases List.mem_cons.mp hlink with rfl | hlink
      · exact hhead
      -- The target is the only link behind the first, and it was given the ranges of that one.
      · simp only [withTarget, List.mem_singleton] at hlink
        subst hlink
        rw [hhead.domain, hhead.inputRepeats]
        exact (Link.Spans.compiled htarget).withDomain d (some p)

omit [Numeral α] in
/-- A change of range reaches every link. -/
theorem Shares.withDomain {m : Mapping α} (h : m.Shares) (d : Domain α)
    (repeats : Option RepeatPolicy) :
    Shares ⟨m.head.withDomain d repeats, m.targets.map (·.withDomain d repeats)⟩ := by
  obtain ⟨_, p, hm⟩ := h
  refine ⟨d, repeats.getD p, ?_⟩
  change ∀ link ∈ m.links.map (·.withDomain d repeats), _
  intro link hlink
  obtain ⟨earlier, hearlier, rfl⟩ := List.mem_map.mp hlink
  exact (hm earlier hearlier).withDomain d repeats

theorem Shares.singleton {link : Link α} (h : link.Compiled) : Shares ⟨link, []⟩ := by
  refine ⟨⟨0, 1, 0, 1⟩, .both, ?_⟩
  intro other hother
  obtain rfl := List.mem_singleton.mp hother
  exact .compiled h

theorem Shares.withTarget {m : Mapping α} (h : m.Shares) {target : Link α}
    (htarget : target.Compiled) : (m.withTarget target).Shares := by
  obtain ⟨d, p, hm⟩ := h
  refine ⟨d, p, ?_⟩
  have hset : ChangesTo m (Change.setTarget "" none) (m.withTarget target) :=
    .setTarget htarget
  apply hset.spans ?_ hm
  intro d repeats hchange
  cases hchange

end Mapping

namespace Session

theorem mem_entries_of_found {s : Session α} {name : String} {entry : Entry α}
    (h : s.entry? name = some entry) : entry ∈ s.entries :=
  List.mem_of_find?_eq_some h

section Runs

variable [Scalar α] [Numeral α]

/-- What an action puts under a name shares its ranges, if all mappings did before. -/
theorem Puts.shares {s : Session α} {action : Action α} {put : Entry α}
    (hputs : s.Puts action put) (htogether : action.keepsTogether = true)
    (hs : ∀ entry ∈ s.entries, entry.mapping.Shares) : put.mapping.Shares := by
  cases hputs with
  | compile hcompile => exact .singleton ⟨_, _, _, _, hcompile⟩
  | build hbuild =>
      obtain ⟨head, hhead, _, rfl | ⟨target, htarget, rfl⟩⟩ := Compiler.Config.build_result hbuild
      · exact (Mapping.Shares.singleton hhead).withDomain _ _
      · exact ((Mapping.Shares.singleton hhead).withDomain _ _).withTarget htarget
  | @change place change entry m changed hfind hchanged =>
      have hentry := hs _ (mem_entries_of_find? hfind)
      obtain ⟨_, hm⟩ := find?_eq_some_iff.mp hfind
      have hchanges := changed_result hchanged
      cases change with
      | setRange d repeats =>
          -- The place is that of the first link, so the whole mapping is changed.
          have hdepth : place.depth = 0 := beq_iff_eq.mp htogether
          rw [hdepth] at hm ⊢
          obtain rfl := Option.some.inj hm
          cases hchanges with
          | setRange _ => exact hentry.withDomain d repeats
      | setBlendRange | setTarget =>
          obtain ⟨d, p, hlinks⟩ := hentry
          refine ⟨d, p, ?_⟩
          intro link hlink
          rcases Mapping.mem_links_replaceAt hm hlink with hlink | hlink
          · exact hlinks link hlink
          · refine hchanges.spans (by simp) (fun link hlink => ?_) link hlink
            exact hlinks link (links_subset_of_find? hfind hlink)

/-- Actions that change the ranges of whole mappings only keep all ranges shared. -/
theorem shares_after {actions : List (Action α)}
    (htogether : ∀ action ∈ actions, action.keepsTogether = true) {s : Session α}
    (hs : ∀ entry ∈ s.entries, entry.mapping.Shares) :
    ∀ entry ∈ (s.after actions).entries, entry.mapping.Shares := by
  induction actions generalizing s with
  | nil => exact hs
  | cons action rest ih =>
      obtain ⟨haction, hrest⟩ := List.forall_mem_cons.mp htogether
      apply ih hrest
      intro entry hentry
      rcases s.act_entries action with hentries | ⟨put, hputs, hentries⟩
      · rw [hentries] at hentry
        exact hs entry hentry
      · rw [hentries] at hentry
        rcases mem_put_entries hentry with rfl | hentry
        · exact hputs.shares haction hs
        · exact hs entry hentry

/-- A change of range at the first link that succeeds gives all links its bounds, and
its repeat policy if it names one, whatever their ranges were. -/
theorem entry?_act_setRange {s : Session α} {name : String} {entry : Entry α}
    (hentry : s.entry? name = some entry) {d : Domain α} {repeats : Option RepeatPolicy}
    {answer : Answer α}
    (hok : (s.act (.change ⟨name, 0⟩ (.setRange d repeats))).1.result = .ok answer) :
    Session.entry? (s.act (.change ⟨name, 0⟩ (.setRange d repeats))).2 name =
      some { entry with mapping :=
        ⟨entry.mapping.head.withDomain d repeats,
          entry.mapping.targets.map (·.withDomain d repeats)⟩ } := by
  have hfind : s.find? ⟨name, 0⟩ = some (entry, entry.mapping) :=
    find?_eq_some_iff.mpr ⟨hentry, rfl⟩
  rw [act_change_of_some hfind, changed] at hok ⊢
  cases hcheck : d.check with
  | error f =>
      rw [Mapping.setRange_of_error hcheck] at hok
      cases hok
  | ok =>
      rw [Mapping.setRange_of_ok hcheck, keep_of_ok (by rfl), entry?_put, name_of_found hentry,
        beq_self_eq_true, if_pos rfl]
      rfl

/-- From the start, actions that change ranges at first links only, failing ones
included, leave all links of a mapping with one input range and one output range. From
any state, a change of range at the first link that names a repeat policy and succeeds
leaves all links with its bounds and its policy. -/
theorem targets_share_domain (own standard : Compiler) (actions : List (Action α))
    (htogether : ∀ action ∈ actions, action.keepsTogether = true) :
    (∀ entry ∈ ((start own standard : Session α).after actions).entries,
      ∀ link ∈ entry.mapping.links, ∀ other ∈ entry.mapping.links,
        other.domain = link.domain ∧ other.input.repeats = link.input.repeats ∧
          other.output.repeats = link.output.repeats) ∧
      ∀ (s : Session α) (name : String) (entry : Entry α) (d : Domain α) (repeats : RepeatPolicy)
        (answer : Answer α), s.entry? name = some entry →
        (s.act (.change ⟨name, 0⟩ (.setRange d (some repeats)))).1.result = .ok answer →
        ∃ entry',
          Session.entry? (s.act (.change ⟨name, 0⟩ (.setRange d (some repeats)))).2 name =
            some entry' ∧
          entry'.mapping.links.map Link.expression = entry.mapping.links.map Link.expression ∧
          ∀ link ∈ entry'.mapping.links, link.domain = d ∧ link.input.repeats = repeats := by
  constructor
  · intro entry hentry link hlink other hother
    obtain ⟨d, p, hlinks⟩ := shares_after htogether (by simp [start]) entry hentry
    have hlink := hlinks link hlink
    have hother := hlinks other hother
    exact ⟨hother.domain.trans hlink.domain.symm,
      hother.inputRepeats.trans hlink.inputRepeats.symm,
      hother.outputRepeats.trans hlink.outputRepeats.symm⟩
  · intro s name entry d repeats answer hentry hok
    refine ⟨_, entry?_act_setRange hentry hok, ?_, ?_⟩
    · change (entry.mapping.links.map (·.withDomain d (some repeats))).map Link.expression = _
      rw [List.map_map]
      rfl
    · change ∀ link ∈ entry.mapping.links.map (·.withDomain d (some repeats)), _
      intro link hlink
      obtain ⟨earlier, _, rfl⟩ := List.mem_map.mp hlink
      exact ⟨rfl, rfl⟩

end Runs

/-- Three links, of which the last two were attached one behind the other, through a
refused and two accepted changes of range. The middle link is then moved on its own and
brought back by a change at the first. -/
theorem targets_share_domain_chain :
    ∃ (s moved : Session Float) (entry entry' : Entry Float), s.Reachable ∧
      s.entry? "ramp" = some entry ∧ entry.mapping.links.length = 3 ∧
      (∀ link ∈ entry.mapping.links, ∀ other ∈ entry.mapping.links,
        other.domain = link.domain ∧ other.input.repeats = link.input.repeats ∧
          other.output.repeats = link.output.repeats) ∧
      (s.act (.change ⟨"ramp", 1⟩ (.setRange ⟨0, 1, 2, 4⟩ (some .none)))).2 = moved ∧
      ( moved.entry? "ramp").map (fun entry => entry.mapping.links.map fun link =>
          (link.input.start, link.input.repeats)) =
        some [(10, .aboveMax), (0, .none), (0, .none)] ∧
      Session.entry?
          (moved.act (.change ⟨"ramp", 0⟩ (.setRange ⟨3, -3, 0, 9⟩ (some .belowMin)))).2 "ramp" =
        some entry' ∧
      ∀ link ∈ entry'.mapping.links,
        link.domain = ⟨3, -3, 0, 9⟩ ∧ link.input.repeats = .belowMin := by
  let actions : List (Action Float) :=
    [.compile .own "ramp" "x" none,
      .change ⟨"ramp", 0⟩ (.setRange ⟨0, 10, 5, -5⟩ (some .aboveMax)),
      .change ⟨"ramp", 0⟩ (.setTarget "constant 3" (some .low)),
      .change ⟨"ramp", 0⟩ (.setRange ⟨0, 10, 5, 5⟩ (some .none)),
      .change ⟨"ramp", 1⟩ (.setTarget "invert" none),
      .change ⟨"ramp", 1⟩ (.setBlendRange 2 1),
      .query ⟨"ramp", 0⟩ (.map 3 (some 1)),
      .change ⟨"ramp", 0⟩ (.setRange ⟨10, 0, 1, 2⟩ none)]
  let s : Session Float := (start ⟨.standard, .ofSeed 0⟩ ⟨.standard, .ofSeed 0⟩).after actions
  have hs : s.Reachable := ⟨_, _, actions, rfl⟩
  obtain ⟨hshared, hrestored⟩ := targets_share_domain ⟨.standard, .ofSeed 0⟩ ⟨.standard, .ofSeed 0⟩
    actions (by simp [actions, Action.keepsTogether])
  have hlength : ( s.entry? "ramp").map (fun entry => entry.mapping.links.length) = some 3 := by
    decide +kernel
  have hapart : ( Session.entry? (s.act (.change ⟨"ramp", 1⟩
      (.setRange ⟨0, 1, 2, 4⟩ (some .none)))).2 "ramp").map (fun entry =>
        entry.mapping.links.map fun link => (link.input.start, link.input.repeats)) =
          some [(10, .aboveMax), (0, .none), (0, .none)] := by
    decide +kernel
  have hok : ((s.act (.change ⟨"ramp", 1⟩ (.setRange ⟨0, 1, 2, 4⟩ (some .none)))).2.act
      (.change ⟨"ramp", 0⟩ (.setRange ⟨3, -3, 0, 9⟩ (some .belowMin)))).1.result.isOk = true := by
    decide +kernel
  generalize hmoved : (s.act (.change ⟨"ramp", 1⟩
    (.setRange ⟨0, 1, 2, 4⟩ (some .none)))).2 = moved at hapart hok
  obtain ⟨entry, hentry, hthree⟩ := Option.map_eq_some_iff.mp hlength
  obtain ⟨other, hother, _⟩ := Option.map_eq_some_iff.mp hapart
  obtain ⟨answer, hresult⟩ := Except.isOk_iff_exists.mp hok
  obtain ⟨entry', hentry', _, hlinks⟩ := hrestored moved "ramp" other _ _ answer hother hresult
  exact ⟨s, moved, entry, entry', hs, hentry, hthree, hshared entry (mem_entries_of_found hentry),
    hmoved, hapart, hentry', hlinks⟩

end Session

end Easing
