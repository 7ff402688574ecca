import Easing.Proofs.Session.Atomicity
import Easing.Proofs.Session.Tables

/-! # Ranges and targets in either order

A target that is attached to a mapping and then moved has its table converted twice,
first into the mapping's old units and then into the new ones. Attached afterwards, it
is converted once. Where numbers are recovered from their places that comes to the same,
so a change of range and a change of target at one place can be made in either order,
and neither notices whether the other one has failed.
-/

namespace Easing

variable {α : Type}

/-- Whether an operation fails, and with which fault, and its notices. -/
def Outcome.verdict {β : Type} (outcome : Outcome α β) : Outcome α Unit :=
  (fun _ => ()) <$> outcome

theorem Outcome.verdict_map {β γ : Type} (f : β → γ) (outcome : Outcome α β) :
    (f <$> outcome).verdict = outcome.verdict := by
  unfold verdict
  rw [Functor.map_map]

variable [Scalar α]

namespace Link

@[simp] theorem domain_withDomain (link : Link α) (d : Domain α) (repeats : Option RepeatPolicy) :
    (link.withDomain d repeats).domain = d := rfl

@[simp] theorem repeats_withDomain (link : Link α) (d : Domain α)
    (repeats : Option RepeatPolicy) :
    (link.withDomain d repeats).input.repeats = repeats.getD link.input.repeats := rfl

/-- Of two changes of bounds only the second one counts, apart from the repeat policy,
which the second one need not give. -/
theorem withDomain_withDomain [Scalar.Exact α] (link : Link α) {between : Domain α}
    (hbetween : between.check = .ok ()) (first : Option RepeatPolicy) (d : Domain α)
    (second : Option RepeatPolicy) :
    (link.withDomain between first).withDomain d second = link.withDomain d (second.or first) := by
  have hbounds := (Domain.check_eq_ok_iff.mp hbetween).2
  have hrepeats : second.getD (first.getD link.input.repeats) =
      (second.or first).getD link.input.repeats := by
    cases second <;> rfl
  have htable : ∀ (middle last : Range α), middle.start = between.outputStart →
      middle.stop = between.outputStop → ∀ table : Table α,
        (table.rescale link.output middle).rescale middle last = table.rescale link.output last := by
    intro middle last hstart hstop table
    rw [← hstart, ← hstop] at hbounds
    simp only [Table.rescale, Array.map_map, Function.comp_def,
      Scalar.Exact.toUnit_fromUnit hbounds]
  unfold withDomain
  simp only [hrepeats, Option.map_map, Function.comp_def, mk.injEq, true_and]
  congr 1
  funext table
  exact htable ⟨between.outputStart, between.outputStop, _, _⟩ _ rfl rfl table

end Link

namespace Mapping

/-- Moving a mapping and giving it a target, in either order. -/
theorem setRange_withTarget [Scalar.Exact α] {m : Mapping α} (h : m.head.domain.check = .ok ())
    (target : Link α) (d : Domain α) (repeats : Option RepeatPolicy) :
    (m.withTarget target).setRange d repeats =
      (m.setRange d repeats).map fun moved => moved.withTarget target := by
  cases hcheck : d.check with
  | error f => rw [setRange_of_error hcheck, setRange_of_error hcheck, Except.map]
  | ok =>
      have hinherited : repeats.or (some m.head.input.repeats) =
          some (repeats.getD m.head.input.repeats) := by
        cases repeats <;> rfl
      rw [setRange_of_ok hcheck, setRange_of_ok hcheck, Except.map]
      simp only [withTarget, List.map_cons, List.map_nil, Link.domain_withDomain,
        Link.repeats_withDomain, Link.withDomain_withDomain target h, hinherited]

omit [Scalar α] in
theorem atDepth?_replaceAt {depth : Nat} {m target : Mapping α} (other : Mapping α)
    (h : m.atDepth? depth = some target) : (replaceAt other depth m).atDepth? depth = some other := by
  have hlength : (m.links.take depth).length = depth :=
    List.length_take_of_le (lt_length_links_of_atDepth? h).le
  rw [atDepth?_eq_some_iff, links_replaceAt other h, List.drop_left' hlength]

omit [Scalar α] in
/-- Of two targets that are put at one place the second one stays. -/
theorem replaceAt_replaceAt {depth : Nat} {m target : Mapping α} (first second : Mapping α)
    (h : m.atDepth? depth = some target) :
    replaceAt second depth (replaceAt first depth m) = replaceAt second depth m := by
  have hlength : (m.links.take depth).length = depth :=
    List.length_take_of_le (lt_length_links_of_atDepth? h).le
  apply ext_links
  rw [links_replaceAt second (atDepth?_replaceAt first h), links_replaceAt first h,
    links_replaceAt second h, List.take_left' hlength]

end Mapping

namespace Session

section Entries

omit [Scalar α]

theorem put_of_present {s : Session α} {entry : Entry α}
    (h : s.entries.any (·.name == entry.name) = true) :
    s.put entry =
      { s with entries := s.entries.map fun e => if e.name == entry.name then entry else e } :=
  if_pos h

theorem put_of_absent {s : Session α} {entry : Entry α}
    (h : ¬ s.entries.any (·.name == entry.name) = true) :
    s.put entry = { s with entries := s.entries ++ [entry] } :=
  if_neg h

/-- Of two entries that are put under one name the second one stays. -/
theorem put_put (s : Session α) {first second : Entry α} (hname : first.name = second.name) :
    (s.put first).put second = s.put second := by
  have hany : (s.put first).entries.any (·.name == second.name) = true := by
    have hfound : entry? (s.put first) first.name = some first := by
      rw [entry?_put, beq_self_eq_true, if_pos rfl]
    exact List.any_eq_true.mpr
      ⟨first, List.mem_of_find?_eq_some hfound, beq_iff_eq.mpr hname⟩
  rw [put_of_present hany]
  by_cases hpresent : s.entries.any (·.name == second.name) = true
  · have hpresent' : s.entries.any (·.name == first.name) = true := by
      rw [hname]
      exact hpresent
    rw [put_of_present hpresent, put_of_present hpresent']
    simp only [List.map_map, mk.injEq, true_and]
    apply List.map_congr_left
    intro e _
    by_cases he : e.name = second.name <;> simp [he, hname]
  · have habsent : ¬ s.entries.any (·.name == first.name) = true := by
      rw [hname]
      exact hpresent
    have hothers : (s.entries.map fun e => if e.name == second.name then second else e) =
        s.entries := by
      refine (List.map_congr_left fun e he => if_neg ?_).trans (List.map_id _)
      exact fun heq => hpresent (List.any_eq_true.mpr ⟨e, he, heq⟩)
    rw [put_of_absent hpresent, put_of_absent habsent]
    simp only [List.map_append, hothers, List.map_cons, List.map_nil, hname, beq_self_eq_true,
      if_true]

@[simp] theorem withGenerator_put (s : Session α) (entry : Entry α) (maker : Maker)
    (g : Generator) : (s.put entry).withGenerator maker g = (s.withGenerator maker g).put entry := by
  by_cases hany : s.entries.any (·.name == entry.name) = true
  · rw [put_of_present hany, put_of_present (by simpa using hany)]
    cases maker <;> rfl
  · rw [put_of_absent hany, put_of_absent (by simpa using hany)]
    cases maker <;> rfl

@[simp] theorem compiler_put (s : Session α) (entry : Entry α) (maker : Maker) :
    (s.put entry).compiler maker = s.compiler maker := by
  unfold put
  cases maker <;> split <;> rfl

/-- A mapping that is put at a place where there was one is found there. -/
theorem find?_put_replaceAt {s : Session α} {place : Place} {entry : Entry α} {m : Mapping α}
    (hfind : s.find? place = some (entry, m)) (other : Mapping α) :
    (s.put { entry with mapping := Mapping.replaceAt other place.depth entry.mapping }).find? place =
      some ({ entry with mapping := Mapping.replaceAt other place.depth entry.mapping }, other) := by
  obtain ⟨hentry, hm⟩ := find?_eq_some_iff.mp hfind
  refine find?_eq_some_iff.mpr ⟨?_, Mapping.atDepth?_replaceAt other hm⟩
  rw [entry?_put, name_of_found hentry, beq_self_eq_true, if_pos rfl]

/-- Of two mappings that are put at one place the second one stays. -/
theorem put_replaceAt_replaceAt (s : Session α) {entry : Entry α} {depth : Nat} {m : Mapping α}
    (h : entry.mapping.atDepth? depth = some m) (first second : Mapping α) :
    (s.put { entry with mapping := Mapping.replaceAt first depth entry.mapping }).put
        { entry with
          mapping := Mapping.replaceAt second depth
            (Mapping.replaceAt first depth entry.mapping) } =
      s.put { entry with mapping := Mapping.replaceAt second depth entry.mapping } := by
  rw [Mapping.replaceAt_replaceAt first second h]
  exact put_put s rfl

end Entries

variable [Numeral α] {s : Session α} {place : Place} {entry : Entry α} {m : Mapping α}

theorem act_setRange_of_ok (hfind : s.find? place = some (entry, m)) {d : Domain α}
    {repeats : Option RepeatPolicy} {moved : Mapping α} (hmoved : m.setRange d repeats = .ok moved) :
    s.act (.change place (.setRange d repeats)) =
      (⟨[], .ok (.mapping moved)⟩,
        s.put { entry with mapping := Mapping.replaceAt moved place.depth entry.mapping }) := by
  rw [act_change_of_some hfind]
  simp only [changed, hmoved, Outcome.ofResult, keep]

theorem act_setRange_of_error (hfind : s.find? place = some (entry, m)) {d : Domain α}
    {repeats : Option RepeatPolicy} {f : Fault α} (hrefused : m.setRange d repeats = .error f) :
    s.act (.change place (.setRange d repeats)) = (⟨[], .error f⟩, s) := by
  rw [act_change_of_some hfind]
  simp only [changed, hrefused, Outcome.ofResult, keep]

theorem changed_setTarget (s : Session α) (maker : Maker) (m : Mapping α) (definition : String)
    (precision : Option Precision) {compiled : Outcome α (Link α)} {g : Generator}
    (hcompile : (s.compiler maker).config.compile definition precision
      (s.compiler maker).generator = (compiled, g)) :
    s.changed maker m (.setTarget definition precision) =
      (m.withTarget <$> compiled, s.withGenerator maker g) := by
  rw [changed_eq_run, run_eq, Change.operation, Compiler.Config.attach, bind_pure_comp,
    Build.map_apply, hcompile]

theorem act_setTarget_of_ok (hfind : s.find? place = some (entry, m)) {definition : String}
    {precision : Option Precision} {notices : List (Notice α)} {target : Link α} {g : Generator}
    (hcompile : (s.compiler entry.maker).config.compile definition precision
      (s.compiler entry.maker).generator = (⟨notices, .ok target⟩, g)) :
    s.act (.change place (.setTarget definition precision)) =
      (⟨notices, .ok (.mapping (m.withTarget target))⟩,
        (s.withGenerator entry.maker g).put { entry with
          mapping := Mapping.replaceAt (m.withTarget target) place.depth entry.mapping }) := by
  rw [act_change_of_some hfind, changed_setTarget s _ m _ _ hcompile, Outcome.map_mk_ok]
  rfl

theorem act_setTarget_of_error (hfind : s.find? place = some (entry, m)) {definition : String}
    {precision : Option Precision} {notices : List (Notice α)} {f : Fault α} {g : Generator}
    (hcompile : (s.compiler entry.maker).config.compile definition precision
      (s.compiler entry.maker).generator = (⟨notices, .error f⟩, g)) :
    s.act (.change place (.setTarget definition precision)) =
      (⟨notices, .error f⟩, s.withGenerator entry.maker g) := by
  rw [act_change_of_some hfind, changed_setTarget s _ m _ _ hcompile, Outcome.map_mk_error]
  rfl

/-- Two actions that may change places: they lead to the same session, and each of them
succeeds, gives notice or fails as it does without the other one before it. -/
structure Commute (s : Session α) (first second : Action α) : Prop where
  session : ((s.act first).2.act second).2 = ((s.act second).2.act first).2
  firstVerdict : ((s.act second).2.act first).1.verdict = (s.act first).1.verdict
  secondVerdict : ((s.act first).2.act second).1.verdict = (s.act second).1.verdict

/-- Changes of range and target at a place whose bounds were accepted. -/
theorem commute_setRange_setTarget [Scalar.Exact α] (hfind : s.find? place = some (entry, m))
    (hdomain : m.head.domain.check = .ok ()) (d : Domain α) (repeats : Option RepeatPolicy)
    (definition : String) (precision : Option Precision) :
    s.Commute (.change place (.setRange d repeats))
      (.change place (.setTarget definition precision)) := by
  rcases hcompile : ((s.compiler entry.maker).config.compile definition precision :
    Build α _) (s.compiler entry.maker).generator with ⟨⟨notices, f | target⟩, g⟩
  · have haim := act_setTarget_of_error hfind hcompile
    have hfind' : (s.withGenerator entry.maker g).find? place = some (entry, m) := by
      rw [find?_congr (withGenerator_entries s entry.maker g), hfind]
    cases hmoved : m.setRange d repeats with
    | error f' =>
        have hmove := act_setRange_of_error hfind hmoved
        have hmove' := act_setRange_of_error hfind' hmoved
        constructor <;> simp only [hmove, haim, hmove']
    | ok moved =>
        have hmove := act_setRange_of_ok hfind hmoved
        have hmove' := act_setRange_of_ok hfind' hmoved
        have haim' := act_setTarget_of_error (find?_put_replaceAt hfind moved)
          (by rw [compiler_put]; exact hcompile)
        constructor <;> simp only [hmove, haim, hmove', haim', withGenerator_put]
  · have haim := act_setTarget_of_ok hfind hcompile
    have hfind' : (s.withGenerator entry.maker g).find? place = some (entry, m) := by
      rw [find?_congr (withGenerator_entries s entry.maker g), hfind]
    have hboth := Mapping.setRange_withTarget hdomain target d repeats
    cases hmoved : m.setRange d repeats with
    | error f' =>
        rw [hmoved] at hboth
        have hmove := act_setRange_of_error hfind hmoved
        have hmove' := act_setRange_of_error (find?_put_replaceAt hfind' (m.withTarget target)) hboth
        constructor <;> simp only [hmove, haim, hmove']
    | ok moved =>
        rw [hmoved] at hboth
        have hmove := act_setRange_of_ok hfind hmoved
        have hmove' := act_setRange_of_ok (find?_put_replaceAt hfind' (m.withTarget target)) hboth
        have haim' := act_setTarget_of_ok (find?_put_replaceAt hfind moved)
          (by rw [compiler_put]; exact hcompile)
        have hplace := (find?_eq_some_iff.mp hfind).2
        constructor
        · simp only [hmove, haim, hmove', haim', withGenerator_put]
          rw [put_replaceAt_replaceAt _ hplace, put_replaceAt_replaceAt _ hplace]
        · simp only [hmove, haim, hmove']
          rfl
        · simp only [hmove, haim, haim']
          rfl

/-- In exact arithmetic a change of range and a change of target at one place can be
made in either order, at any depth of any mapping that any actions have led to and with
the generators anywhere: the ranges, repeat policies and tables at every depth, the
targets with their break points and the generators are the same afterwards, and neither
action succeeds or fails otherwise for being the second one. -/
theorem range_and_target_commute [Elementary ℚ] [Numeral ℚ] {s t : Session ℚ}
    (hs : s.Reachable) (ht : t.entries = s.entries) (place : Place) (d : Domain ℚ)
    (repeats : Option RepeatPolicy) (definition : String) (precision : Option Precision) :
    t.Commute (.change place (.setRange d repeats))
      (.change place (.setTarget definition precision)) := by
  cases hfind : t.find? place with
  | none =>
      have hnone : ∀ change : Change ℚ, t.act (.change place change) =
          (.fault (.noSuchMapping place.name place.depth), t) := by
        intro change
        simp only [act, hfind]
      constructor <;> simp only [hnone]
  | some found =>
      obtain ⟨entry, m⟩ := found
      rw [find?_congr ht] at hfind
      have hdomain := (hs.sound_head Link.holds_invariant hfind).2
      rw [← find?_congr ht] at hfind
      exact commute_setRange_setTarget hfind hdomain d repeats definition precision

set_option synthInstance.maxSize 512 in
/-- A target with a random break point replaces one that was attached between other
ranges; then a text with a fault behind its break points, and bounds that are equal. -/
theorem range_and_target_commute_random :
    let _ := linear
    let _ := fractions
    ∃ s : Session ℚ, s.Reachable ∧
      let move : Action ℚ := .change ⟨"ramp", 0⟩ (.setRange ⟨4, 2, 1, 9⟩ none)
      let aim : Action ℚ := .change ⟨"ramp", 0⟩ (.setTarget "random 1" (some .low))
      let moveNowhere : Action ℚ := .change ⟨"ramp", 0⟩ (.setRange ⟨1, 1, 0, 1⟩ none)
      let aimNowhere : Action ℚ := .change ⟨"ramp", 0⟩ (.setTarget "random 1 > sine" none)
      (s.Commute move aim ∧
        (((s.act aim).2.act move).2.find? ⟨"ramp", 1⟩).map (fun found =>
          (found.2.head.strategy, found.2.head.input, found.2.head.output)) =
            some ("approximate", ⟨4, 2, .belowMin, .silent⟩, ⟨1, 9, .none, .silent⟩)) ∧
      s.Commute moveNowhere aimNowhere ∧
        ((s.act aimNowhere).2.act moveNowhere).1.verdict.result = .error (.boundsEqual 1 1) ∧
        ((s.act moveNowhere).2.act aimNowhere).1.verdict.result =
          .error (.unknownTransform "sine") := by
  let _ := linear
  let _ := fractions
  let s : Session ℚ := (start ⟨.standard, .ofSeed 0⟩ ⟨.standard, .ofSeed 0⟩).after
    [.compile .own "ramp" "x" (some .low),
      .change ⟨"ramp", 0⟩ (.setRange ⟨0, 10, 5, -5⟩ (some .belowMin)),
      .change ⟨"ramp", 0⟩ (.setTarget "invert" (some .low))]
  have hs : s.Reachable := ⟨_, _, _, rfl⟩
  have hcommute := range_and_target_commute hs rfl ⟨"ramp", 0⟩
  refine ⟨s, hs, ⟨hcommute _ _ _ _, ?_⟩, hcommute _ _ _ _, ?_, ?_⟩ <;> decide +kernel

end Session

end Easing
