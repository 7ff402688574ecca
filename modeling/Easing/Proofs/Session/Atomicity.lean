import Easing.Proofs.Definition.Draws
import Easing.Proofs.Mapping.Steps
import Easing.Proofs.Session.Containment
import Easing.Proofs.Session.Follow

/-! # Faults and what they leave behind

Actions change mappings in place, one link after another, and a fault takes nothing
back. Carried out that way, an action comes to the same as if it were a change of
the whole session at once: after a fault every mapping and every target is what it
was, and all that may be different is how far the generator has gone on which the
action reads its text.
-/

namespace Easing

variable {α : Type}

/-- The mapping with other links. There is always a first one. -/
def Mapping.withLinks (m : Mapping α) : List (Link α) → Mapping α
  | [] => m
  | head :: targets => ⟨head, targets⟩

@[simp] theorem Mapping.withLinks_links (m other : Mapping α) : m.withLinks other.links = other :=
  rfl

/-- Putting the target that is at a place there again. -/
theorem Mapping.replaceAt_atDepth? {depth : Nat} {m target : Mapping α}
    (h : m.atDepth? depth = some target) : replaceAt target depth m = m := by
  apply ext_links
  rw [links_replaceAt target h, links_atDepth? h, List.take_append_drop]

namespace Session

/-- The session with another generator for one of the compilers. -/
def withGenerator (s : Session α) : Maker → Generator → Session α
  | .own, g => { s with own := { s.own with generator := g } }
  | .standard, g => { s with standard := { s.standard with generator := g } }

@[simp] theorem withGenerator_entries (s : Session α) (maker : Maker) (g : Generator) :
    (s.withGenerator maker g).entries = s.entries := by
  cases maker <;> rfl

theorem run_eq {β : Type} (s : Session α) (maker : Maker) (operation : Build α β) :
    s.run maker operation =
      ((operation (s.compiler maker).generator).1,
        s.withGenerator maker (operation (s.compiler maker).generator).2) := by
  cases maker <;> rfl

/-! ## Names -/

/-- No two entries have the same name. -/
def NamesDiffer (s : Session α) : Prop := (s.entries.map Entry.name).Nodup

theorem NamesDiffer.put {s : Session α} (h : s.NamesDiffer) (entry : Entry α) :
    (s.put entry).NamesDiffer := by
  unfold Session.put
  split
  next =>
    have hnames : (s.entries.map fun e => if e.name == entry.name then entry else e).map
        Entry.name = s.entries.map Entry.name := by
      rw [List.map_map, List.map_inj_left]
      intro e _
      by_cases he : e.name = entry.name <;> simp [he]
    simp only [NamesDiffer, hnames]
    exact h
  next hnone =>
    simp only [NamesDiffer, List.map_append, List.map_cons, List.map_nil]
    refine List.nodup_append.mpr ⟨h, List.nodup_singleton _, ?_⟩
    rintro name hname _ hentry rfl
    rw [List.mem_singleton] at hentry
    subst hentry
    obtain ⟨e, he, heq⟩ := List.mem_map.mp hname
    exact hnone (List.any_eq_true.mpr ⟨e, he, beq_iff_eq.mpr heq⟩)

/-- Putting an entry that is already there. -/
theorem NamesDiffer.put_entry? {s : Session α} (h : s.NamesDiffer) {name : String}
    {entry : Entry α} (hentry : s.entry? name = some entry) : s.put entry = s := by
  have hmem : entry ∈ s.entries := List.mem_of_find?_eq_some hentry
  have hany : s.entries.any (·.name == entry.name) = true :=
    List.any_eq_true.mpr ⟨entry, hmem, beq_self_eq_true _⟩
  have hsame : (s.entries.map fun e => if e.name == entry.name then entry else e) = s.entries := by
    refine (List.map_congr_left fun e he => ?_).trans (List.map_id _)
    by_cases hname : e.name = entry.name
    · have heq : e = entry := List.inj_on_of_nodup_map h he hmem hname
      simp [heq]
    · simp [hname]
  simp only [Session.put, hany, if_true, hsame]

theorem NamesDiffer.of_entries_eq {s t : Session α} (h : s.NamesDiffer)
    (heq : t.entries = s.entries) : t.NamesDiffer := by
  rw [NamesDiffer, heq]
  exact h

variable [Scalar α] [Numeral α]

theorem Reachable.namesDiffer {s : Session α} (hs : s.Reachable) : s.NamesDiffer := by
  refine hs.induct (fun own standard => List.nodup_nil) fun s action h => ?_
  rcases s.act_entries action with hentries | ⟨entry, _, hentries⟩
  · exact h.of_entries_eq hentries
  · exact (h.put entry).of_entries_eq hentries

/-! ## Changes that are carried out in place -/

end Session

open Mapping (Steps)

section Change

variable [Scalar α] [Numeral α]

/-- What a change makes of a mapping, all at once. -/
def Change.operation (config : Compiler.Config) (m : Mapping α) :
    Change α → Build α (Mapping α)
  | .setRange domain repeats => .ofOutcome (.ofResult (m.setRange domain repeats))
  | .setBlendRange start stop => .ofOutcome (.ofResult (m.setBlendRange start stop))
  | .setTarget definition precision => config.attach m definition precision

/-- What a change does to so many links, step by step. -/
def Change.steps (config : Compiler.Config) (count : Nat) : Change α → Steps α Unit
  | .setRange domain repeats => Steps.setRange domain repeats count
  | .setBlendRange start stop => Steps.setBlendRange start stop
  | .setTarget definition precision => Steps.setTarget config definition precision

theorem Change.allOrNothing {m : Mapping α} (h : m.head.domain.check = .ok ())
    (config : Compiler.Config) (change : Change α) :
    Steps.AllOrNothing (change.steps config m.links.length) m (change.operation config m) := by
  cases change with
  | setRange d repeats => exact Steps.allOrNothing_setRange m d repeats
  | setBlendRange start stop => exact Steps.allOrNothing_setBlendRange m start stop
  | setTarget definition precision =>
      exact Steps.allOrNothing_setTarget h config definition precision

theorem Change.advances_operation (config : Compiler.Config) (m : Mapping α) (change : Change α) :
    Build.Advances (change.operation config m) := by
  cases change with
  | setTarget definition precision => exact config.advances_attach m definition precision
  | _ => exact .ofOutcome _

end Change

namespace Session

variable [Scalar α] [Numeral α]

theorem changed_eq_run (s : Session α) (maker : Maker) (m : Mapping α) (change : Change α) :
    s.changed maker m change = s.run maker (change.operation (s.compiler maker).config m) := by
  cases change <;> cases maker <;> rfl

/-- Does what an action says, changes being made to the links themselves, one after
another. What was done before a fault stays done. -/
def carryOut (s : Session α) : Action α → Outcome α (Answer α) × Session α
  | .change place change =>
    match s.find? place with
    | none => (.fault (.noSuchMapping place.name place.depth), s)
    | some (entry, m) =>
      let compiler := s.compiler entry.maker
      let (result, work) :=
        (change.steps compiler.config m.links.length).outcome ⟨m.links, compiler.generator, []⟩
      let m := m.withLinks work.links
      (⟨work.notices, result.map fun _ => .mapping m⟩,
        (s.withGenerator entry.maker work.generator).put
          { entry with mapping := Mapping.replaceAt m place.depth entry.mapping })
  | action => s.act action

theorem carryOut_eq_act [Scalar.HasUnit α] {s : Session α} (hs : s.Reachable) (action : Action α) :
    s.carryOut action = s.act action := by
  cases action with
  | change place change =>
      cases hfind : s.find? place with
      | none => simp only [carryOut, act, hfind]
      | some found =>
          obtain ⟨entry, m⟩ := found
          have hsound := hs.sound_head Link.holds_invariant hfind
          have hsteps := change.allOrNothing hsound.2 (s.compiler entry.maker).config
            (s.compiler entry.maker).generator []
          rw [act_change_of_some hfind, changed_eq_run, run_eq]
          simp only [carryOut, hfind, hsteps]
          rcases hrun : change.operation (s.compiler entry.maker).config m
            (s.compiler entry.maker).generator with ⟨⟨given, f | changed⟩, g⟩
          · -- The entry that is put is the one that was there.
            obtain ⟨hentry, hm⟩ := find?_eq_some_iff.mp hfind
            have hnames := hs.namesDiffer.of_entries_eq (withGenerator_entries s entry.maker g)
            have hkept := (entry?_congr (withGenerator_entries s entry.maker g) _).trans hentry
            have hput := hnames.put_entry? hkept
            simp only [Mapping.withLinks_links, Mapping.replaceAt_atDepth? hm, hput]
            rfl
          · simp only [Mapping.withLinks_links]
            rfl
  | _ => rfl

/-! ## What a fault leaves behind -/

/-- The compiler on whose generator an action reads a text, if it reads one. -/
def reader (s : Session α) : Action α → Option Maker
  | .compile maker _ _ _ => some maker
  | .build _ _ | .parse _ => some .own
  | .change place (.setTarget _ _) => (s.find? place).map (·.1.maker)
  | .change _ _ | .query _ _ => none

/-- The session after so many more steps of a generator, if there is one. -/
def advance (s : Session α) (maker : Option Maker) (count : Nat) : Session α :=
  match maker with
  | none => s
  | some maker => s.withGenerator maker (Generator.step^[count] (s.compiler maker).generator)

omit [Scalar α] [Numeral α] in
theorem exists_run_eq_advance {β : Type} (s : Session α) (maker : Maker) {operation : Build α β}
    (h : Build.Advances operation) :
    ∃ count, (s.run maker operation).2 = s.advance (some maker) count := by
  obtain ⟨count, hcount⟩ := h (s.compiler maker).generator
  exact ⟨count, by rw [run_eq, hcount]; rfl⟩

/-- An action that fails has at most taken a generator further. -/
theorem exists_act_eq_advance {s : Session α} {action : Action α} {f : Fault α}
    (h : (s.act action).1.result = .error f) :
    ∃ count, (s.act action).2 = s.advance (s.reader action) count := by
  cases action with
  | compile maker name definition precision =>
      rw [act_compile] at h ⊢
      rw [keep_of_result_error h]
      exact s.exists_run_eq_advance maker (Compiler.Config.advances_compile _ _ _)
  | build name request =>
      rw [act_build] at h ⊢
      rw [keep_of_result_error h]
      exact s.exists_run_eq_advance .own (Compiler.Config.advances_build _ _)
  | parse definition =>
      rw [act_parse]
      exact s.exists_run_eq_advance .own (Expression.advances_parse _)
  | query place query => exact ⟨0, act_query s place query⟩
  | change place change =>
      cases hfind : s.find? place with
      | none =>
          refine ⟨0, (act_change_of_none hfind change).trans ?_⟩
          cases change <;> simp [reader, advance, hfind]
      | some found =>
          obtain ⟨entry, m⟩ := found
          rw [act_change_of_some hfind] at h ⊢
          rw [keep_of_result_error h]
          cases change with
          | setTarget definition precision =>
              rw [changed_eq_run, reader, hfind, Option.map_some]
              exact s.exists_run_eq_advance entry.maker (Change.advances_operation _ m _)
          | setRange | setBlendRange =>
              refine ⟨0, ?_⟩
              simp only [changed, reader, advance]

/-- A change of range is refused for its bounds or made at every depth. -/
theorem act_setRange_result {s : Session α} {place : Place} {entry : Entry α} {m : Mapping α}
    (hfind : s.find? place = some (entry, m)) (d : Domain α) (repeats : Option RepeatPolicy) :
    (s.act (.change place (.setRange d repeats))).1.result =
      (m.setRange d repeats).map .mapping := by
  rw [act_change_of_some hfind]
  simp only [changed, Outcome.ofResult]
  cases m.setRange d repeats <;> rfl

theorem act_setRange_eq_error_iff {s : Session α} {place : Place} {entry : Entry α}
    {m : Mapping α} (hfind : s.find? place = some (entry, m)) (d : Domain α)
    (repeats : Option RepeatPolicy) (f : Fault α) :
    (s.act (.change place (.setRange d repeats))).1.result = .error f ↔ d.Refused f := by
  rw [act_setRange_result hfind, ← Domain.check_eq_error_iff]
  cases hcheck : d.check with
  | ok => simp [Mapping.setRange_of_ok hcheck, Except.map]
  | error f' => simp [Mapping.setRange_of_error hcheck, Except.map]

/-- Carried out in place, every action comes to the same as all at once, and if it
fails, no mapping and no target of one has changed; a generator may have gone on if a
text was read. A change of range fails exactly if a bound is not finite or two bounds
are equal, with the fault of the input range before that of the output range. -/
theorem faults_leave_mappings {s : Session Float} (hs : s.Reachable) (action : Action Float) :
    s.carryOut action = s.act action ∧
      (∀ f, (s.carryOut action).1.result = .error f →
        (s.carryOut action).2.entries = s.entries ∧
          ∃ count, (s.carryOut action).2 = s.advance (s.reader action) count) ∧
      ∀ place entry m d repeats, s.find? place = some (entry, m) →
        action = .change place (.setRange d repeats) →
        (∀ f, (s.carryOut action).1.result = .error f ↔ d.Refused f) ∧
          ((∃ f, (s.carryOut action).1.result = .error f) ↔
            (Scalar.isFinite d.inputStart = false ∨ Scalar.isFinite d.inputStop = false ∨
                (d.inputStart == d.inputStop) = true) ∨
              (Scalar.isFinite d.outputStart = false ∨ Scalar.isFinite d.outputStop = false ∨
                (d.outputStart == d.outputStop) = true)) := by
  rw [carryOut_eq_act hs]
  refine ⟨rfl, ?_, ?_⟩
  · intro f h
    exact ⟨act_entries_of_error h, exists_act_eq_advance h⟩
  · rintro place entry m d repeats hfind rfl
    have hrefused := act_setRange_eq_error_iff hfind d repeats
    refine ⟨hrefused, ?_⟩
    rw [exists_congr hrefused, Domain.exists_refused_iff, Range.exists_refuses_iff,
      Range.exists_refuses_iff]

/-- A target whose text has a fault behind its random break points leaves the target
that was there, and the input range is found at fault before the output range. -/
theorem faults_leave_mappings_chain :
    ∃ (s t : Session Float) (notices : List (Notice Float)), s.Reachable ∧
      s.carryOut (.change ⟨"ramp", 1⟩ (.setTarget "random 3 > weight 2 > x" none)) =
        (⟨notices, .error (.weightNotLast "random 3.0 > weight 2.0 > x")⟩, t) ∧
      t.entries = s.entries ∧ t.own.generator ≠ s.own.generator ∧
      (s.carryOut (.change ⟨"ramp", 0⟩ (.setRange ⟨0, 1 / 0, 2, 2⟩ none))).1.result =
        .error (.boundsNotFinite 0 (1 / 0)) := by
  let s : Session Float := (start ⟨.standard, .ofSeed 0⟩ ⟨.standard, .ofSeed 0⟩).after
    [.compile .own "ramp" "x" none,
      .change ⟨"ramp", 0⟩ (.setTarget "constant 3" (some .low)),
      .change ⟨"ramp", 1⟩ (.setTarget "invert" none)]
  have hs : s.Reachable := ⟨_, _, _, rfl⟩
  let retarget : Action Float := .change ⟨"ramp", 1⟩ (.setTarget "random 3 > weight 2 > x" none)
  have hretarget : (match (s.act retarget).1.result with
      | .error f => some f
      | .ok _ => none) = some (.weightNotLast "random 3.0 > weight 2.0 > x") ∧
        (s.act retarget).2.own.generator ≠ s.own.generator := by
    decide +kernel
  obtain ⟨hact, hleaves, _⟩ := faults_leave_mappings hs retarget
  rw [hact] at hleaves
  have hfound : (s.find? ⟨"ramp", 0⟩).isSome = true := by decide +kernel
  obtain ⟨⟨entry, m⟩, hfind⟩ := Option.isSome_iff_exists.mp hfound
  obtain ⟨hrefused, _⟩ := (faults_leave_mappings hs (.change ⟨"ramp", 0⟩
    (.setRange ⟨0, 1 / 0, 2, 2⟩ none))).2.2 _ _ _ _ _ hfind rfl
  have hinfinite : Scalar.isFinite (1 / 0 : Float) = false := by decide +kernel
  rcases hrun : s.act retarget with ⟨⟨notices, f | answer⟩, t⟩
  · rw [hrun] at hretarget hleaves hact
    obtain rfl := Option.some.inj hretarget.1
    exact ⟨s, t, notices, hs, hact, (hleaves _ rfl).1, hretarget.2,
      (hrefused _).mpr (.input (.notFinite (.inr hinfinite)))⟩
  · rw [hrun] at hretarget
    cases hretarget.1

end Session

end Easing
