import Easing.Proofs.Mapping.Chain
import Easing.Proofs.Sequence
import Easing.Session

/-! # Runs of a session

A session reaches its states by actions, failing ones included. An action leaves
the entries as they were or puts one mapping under a name, and `Puts` says which
mapping that can be. Properties of single links need to be checked only where
links are made and where their ranges change; `Reachable.link` is the induction
over a whole run, at every depth of every mapping.
-/

namespace Easing.Session

section Entries

variable {α β : Type}

@[simp] theorem run_outcome (s : Session α) (maker : Maker) (operation : Build α β) :
    (s.run maker operation).1 = (operation (s.compiler maker).generator).1 := by
  cases maker <;> rfl

@[simp] theorem run_entries (s : Session α) (maker : Maker) (operation : Build α β) :
    (s.run maker operation).2.entries = s.entries := by
  cases maker <;> rfl

/-- What is put depends on the entries of a session alone. -/
theorem put_entries_congr {s t : Session α} (h : s.entries = t.entries) (entry : Entry α) :
    (s.put entry).entries = (t.put entry).entries := by
  unfold put
  rw [h]
  split <;> rfl

/-- A kept outcome is answered with its mapping. -/
theorem keep_outcome (s : Session α) (outcome : Outcome α (Mapping α))
    (entry : Mapping α → Entry α) : (s.keep outcome entry).1 = .mapping <$> outcome := by
  obtain ⟨notices, f | m⟩ := outcome
  · rw [Outcome.map_mk_error]
    rfl
  · rw [Outcome.map_mk_ok]
    rfl

theorem keep_of_ok {s : Session α} {outcome : Outcome α (Mapping α)} {m : Mapping α}
    (h : outcome.result = .ok m) (entry : Mapping α → Entry α) :
    (s.keep outcome entry).2 = s.put (entry m) := by
  obtain ⟨notices, result⟩ := outcome
  subst h
  rfl

theorem keep_of_error {s : Session α} {outcome : Outcome α (Mapping α)} {f : Fault α}
    (h : outcome.result = .error f) (entry : Mapping α → Entry α) :
    (s.keep outcome entry).2 = s ∧ (s.keep outcome entry).1.result = .error f := by
  obtain ⟨notices, result⟩ := outcome
  subst h
  exact ⟨rfl, rfl⟩

/-- A kept outcome leaves the entries alone or puts its mapping. -/
theorem keep_entries (s : Session α) (outcome : Outcome α (Mapping α))
    (entry : Mapping α → Entry α) :
    (s.keep outcome entry).2.entries = s.entries ∨
      ∃ m, outcome.result = .ok m ∧
        (s.keep outcome entry).2.entries = (s.put (entry m)).entries := by
  cases h : outcome.result with
  | error f => exact .inl (congrArg entries (keep_of_error h entry).1)
  | ok m => exact .inr ⟨m, rfl, congrArg entries (keep_of_ok h entry)⟩

/-- After putting an entry, every entry is that one or an earlier one. -/
theorem mem_put_entries {s : Session α} {entry found : Entry α}
    (h : found ∈ (s.put entry).entries) : found = entry ∨ found ∈ s.entries := by
  unfold put at h
  split at h
  next =>
    obtain ⟨earlier, hmem, rfl⟩ := List.mem_map.mp h
    split
    · exact .inl rfl
    · exact .inr hmem
  next =>
    rcases List.mem_append.mp h with hmem | hmem
    · exact .inr hmem
    · exact .inl (List.mem_singleton.mp hmem)

theorem find?_eq_some_iff {s : Session α} {place : Place} {entry : Entry α} {m : Mapping α} :
    s.find? place = some (entry, m) ↔
      s.entry? place.name = some entry ∧ entry.mapping.atDepth? place.depth = some m := by
  simp only [find?, Option.bind_eq_bind, Option.bind_eq_some_iff, Option.pure_def,
    Option.some.injEq, Prod.mk.injEq]
  constructor
  · rintro ⟨_, hentry, _, hm, rfl, rfl⟩
    exact ⟨hentry, hm⟩
  · rintro ⟨hentry, hm⟩
    exact ⟨entry, hentry, m, hm, rfl, rfl⟩

theorem mem_entries_of_find? {s : Session α} {place : Place} {entry : Entry α} {m : Mapping α}
    (h : s.find? place = some (entry, m)) : entry ∈ s.entries :=
  List.mem_of_find?_eq_some (find?_eq_some_iff.mp h).1

theorem links_subset_of_find? {s : Session α} {place : Place} {entry : Entry α} {m : Mapping α}
    (h : s.find? place = some (entry, m)) {link : Link α} (hlink : link ∈ m.links) :
    link ∈ entry.mapping.links :=
  Mapping.mem_links_of_atDepth? (find?_eq_some_iff.mp h).2 hlink

end Entries

variable {α : Type} [Scalar α] [Numeral α]

/-- The session after a number of actions. -/
def after (s : Session α) (actions : List (Action α)) : Session α :=
  actions.foldl (fun s action => (s.act action).2) s

/-- A state that some actions lead to from the start, with any two compilers. -/
def Reachable (s : Session α) : Prop :=
  ∃ (own standard : Compiler) (actions : List (Action α)),
    s = (start own standard : Session α).after actions

/-- What holds at the start and is kept by every action holds in every state. -/
theorem Reachable.induct {P : Session α → Prop} {s : Session α} (hs : s.Reachable)
    (hstart : ∀ own standard, P (start own standard))
    (hact : ∀ s action, P s → P (s.act action).2) : P s := by
  obtain ⟨own, standard, actions, rfl⟩ := hs
  -- The first action leads to another state, so the induction is for all of them.
  have hrun : ∀ s : Session α, P s → P (s.after actions) := by
    induction actions with
    | nil => exact fun _ h => h
    | cons action rest ih => exact fun s h => ih _ (hact s action h)
  exact hrun _ (hstart own standard)

theorem Reachable.act {s : Session α} (hs : s.Reachable) (action : Action α) :
    (s.act action).2.Reachable := by
  obtain ⟨own, standard, actions, rfl⟩ := hs
  refine ⟨own, standard, actions ++ [action], ?_⟩
  simp [after]

/-! ## The mapping that an action puts under a name -/

/-- An action puts an entry: a new mapping, or an old one with one target changed. -/
inductive Puts (s : Session α) : Action α → Entry α → Prop
  | compile {maker : Maker} {name definition : String} {precision : Option Precision}
      {link : Link α}
      (h : ((s.compiler maker).config.compile definition precision
        (s.compiler maker).generator).1.result = .ok link) :
      Puts s (.compile maker name definition precision) ⟨name, maker, ⟨link, []⟩⟩
  | build {name : String} {request : Request α} {m : Mapping α}
      (h : (s.own.config.build request s.own.generator).1.result = .ok m) :
      Puts s (.build name request) ⟨name, .own, m⟩
  | change {place : Place} {change : Change α} {entry : Entry α} {m changed : Mapping α}
      (hfind : s.find? place = some (entry, m))
      (h : (s.changed entry.maker m change).1.result = .ok changed) :
      Puts s (.change place change)
        { entry with mapping := Mapping.replaceAt changed place.depth entry.mapping }

theorem act_compile (s : Session α) (maker : Maker) (name definition : String)
    (precision : Option Precision) :
    s.act (.compile maker name definition precision) =
      (s.run maker ((s.compiler maker).config.compile definition precision)).2.keep
        ((⟨·, []⟩) <$> (s.run maker ((s.compiler maker).config.compile definition precision)).1)
        (⟨name, maker, ·⟩) := by
  simp only [act]

theorem act_build (s : Session α) (name : String) (request : Request α) :
    s.act (.build name request) =
      (s.run .own (s.own.config.build request)).2.keep
        (s.run .own (s.own.config.build request)).1 (⟨name, .own, ·⟩) := by
  simp only [act]

theorem act_parse (s : Session α) (definition : String) :
    (s.act (.parse definition)).2 = (s.run .own (Expression.parse definition : Build α _)).2 := by
  simp only [act]

theorem act_parse_outcome (s : Session α) (definition : String) :
    (s.act (.parse definition)).1 = .definition <$> Expression.definition <$>
      (s.run .own (Expression.parse definition : Build α (Expression α))).1 := by
  simp only [act]

theorem act_query (s : Session α) (place : Place) (query : Query α) :
    (s.act (.query place query)).2 = s := by
  simp only [act]
  split <;> rfl

theorem act_change_of_none {s : Session α} {place : Place} (h : s.find? place = none)
    (change : Change α) : (s.act (.change place change)).2 = s := by
  simp only [act, h]

theorem act_change_of_some {s : Session α} {place : Place} {entry : Entry α} {m : Mapping α}
    (h : s.find? place = some (entry, m)) (change : Change α) :
    s.act (.change place change) =
      (s.changed entry.maker m change).2.keep (s.changed entry.maker m change).1
        fun m => { entry with mapping := Mapping.replaceAt m place.depth entry.mapping } := by
  simp only [act, h]

@[simp] theorem changed_entries (s : Session α) (maker : Maker) (m : Mapping α)
    (change : Change α) : (s.changed maker m change).2.entries = s.entries := by
  cases change with
  | setTarget definition precision => rw [changed, run_entries]
  | _ => rfl

/-- An action leaves the entries alone or puts a mapping that `Puts` describes. -/
theorem act_entries (s : Session α) (action : Action α) :
    (s.act action).2.entries = s.entries ∨
      ∃ entry, s.Puts action entry ∧ (s.act action).2.entries = (s.put entry).entries := by
  cases action with
  | compile maker name definition precision =>
      have hentries := run_entries s maker ((s.compiler maker).config.compile definition precision)
      rw [act_compile]
      rcases keep_entries _ _ _ with hkeep | ⟨m, hm, hkeep⟩
      · exact .inl (hkeep.trans hentries)
      · rw [Outcome.result_map_eq_ok_iff, run_outcome] at hm
        obtain ⟨link, hlink, rfl⟩ := hm
        exact .inr ⟨_, .compile hlink, hkeep.trans (put_entries_congr hentries _)⟩
  | build name request =>
      have hentries := run_entries s .own (s.own.config.build request)
      rw [act_build]
      rcases keep_entries _ _ _ with hkeep | ⟨m, hm, hkeep⟩
      · exact .inl (hkeep.trans hentries)
      · rw [run_outcome, compiler] at hm
        exact .inr ⟨_, .build hm, hkeep.trans (put_entries_congr hentries _)⟩
  | parse definition =>
      rw [act_parse, run_entries]
      exact .inl rfl
  | query place query => exact .inl (congrArg entries (act_query s place query))
  | change place change =>
      cases hfind : s.find? place with
      | none => exact .inl (congrArg entries (act_change_of_none hfind change))
      | some found =>
          obtain ⟨entry, m⟩ := found
          have hentries := changed_entries s entry.maker m change
          rw [act_change_of_some hfind]
          rcases keep_entries _ _ _ with hkeep | ⟨changed, hm, hkeep⟩
          · exact .inl (hkeep.trans hentries)
          · exact .inr ⟨_, .change hfind hm, hkeep.trans (put_entries_congr hentries _)⟩

end Easing.Session
