import Easing.Proofs.Session.Links

/-! # One mapping through a run

A mapping stays at its place until another one is put there: under its name, or
as the target of a mapping on the way to it. All other actions, and all that
fail, leave the mapping at the place with the curve that it was made with; only
its ranges, its samples and its own targets can be different afterwards.
-/

namespace Easing

variable {α : Type}

/-- Whether an action, if it succeeds, puts another mapping at a place. -/
def Action.replaces (place : Place) : Action α → Bool
  | .compile _ name _ _ => name == place.name
  | .build name _ => name == place.name
  | .change changed (.setTarget _ _) =>
    changed.name == place.name && decide (changed.depth < place.depth)
  | _ => false

/-- Two links with one curve, sampled equally finely or both evaluated. -/
structure Link.SameCurve (link other : Link α) : Prop where
  expression : other.expression = link.expression
  precision : other.precision = link.precision
  strategy : other.strategy = link.strategy

namespace Link.SameCurve

theorem refl (link : Link α) : link.SameCurve link := ⟨rfl, rfl, rfl⟩

theorem trans {first second third : Link α} (h : first.SameCurve second)
    (h' : second.SameCurve third) : first.SameCurve third :=
  ⟨h'.expression.trans h.expression, h'.precision.trans h.precision,
    h'.strategy.trans h.strategy⟩

theorem withDomain [Scalar α] (link : Link α) (d : Domain α) (repeats : Option RepeatPolicy) :
    link.SameCurve (link.withDomain d repeats) := by
  refine ⟨rfl, rfl, ?_⟩
  cases h : link.table <;> simp [Link.withDomain, Link.strategy, h]

end Link.SameCurve

/-- A change keeps the curves of all links that it does not replace: every link
of the mapping, or for a change of target the first. -/
theorem Mapping.ChangesTo.sameCurve [Scalar α] [Numeral α] {m changed : Mapping α}
    {change : Change α} (h : m.ChangesTo change changed) {place : Place} {j : Nat}
    (hkeeps : Action.replaces ⟨place.name, place.depth + j⟩ (.change place change) = false)
    {link : Link α} (hlink : m.links[j]? = some link) :
    ∃ link', changed.links[j]? = some link' ∧ link.SameCurve link' := by
  cases h with
  | @setRange d repeats hd =>
      refine ⟨link.withDomain d repeats, ?_, .withDomain link d repeats⟩
      change (m.links.map (·.withDomain d repeats))[j]? = _
      rw [List.getElem?_map, hlink, Option.map_some]
  | setBlendRange hblend =>
      cases j with
      | zero =>
          rw [links, List.getElem?_cons_zero, Option.some.injEq] at hlink
          subst hlink
          exact ⟨_, rfl, rfl, rfl, rfl⟩
      | succ j => exact ⟨link, hlink, .refl link⟩
  | setTarget htarget =>
      simp only [Action.replaces, beq_self_eq_true, Bool.true_and,
        decide_eq_false_iff_not] at hkeeps
      obtain rfl : j = 0 := by omega
      exact ⟨link, hlink, .refl link⟩

/-- The same for the mapping that the changed one is a target of. -/
theorem Mapping.ChangesTo.sameCurve_replaceAt [Scalar α] [Numeral α] {whole m changed : Mapping α}
    {change : Change α} (h : m.ChangesTo change changed) {place : Place} {depth : Nat}
    (hwhole : whole.atDepth? place.depth = some m)
    (hkeeps : Action.replaces ⟨place.name, depth⟩ (.change place change) = false)
    {link : Link α} (hlink : whole.links[depth]? = some link) :
    ∃ link', (replaceAt changed place.depth whole).links[depth]? = some link' ∧
      link.SameCurve link' := by
  rw [links_replaceAt changed hwhole]
  have hlt := lt_length_links_of_atDepth? hwhole
  rcases Nat.lt_or_ge depth place.depth with hbefore | hafter
  · refine ⟨link, ?_, .refl link⟩
    rw [List.getElem?_append_left (by rw [List.length_take]; omega),
      List.getElem?_take_of_lt hbefore, hlink]
  · obtain ⟨j, rfl⟩ := Nat.exists_eq_add_of_le hafter
    rw [getElem?_links_of_atDepth? hwhole] at hlink
    obtain ⟨link', hlink', hsame⟩ := h.sameCurve hkeeps hlink
    refine ⟨link', ?_, hsame⟩
    rw [List.getElem?_append_right (by rw [List.length_take]; omega), List.length_take,
      Nat.min_eq_left (Nat.le_of_lt hlt), Nat.add_sub_cancel_left, hlink']

namespace Session

theorem entry?_congr {s t : Session α} (h : s.entries = t.entries) (name : String) :
    s.entry? name = t.entry? name := by
  unfold entry?
  rw [h]

/-- An entry that takes the place of the one with its name is found under it. -/
theorem find?_replaced {entries : List (Entry α)} {entry : Entry α}
    (hany : entries.any (·.name == entry.name) = true) (name : String) :
    (entries.map fun e => if e.name == entry.name then entry else e).find? (·.name == name) =
      if entry.name == name then some entry else entries.find? (·.name == name) := by
  have hsame : ((·.name == name) ∘ fun e : Entry α => if e.name == entry.name then entry else e)
      = (·.name == name) := by
    funext e
    by_cases he : e.name = entry.name <;> simp [he]
  simp only [List.find?_map, hsame]
  cases hfind : entries.find? (·.name == name) with
  | none =>
      have hne : ¬ entry.name = name := by
        rintro rfl
        obtain ⟨e, he, heq⟩ := List.any_eq_true.mp hany
        exact List.find?_eq_none.mp hfind e he heq
      simp [hne]
  | some e =>
      have hname := List.find?_some (p := fun e : Entry α => e.name == name) hfind
      rw [beq_iff_eq] at hname
      subst hname
      by_cases h : entry.name = e.name
      · simp [h]
      · simp [h, Ne.symm h]

/-- An entry with a new name is found under it. -/
theorem find?_added {entries : List (Entry α)} {entry : Entry α}
    (hnone : ¬ entries.any (·.name == entry.name) = true) (name : String) :
    (entries ++ [entry]).find? (·.name == name) =
      if entry.name == name then some entry else entries.find? (·.name == name) := by
  rw [List.find?_append, List.find?_singleton]
  by_cases h : entry.name = name
  · subst h
    have habsent : entries.find? (·.name == entry.name) = none := by
      rw [List.find?_eq_none]
      intro e he heq
      exact hnone (List.any_eq_true.mpr ⟨e, he, heq⟩)
    simp [habsent]
  · simp [h]

/-- Putting an entry changes what its name refers to, and nothing else. -/
theorem entry?_put (s : Session α) (entry : Entry α) (name : String) :
    entry? (s.put entry) name = if entry.name == name then some entry else s.entry? name := by
  obtain ⟨own, standard, entries⟩ := s
  unfold put
  split
  next hany => exact find?_replaced hany name
  next hnone => exact find?_added hnone name

theorem find?_congr {s t : Session α} (h : s.entries = t.entries) (place : Place) :
    s.find? place = t.find? place := by
  rw [find?, find?, entry?_congr h]

/-- A place is that of one link, found in the entry of its name. -/
theorem exists_find?_iff {s : Session α} {place : Place} {link : Link α} :
    (∃ entry m, s.find? place = some (entry, m) ∧ m.head = link) ↔
      ∃ entry, s.entry? place.name = some entry ∧
        entry.mapping.links[place.depth]? = some link := by
  constructor
  · rintro ⟨entry, m, hfind, rfl⟩
    obtain ⟨hentry, hm⟩ := find?_eq_some_iff.mp hfind
    refine ⟨entry, hentry, ?_⟩
    exact Mapping.getElem?_links_of_atDepth? hm 0
  · rintro ⟨entry, hentry, hlink⟩
    obtain ⟨m, hm, hhead⟩ := Mapping.atDepth?_of_getElem? hlink
    exact ⟨entry, m, find?_eq_some_iff.mpr ⟨hentry, hm⟩, hhead⟩

theorem name_of_found {s : Session α} {name : String} {entry : Entry α}
    (h : s.entry? name = some entry) : entry.name = name :=
  beq_iff_eq.mp (List.find?_some (p := fun e : Entry α => e.name == name) h)

theorem keep_of_result_error {s : Session α} {outcome : Outcome α (Mapping α)}
    {entry : Mapping α → Entry α} {f : Fault α} (h : (s.keep outcome entry).1.result = .error f) :
    (s.keep outcome entry).2 = s := by
  rcases outcome with ⟨notices, f' | m⟩
  · rfl
  · cases h

variable [Scalar α] [Numeral α]

/-- An action that fails leaves the entries alone. -/
theorem act_entries_of_error {s : Session α} {action : Action α} {f : Fault α}
    (h : (s.act action).1.result = .error f) : (s.act action).2.entries = s.entries := by
  cases action with
  | compile maker name definition precision =>
      rw [act_compile] at h ⊢
      rw [keep_of_result_error h, run_entries]
  | build name request =>
      rw [act_build] at h ⊢
      rw [keep_of_result_error h, run_entries]
  | parse definition => rw [act_parse, run_entries]
  | query place query => rw [act_query]
  | change place change =>
      cases hfind : s.find? place with
      | none => rw [act_change_of_none hfind]
      | some found =>
          rw [act_change_of_some hfind] at h ⊢
          rw [keep_of_result_error h, changed_entries]

/-- Whether an action leaves the mapping of a place there. -/
def Keeps (s : Session α) (place : Place) (action : Action α) : Prop :=
  action.replaces place = false ∨ ∃ f, (s.act action).1.result = .error f

/-- The states that come after a state as long as a place has the same mapping. -/
inductive Follows (place : Place) (s : Session α) : Session α → Prop
  | refl : Follows place s s
  | act {t : Session α} {action : Action α} (h : Follows place s t)
      (hkeeps : t.Keeps place action) : Follows place s (t.act action).2

/-- An entry that an action puts under the name of a place has the curve there
that was there before. -/
theorem Puts.sameCurve {s : Session α} {action : Action α} {put : Entry α}
    (hputs : s.Puts action put) {place : Place} (hkeeps : action.replaces place = false)
    (hname : put.name = place.name) {entry : Entry α} (hentry : s.entry? place.name = some entry)
    {link : Link α} (hlink : entry.mapping.links[place.depth]? = some link) :
    ∃ link', put.mapping.links[place.depth]? = some link' ∧ link.SameCurve link' := by
  cases hputs with
  | compile _ =>
      rw [Action.replaces, beq_eq_false_iff_ne] at hkeeps
      exact absurd hname hkeeps
  | build _ =>
      rw [Action.replaces, beq_eq_false_iff_ne] at hkeeps
      exact absurd hname hkeeps
  | @change changedPlace change whole m changed hfind hchanged =>
      obtain ⟨hwhole, hm⟩ := find?_eq_some_iff.mp hfind
      have hplace : changedPlace.name = place.name := (name_of_found hwhole).symm.trans hname
      rw [hplace, hentry, Option.some.injEq] at hwhole
      subst hwhole
      refine (changed_result hchanged).sameCurve_replaceAt hm ?_ hlink
      rw [hplace]
      exact hkeeps

/-- A mapping that an action leaves at its place keeps its curve. -/
theorem Keeps.sameCurve {s : Session α} {place : Place} {action : Action α}
    (h : s.Keeps place action) {entry : Entry α} {m : Mapping α}
    (hfind : s.find? place = some (entry, m)) :
    ∃ entry' m', (s.act action).2.find? place = some (entry', m') ∧
      m.head.SameCurve m'.head := by
  have hunchanged : (s.act action).2.entries = s.entries →
      ∃ entry' m', (s.act action).2.find? place = some (entry', m') ∧
        m.head.SameCurve m'.head := by
    intro hentries
    exact ⟨entry, m, by rw [find?_congr hentries, hfind], .refl _⟩
  rcases h with hkeeps | ⟨f, herror⟩
  · rcases s.act_entries action with hentries | ⟨put, hputs, hentries⟩
    · exact hunchanged hentries
    -- The entry that was put is the one of the place, or one of another name.
    · rw [find?_congr hentries]
      obtain ⟨_, hentry, hlink⟩ := exists_find?_iff.mp ⟨entry, m, hfind, rfl⟩
      by_cases hname : put.name = place.name
      · obtain ⟨link', hlink', hsame⟩ := hputs.sameCurve hkeeps hname hentry hlink
        have hput : entry? (s.put put) place.name = some put := by
          rw [entry?_put, hname, beq_self_eq_true, if_pos rfl]
        obtain ⟨entry', m', hfind', rfl⟩ := exists_find?_iff.mpr ⟨put, hput, hlink'⟩
        exact ⟨entry', m', hfind', hsame⟩
      · have hother : entry? (s.put put) place.name = s.entry? place.name := by
          rw [entry?_put, beq_false_of_ne hname, if_neg Bool.false_ne_true]
        obtain ⟨entry', m', hfind', hhead⟩ :=
          exists_find?_iff.mpr ⟨_, hother.trans hentry, hlink⟩
        exact ⟨entry', m', hfind', hhead ▸ .refl _⟩
  · exact hunchanged (act_entries_of_error herror)

/-- So does a mapping that stays at its place through a run. -/
theorem Follows.sameCurve {place : Place} {s t : Session α} (h : Follows place s t)
    {entry : Entry α} {m : Mapping α} (hfind : s.find? place = some (entry, m)) :
    ∃ entry' m', t.find? place = some (entry', m') ∧ m.head.SameCurve m'.head := by
  induction h with
  | refl => exact ⟨entry, m, hfind, .refl _⟩
  | act _ hkeeps ih =>
      obtain ⟨_, _, hfind', hsame⟩ := ih
      obtain ⟨entry', m', hlast, hsame'⟩ := hkeeps.sameCurve hfind'
      exact ⟨entry', m', hlast, hsame.trans hsame'⟩

end Session

end Easing
