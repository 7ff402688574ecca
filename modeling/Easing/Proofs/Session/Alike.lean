import Easing.Proofs.Session.Texts

/-! # Sessions that have the same expressions

Sessions are alike if their generators stand at the same places and their mappings have
the same expressions. Questions and changes of ranges keep a session alike, and so do two
actions that read the same texts, if both of them succeed or both of them fail.
-/

namespace Easing

variable {α : Type}

/-- Two actions that are the same except for the precisions that they request. -/
inductive Action.UpToPrecision : Action α → Action α → Prop
  | compile {maker : Maker} {name definition : String} {precision other : Option Precision} :
      UpToPrecision (.compile maker name definition precision)
        (.compile maker name definition other)
  | build {name : String} {request : Request α} {other targetOther : Option Precision} :
      UpToPrecision (.build name request)
        (.build name { request with precision := other, targetPrecision := targetOther })
  | setTarget {place : Place} {definition : String} {precision other : Option Precision} :
      UpToPrecision (.change place (.setTarget definition precision))
        (.change place (.setTarget definition other))
  | parse {definition : String} : UpToPrecision (.parse definition) (.parse definition)
  | rest {action : Action α} (h : action.reads = false) : UpToPrecision action action

/-- Two runs that are the same except for questions and changes of ranges that only one of
them has. The actions that both have may differ as the relation lets them. -/
inductive Action.Interleaved (alike : Action α → Action α → Prop) :
    List (Action α) → List (Action α) → Prop
  | nil : Interleaved alike [] []
  | left {action : Action α} {actions others : List (Action α)} (h : action.reads = false) :
      Interleaved alike actions others → Interleaved alike (action :: actions) others
  | right {action : Action α} {actions others : List (Action α)} (h : action.reads = false) :
      Interleaved alike actions others → Interleaved alike actions (action :: others)
  | both {action other : Action α} {actions others : List (Action α)} (h : alike action other) :
      Interleaved alike actions others → Interleaved alike (action :: actions) (other :: others)

theorem Action.UpToPrecision.refl (action : Action α) : action.UpToPrecision action := by
  cases action with
  | compile => exact .compile
  | build => exact .build
  | parse => exact .parse
  | query => exact .rest rfl
  | change place change =>
      cases change with
      | setTarget => exact .setTarget
      | _ => exact .rest rfl

section Except

variable {ε β γ : Type}

@[simp] theorem Except.isOk_map (f : β → γ) (result : Except ε β) :
    (result.map f).isOk = result.isOk := by
  cases result <;> rfl

theorem Except.map_eq_error_iff {f : β → γ} {result : Except ε β} {e : ε} :
    result.map f = .error e ↔ result = .error e := by
  cases result <;> simp [Except.map]

end Except

@[simp] theorem Outcome.result_map {β γ : Type} (f : β → γ) (outcome : Outcome α β) :
    (f <$> outcome).result = outcome.result.map f := by
  rcases outcome with ⟨notices, fault | b⟩ <;> simp [Except.map]

/-! ## Sessions that are alike -/

namespace Session

/-- What texts have made of a mapping: its name, who made it, and its expressions. -/
structure Curves (α : Type) where
  name : String
  maker : Maker
  expressions : List (Expression α)

def Entry.curves (entry : Entry α) : Curves α :=
  ⟨entry.name, entry.maker, entry.mapping.links.map Link.expression⟩

/-- Sessions whose generators stand at the same places, and whose mappings have the same
names and the same expressions at all depths. -/
structure Alike (s t : Session α) : Prop where
  generator : ∀ maker, (t.compiler maker).generator = (s.compiler maker).generator
  entries : t.entries.map Entry.curves = s.entries.map Entry.curves

variable {s t : Session α}

theorem Alike.refl (s : Session α) : s.Alike s := ⟨fun _ => rfl, rfl⟩

theorem Alike.symm (h : s.Alike t) : t.Alike s :=
  ⟨fun maker => (h.generator maker).symm, h.entries.symm⟩

theorem Alike.trans {u : Session α} (h : s.Alike t) (h' : t.Alike u) : s.Alike u :=
  ⟨fun maker => (h'.generator maker).trans (h.generator maker), h'.entries.trans h.entries⟩

/-- What putting an entry does to names and expressions. -/
theorem map_curves_put (s : Session α) (entry : Entry α) :
    (s.put entry).entries.map Entry.curves =
      if (s.entries.map Entry.curves).any (·.name == entry.curves.name) then
        (s.entries.map Entry.curves).map fun c =>
          if c.name == entry.curves.name then entry.curves else c
      else s.entries.map Entry.curves ++ [entry.curves] := by
  have hany : (s.entries.map Entry.curves).any (·.name == entry.curves.name) =
      s.entries.any (·.name == entry.name) := by
    rw [List.any_map]
    rfl
  rw [hany]
  unfold put
  split
  · simp only [List.map_map]
    apply List.map_congr_left
    intro e _
    by_cases hname : e.name = entry.name <;> simp [Entry.curves, hname]
  · simp

theorem entry?_map_curves (s : Session α) (name : String) :
    ( s.entry? name).map Entry.curves =
      (s.entries.map Entry.curves).find? (·.name == name) := by
  rw [List.find?_map]
  rfl

/-- A place is found in both sessions or in neither. -/
theorem Alike.find? (h : s.Alike t) {place : Place} {entry : Entry α} {m : Mapping α}
    (hfind : s.find? place = some (entry, m)) :
    ∃ entry' m', t.find? place = some (entry', m') ∧ entry'.curves = entry.curves ∧
      m'.links.map Link.expression = m.links.map Link.expression := by
  obtain ⟨hentry, hm⟩ := find?_eq_some_iff.mp hfind
  have hcurves : ( t.entry? place.name).map Entry.curves = some entry.curves := by
    rw [entry?_map_curves, h.entries, ← entry?_map_curves, hentry, Option.map_some]
  obtain ⟨entry', hentry', hsame⟩ := Option.map_eq_some_iff.mp hcurves
  have hexpressions : entry'.mapping.links.map Link.expression =
      entry.mapping.links.map Link.expression := congrArg Curves.expressions hsame
  have hlength : place.depth < entry'.mapping.links.length := by
    have heq := congrArg List.length hexpressions
    rw [List.length_map, List.length_map] at heq
    rw [heq]
    exact Mapping.lt_length_links_of_atDepth? hm
  obtain ⟨m', hm', _⟩ := Mapping.atDepth?_of_getElem? (List.getElem?_eq_getElem hlength)
  refine ⟨entry', m', find?_eq_some_iff.mpr ⟨hentry', hm'⟩, hsame, ?_⟩
  rw [Mapping.links_atDepth? hm, Mapping.links_atDepth? hm', List.map_drop, List.map_drop,
    hexpressions]

theorem Alike.find?_eq_none (h : s.Alike t) {place : Place} (hfind : s.find? place = none) :
    t.find? place = none := by
  cases hfound : t.find? place with
  | none => rfl
  | some found =>
      obtain ⟨entry, m, hfound', _⟩ := h.symm.find? hfound
      rw [hfind] at hfound'
      cases hfound'

theorem Alike.isSome_find? (h : s.Alike t) (place : Place) :
    (t.find? place).isSome = (s.find? place).isSome := by
  cases hfind : s.find? place with
  | none => rw [h.find?_eq_none hfind]
  | some found =>
      obtain ⟨entry', m', hfind', _⟩ := h.find? hfind
      rw [hfind']
      rfl

theorem Alike.compiler_eq (h : s.Alike t)
    (hconfig : ∀ maker, (t.compiler maker).config = (s.compiler maker).config) (maker : Maker) :
    t.compiler maker = s.compiler maker := by
  have hparts := hconfig maker
  have hgenerator := h.generator maker
  cases hs : s.compiler maker
  cases ht : t.compiler maker
  rw [hs, ht] at hparts hgenerator
  dsimp only at hparts hgenerator
  rw [hparts, hgenerator]

/-- Putting what has the same name and expressions into sessions that are alike, or nothing
into either of them. -/
theorem map_curves_keep (h : t.entries.map Entry.curves = s.entries.map Entry.curves)
    {outcome other : Outcome α (Mapping α)} {entry entry' : Mapping α → Entry α}
    (hok : other.result.isOk = outcome.result.isOk)
    (hcurves : ∀ m m', outcome.result = .ok m → other.result = .ok m' →
      (entry' m').curves = (entry m).curves) :
    (t.keep other entry').2.entries.map Entry.curves =
      (s.keep outcome entry).2.entries.map Entry.curves := by
  rcases outcome with ⟨notices, f | m⟩
  · rcases other with ⟨notices', f' | m'⟩
    · exact h
    · cases hok
  · rcases other with ⟨notices', f' | m'⟩
    · cases hok
    · change (t.put (entry' m')).entries.map _ = (s.put (entry m)).entries.map _
      rw [map_curves_put, map_curves_put, h, hcurves m m' rfl rfl]

/-- What a changed target does to the expressions of a mapping. -/
theorem curves_replaceAt {entry : Entry α} {place : Place} {m : Mapping α}
    (hm : entry.mapping.atDepth? place.depth = some m) (changed : Mapping α) :
    (⟨entry.name, entry.maker, Mapping.replaceAt changed place.depth entry.mapping⟩ :
        Entry α).curves =
      ⟨entry.name, entry.maker, entry.curves.expressions.take place.depth ++
        changed.links.map Link.expression⟩ := by
  simp only [Entry.curves, Mapping.links_replaceAt changed hm, List.map_append, List.map_take]

theorem Alike.reader (h : s.Alike t) {action other : Action α}
    (hup : action.UpToPrecision other) : t.reader other = s.reader action := by
  cases hup with
  | compile => rfl
  | build => rfl
  | parse => rfl
  | setTarget =>
      rename_i place _ _ _
      simp only [Session.reader]
      cases hfind : s.find? place with
      | none => rw [h.find?_eq_none hfind]
      | some found =>
          obtain ⟨entry, m⟩ := found
          obtain ⟨entry', m', hfind', hcurves, _⟩ := h.find? hfind
          rw [hfind', Option.map_some, Option.map_some]
          exact congrArg (fun c : Curves α => some c.maker) hcurves
  | rest hreads =>
      cases action with
      | query => rfl
      | change place change =>
          cases change with
          | setTarget => cases hreads
          | _ => rfl
      | _ => cases hreads

variable [Scalar α] [Numeral α]

/-! ## Questions and changes of ranges -/

/-- Accepted bounds leave the expressions as they are. -/
theorem map_expression_of_changesTo {m changed : Mapping α} {change : Change α}
    (h : m.ChangesTo change changed) {place : Place}
    (hreads : Action.reads (.change place change) = false) :
    changed.links.map Link.expression = m.links.map Link.expression := by
  cases h with
  | setRange _ => simp [Mapping.links, Function.comp_def, Link.withDomain]
  | setBlendRange _ => rfl
  | setTarget _ => cases hreads

/-- An action that reads no text leaves the session alike. -/
theorem Reachable.alike_act {s : Session α} (hs : s.Reachable) {action : Action α}
    (h : action.reads = false) : s.Alike (s.act action).2 := by
  cases action with
  | query place query =>
      rw [act_query]
      exact .refl s
  | change place change =>
      cases hfind : s.find? place with
      | none =>
          rw [act_change_of_none hfind]
          exact .refl s
      | some found =>
          obtain ⟨entry, m⟩ := found
          obtain ⟨hentry, hm⟩ := find?_eq_some_iff.mp hfind
          rw [act_change_of_some hfind]
          have hsession : (s.changed entry.maker m change).2 = s := by
            cases change with
            | setTarget => cases h
            | _ => rfl
          rw [hsession]
          refine ⟨fun maker => by rw [keep_compiler], ?_⟩
          cases hresult : (s.changed entry.maker m change).1.result with
          | error f => rw [(keep_of_error hresult _).1]
          | ok changed =>
              have hkept := map_expression_of_changesTo (changed_result hresult) h
              -- The entry that is put has the expressions of the one that was found.
              have hcurves : (⟨entry.name, entry.maker,
                  Mapping.replaceAt changed place.depth entry.mapping⟩ : Entry α).curves =
                    entry.curves := by
                rw [curves_replaceAt hm, hkept, Mapping.links_atDepth? hm, List.map_drop,
                  Entry.curves, List.take_append_drop]
              rw [keep_of_ok hresult, map_curves_put, hcurves, ← map_curves_put,
                hs.namesDiffer.put_entry? hentry]
  | _ => cases h

/-! ## Texts that are read in both sessions -/

/-- Actions that read the same texts and both succeed or both fail leave the sessions alike,
whatever the ranges and the tables are. -/
theorem Alike.act [Scalar.HasIntegerPart α] (h : s.Alike t) {action other : Action α}
    (hup : action.UpToPrecision other) (hreads : action.reads = true)
    (htexts : t.textsRead other = s.textsRead action)
    (hok : (t.act other).1.result.isOk = (s.act action).1.result.isOk) :
    (s.act action).2.Alike (t.act other).2 := by
  constructor
  · intro maker
    rw [act_compiler, act_compiler]
    simp only [textsReadBy, h.reader hup, htexts, h.generator]
  · cases hup with
    | @compile maker name definition precision other =>
        rw [act_compile, act_compile, result_keep, result_keep, Except.isOk_map,
          Except.isOk_map] at hok
        rw [act_compile, act_compile]
        refine map_curves_keep (by rw [run_entries, run_entries, h.entries]) hok ?_
        intro m m' hm hm'
        rw [Outcome.result_map_eq_ok_iff, run_outcome] at hm hm'
        obtain ⟨link, hlink, rfl⟩ := hm
        obtain ⟨link', hlink', rfl⟩ := hm'
        have hparse := Compiler.Config.parse_of_compile hlink
        have hparse' := Compiler.Config.parse_of_compile hlink'
        rw [h.generator, hparse, Except.ok.injEq] at hparse'
        simp [Entry.curves, Mapping.links, hparse']
    | @build name request other targetOther =>
        rw [act_build, act_build, result_keep, result_keep, Except.isOk_map,
          Except.isOk_map] at hok
        rw [act_build, act_build]
        refine map_curves_keep (by rw [run_entries, run_entries, h.entries]) hok ?_
        intro m m' hm hm'
        rw [run_outcome] at hm hm'
        have hread := Compiler.Config.readAll_textsOf hm
        have hread' := Compiler.Config.readAll_textsOf hm'
        have hgenerator : t.own.generator = s.own.generator := h.generator .own
        rw [textsRead, textsRead] at htexts
        rw [compiler] at hread hread'
        rw [htexts, hgenerator, hread] at hread'
        have hexpressions := List.map_injective_iff.mpr (fun _ _ => Except.ok.inj) hread'
        simp [Entry.curves, hexpressions]
    | @setTarget place definition precision other =>
        cases hfind : s.find? place with
        | none =>
            rw [act_change_of_none hfind, act_change_of_none (h.find?_eq_none hfind), h.entries]
        | some found =>
            obtain ⟨entry, m⟩ := found
            obtain ⟨entry', m', hfind', hcurves, hlinks⟩ := h.find? hfind
            have hmaker : entry'.maker = entry.maker := congrArg Curves.maker hcurves
            rw [act_change_of_some hfind, act_change_of_some hfind', result_keep, result_keep,
              Except.isOk_map, Except.isOk_map] at hok
            rw [act_change_of_some hfind, act_change_of_some hfind']
            refine map_curves_keep (by rw [changed_entries, changed_entries, h.entries]) hok ?_
            intro made made' hmade hmade'
            rw [changed, run_outcome] at hmade hmade'
            obtain ⟨target, rfl, hparse⟩ := Compiler.Config.parse_of_attach hmade
            obtain ⟨target', rfl, hparse'⟩ := Compiler.Config.parse_of_attach hmade'
            rw [hmaker, h.generator, hparse, Except.ok.injEq] at hparse'
            have hhead : m'.head.expression = m.head.expression := (List.cons.inj hlinks).1
            rw [curves_replaceAt (find?_eq_some_iff.mp hfind).2,
              curves_replaceAt (find?_eq_some_iff.mp hfind').2, hcurves, hmaker]
            have hname : entry'.name = entry.name := congrArg Curves.name hcurves
            simp [Mapping.links, Mapping.withTarget, Link.withDomain, hhead, hparse', hname]
    | parse => rw [act_parse, act_parse, run_entries, run_entries, h.entries]
    | rest hnone =>
        rw [hreads] at hnone
        cases hnone

end Session

end Easing
