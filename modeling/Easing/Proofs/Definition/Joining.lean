import Easing.Proofs.Definition.Reading

/-! # Texts that are joined by a separator

Two texts with a separator between them are read one after the other, whatever blanks
and separators they begin or end with: all of these, with the separator, are one divider.
A chain separator puts the chains of the second text after those of the first. A step
separator between texts of a single chain makes one chain of their steps.
-/

namespace Easing.Definition

open Text

theorem isMargin_flatten (c : Char) : isMargin (flatten c) = isMargin c := by
  unfold flatten
  split
  next h => rcases h with rfl | rfl | rfl <;> decide +kernel
  next => rfl

theorem flatten_eq_separator_iff {separator : Char} (h : isSeparator separator = true) (c : Char) :
    flatten c = separator ↔ c = separator := by
  have hspace : ' ' ≠ separator := by
    rintro rfl
    cases h
  unfold flatten
  split
  next hc =>
    refine ⟨fun heq => absurd heq hspace, ?_⟩
    rintro rfl
    rcases hc with rfl | rfl | rfl <;> revert h <;> decide
  next => rfl

/-- A text with something in it, taken apart at its margins. -/
theorem exists_solid {text : List Char} (h : ∃ c ∈ text, isMargin c = false) :
    ∃ front middle back, text.map flatten = front ++ (middle ++ back) ∧
      (∀ c ∈ front, isMargin c = true) ∧ Framed middle ∧ ∀ c ∈ back, isMargin c = true := by
  rcases exists_framed (text.map flatten) with hmargin | hsolid
  · obtain ⟨c, hc, hsolid⟩ := h
    have hall := hmargin (flatten c) (List.mem_map_of_mem hc)
    rw [isMargin_flatten, hsolid] at hall
    cases hall
  · exact hsolid

theorem lower_between {front middle back : List Char} (hfront : ∀ c ∈ front, isMargin c = true)
    (hback : ∀ c ∈ back, isMargin c = true) (hmiddle : Framed middle) :
    trim isMargin (lower (front ++ (middle ++ back))) = lower middle := by
  rw [lower_append_of_forall hfront, lower_append_of_forall_back hback,
    hmiddle.lower.trim_append hfront hback]

theorem IsDivider.lower_append {divider : List Char} (h : IsDivider divider)
    (front back : List Char) :
    lower (front ++ (divider ++ back)) = lower front ++ (divider ++ lower back) := by
  obtain ⟨c, rest, rfl⟩ := List.exists_cons_of_ne_nil (List.ne_nil_of_mem h.separator.choose_spec.1)
  obtain ⟨hc, hrest⟩ := List.forall_mem_cons.mp h.margin
  rw [List.cons_append, Definition.lower_append hc, lower_append_of_forall hrest, List.cons_append]

/-- What is left of two texts with a separator between them: what is left of both, with
all that stood between them. -/
theorem exists_cleaned_append {a b : List Char} (separator : Char)
    (hseparator : isSeparator separator = true) (ha : ∃ c ∈ a, isMargin c = false)
    (hb : ∃ c ∈ b, isMargin c = false) :
    Framed (cleaned a) ∧ Framed (cleaned b) ∧
      ∃ divider, IsDivider divider ∧ separator ∈ divider ∧
        (∀ other, isSeparator other = true → other ∈ divider →
          other = separator ∨ other ∈ a ∨ other ∈ b) ∧
        cleaned (a ++ separator :: b) = cleaned a ++ (divider ++ cleaned b) := by
  obtain ⟨front, middle, back, hflat, hfront, hmiddle, hback⟩ := exists_solid ha
  obtain ⟨front', middle', back', hflat', hfront', hmiddle', hback'⟩ := exists_solid hb
  have hcleaned : cleaned a = lower middle := by
    rw [cleaned, hflat, lower_between hfront hback hmiddle]
  have hcleaned' : cleaned b = lower middle' := by
    rw [cleaned, hflat', lower_between hfront' hback' hmiddle']
  refine ⟨hcleaned ▸ hmiddle.lower, hcleaned' ▸ hmiddle'.lower, back ++ separator :: front', ?_⟩
  have hmargin : ∀ c ∈ back ++ separator :: front', isMargin c = true := by
    intro c hc
    rcases List.mem_append.mp hc with hc | hc
    · exact hback c hc
    · rcases List.mem_cons.mp hc with rfl | hc
      · exact isMargin_of_isSeparator hseparator
      · exact hfront' c hc
  have hmem : separator ∈ back ++ separator :: front' :=
    List.mem_append_right _ List.mem_cons_self
  refine ⟨⟨hmargin, separator, hmem, hseparator⟩, hmem, ?_, ?_⟩
  · intro other hother hin
    have hfrom : ∀ {text : List Char}, other ∈ text.map flatten → other ∈ text := by
      intro text h
      obtain ⟨c, hc, heq⟩ := List.mem_map.mp h
      rwa [(flatten_eq_separator_iff hother c).mp heq] at hc
    rcases List.mem_append.mp hin with hin | hin
    · refine .inr (.inl (hfrom ?_))
      rw [hflat]
      simp [hin]
    · rcases List.mem_cons.mp hin with rfl | hin
      · exact .inl rfl
      · refine .inr (.inr (hfrom ?_))
        rw [hflat']
        simp [hin]
  · have hself : flatten separator = separator := (flatten_eq_separator_iff hseparator _).mpr rfl
    have hjoined : (a ++ separator :: b).map flatten =
        front ++ ((middle ++ ((back ++ separator :: front') ++ middle')) ++ back') := by
      simp [hflat, hflat', hself]
    rw [cleaned, hjoined, lower_between hfront hback' (hmiddle.append _ hmiddle'), hcleaned,
      hcleaned', (IsDivider.mk hmargin ⟨separator, hmem, hseparator⟩).lower_append]

/-! ## Dividers between two texts -/

theorem Divided.ne_nil {text : List Char} {parts : List (List (List Char))}
    (h : Divided text parts) : parts ≠ [] := by
  cases h <;> exact List.cons_ne_nil _ _

/-- Texts with a chain separator between them have the chains of both. -/
theorem Divided.append_chains {front divider back : List Char}
    {chains chains' : List (List (List Char))} (h : Divided front chains)
    (h' : Divided back chains') (hdivider : IsDivider divider)
    (hchain : chainSeparator ∈ divider) :
    Divided (front ++ (divider ++ back)) (chains ++ chains') := by
  induction h with
  | step htext => exact .nextChain htext hdivider hchain h'
  | nextStep htext hinner hstep _ ih =>
      rw [List.append_assoc, List.append_assoc]
      exact .nextStep htext hinner hstep ih
  | nextChain htext hinner hinnerChain _ ih =>
      rw [List.append_assoc, List.append_assoc]
      exact .nextChain htext hinner hinnerChain ih

/-- With only step separators between them, the chain at the end of the first text goes
on with the chain at the beginning of the second. -/
theorem Divided.append_steps {front divider back : List Char} {steps steps' : List (List Char)}
    {chains' : List (List (List Char))} (h : Divided front [steps])
    (h' : Divided back (steps' :: chains')) (hdivider : IsDivider divider)
    (hstep : chainSeparator ∉ divider) :
    Divided (front ++ (divider ++ back)) ((steps ++ steps') :: chains') := by
  generalize hchains : [steps] = chains at h
  induction h generalizing steps with
  | step htext =>
      cases hchains
      exact .nextStep htext hdivider hstep h'
  | nextStep htext hinner hinnerStep _ ih =>
      cases hchains
      rw [List.append_assoc, List.append_assoc]
      exact .nextStep htext hinner hinnerStep (ih rfl)
  | nextChain _ _ _ hrest _ =>
      cases hchains
      exact absurd rfl hrest.ne_nil

/-- Without a chain separator there is one chain. -/
theorem Divided.exists_singleton {text : List Char} {chains : List (List (List Char))}
    (h : Divided text chains) (hclear : chainSeparator ∉ text) : ∃ steps, chains = [steps] := by
  induction h with
  | step => exact ⟨_, rfl⟩
  | nextStep _ _ _ _ ih =>
      simp only [List.mem_append, not_or] at hclear
      obtain ⟨steps, heq⟩ := ih hclear.2.2
      cases heq
      exact ⟨_, rfl⟩
  | nextChain _ _ hchain _ _ =>
      simp only [List.mem_append, not_or] at hclear
      exact absurd hchain hclear.2.1

/-- Small letters have the blanks and separators of the text. -/
theorem mem_lower_iff {margin : Char} (h : isMargin margin = true) (text : List Char) :
    margin ∈ lower text ↔ margin ∈ text := by
  have hnot : ∀ {text : List Char}, (∀ c ∈ text, isMargin c = false) → margin ∉ text := by
    intro text hclear hmem
    rw [hclear margin hmem] at h
    cases h
  induction Cut.of_text text with
  | none hclear => simp only [hnot hclear, hnot (lower_clear hclear)]
  | margin hclear hc _ ih =>
      simp only [lower_append hc, List.mem_append, List.mem_cons, hnot hclear,
        hnot (lower_clear hclear), ih]

theorem mem_of_mem_cleaned {margin : Char} (h : isMargin margin = true) {text : List Char}
    (hmem : margin ∈ cleaned text) : margin ∈ text.map flatten := by
  have hdrop := List.mem_reverse.mp ((List.dropWhile_suffix _).subset (List.mem_reverse.mp hmem))
  exact (mem_lower_iff h _).mp ((List.dropWhile_suffix _).subset hdrop)

theorem separator_mem_of_mem_cleaned {separator : Char} (h : isSeparator separator = true)
    {text : List Char} (hmem : separator ∈ cleaned text) : separator ∈ text := by
  obtain ⟨c, hc, heq⟩ := List.mem_map.mp (mem_of_mem_cleaned (isMargin_of_isSeparator h) hmem)
  rwa [(flatten_eq_separator_iff h c).mp heq] at hc

/-! ## The parts of joined texts -/

/-- The steps of a definition, chain by chain. -/
def parts (text : List Char) : List (List (List Char)) := (chains (normalize text)).map steps

theorem parts_eq {text : List Char} {divided : List (List (List Char))}
    (h : Divided (cleaned text) divided) : parts text = divided := by
  obtain ⟨c, rest, hopens, _⟩ := h.opens.collapse
  rw [← h.map_steps, parts, normalize_eq, hopens]

theorem divided_parts {text : List Char} (h : Framed (cleaned text)) :
    Divided (cleaned text) (parts text) := by
  obtain ⟨divided, hdivided⟩ := h.exists_divided
  rwa [parts_eq hdivided]

variable {a b : List Char} (ha : ∃ c ∈ a, isMargin c = false) (hb : ∃ c ∈ b, isMargin c = false)
include ha hb

theorem parts_append_chains : parts (a ++ chainSeparator :: b) = parts a ++ parts b := by
  obtain ⟨hframed, hframed', divider, hdivider, hmem, _, heq⟩ :=
    exists_cleaned_append chainSeparator rfl ha hb
  apply parts_eq
  rw [heq]
  exact (divided_parts hframed).append_chains (divided_parts hframed') hdivider hmem

theorem parts_append_steps (hclear : chainSeparator ∉ a) (hclear' : chainSeparator ∉ b) :
    ∃ steps steps', parts a = [steps] ∧ parts b = [steps'] ∧
      parts (a ++ stepSeparator :: b) = [steps ++ steps'] := by
  obtain ⟨hframed, hframed', divider, hdivider, _, honly, heq⟩ :=
    exists_cleaned_append stepSeparator rfl ha hb
  have hone : ∀ {text : List Char}, chainSeparator ∉ text → Framed (cleaned text) →
      ∃ steps, parts text = [steps] := fun hclear hframed =>
    (divided_parts hframed).exists_singleton fun h => hclear (separator_mem_of_mem_cleaned rfl h)
  obtain ⟨steps, hsteps⟩ := hone hclear hframed
  obtain ⟨steps', hsteps'⟩ := hone hclear' hframed'
  have hstep : chainSeparator ∉ divider := by
    intro h
    rcases honly _ rfl h with h | h | h
    · exact stepSeparator_ne h.symm
    · exact hclear h
    · exact hclear' h
  refine ⟨steps, steps', hsteps, hsteps', parts_eq ?_⟩
  rw [heq]
  exact (hsteps ▸ divided_parts hframed).append_steps (hsteps' ▸ divided_parts hframed') hdivider
    hstep

end Easing.Definition
