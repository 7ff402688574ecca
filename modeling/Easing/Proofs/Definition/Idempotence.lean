import Easing.Proofs.Definition.Joining

/-! # Texts that are their own normal forms

Each of the rewritings that lead to the normal form could bring back what an earlier
one has removed. None does: the small form of a letter is a small letter, joining
separators brings none of them closer to another, and what the text starts and ends
with stays in its place. The texts that a normal form can be are described without
the rewritings, and these leave each of them as it is.
-/

namespace Easing.Text

/-! ## Small letters are their own small forms -/

/-- Whether the partner by one run of a character can be covered by another run. Where
capitals and small letters alternate, their parity tells them apart. -/
def CaseRun.meets (run other : CaseRun) : Bool :=
  let first := ((run.first : Int) + run.shift).toNat
  let last := ((run.last : Int) + run.shift).toNat
  Nat.ble other.first last && Nat.ble first other.last &&
    (!(other.stride == 2 && (run.stride == 2 || first == last)) || first % 2 == other.first % 2)

theorem CaseRun.meets_of_covers {run other : CaseRun} (hshift : 0 ≤ (run.first : Int) + run.shift)
    {code : Nat} (h : run.covers code = true)
    (hpartner : other.covers ((code : Int) + run.shift).toNat = true) :
    run.meets other = true := by
  simp only [covers, Bool.and_eq_true, decide_eq_true_eq, beq_iff_eq] at h hpartner
  obtain ⟨⟨hfirst, hlast⟩, hstride⟩ := h
  obtain ⟨⟨hfirst', hlast'⟩, hstride'⟩ := hpartner
  simp only [meets, Bool.and_eq_true, Nat.ble_eq, Bool.or_eq_true, Bool.not_eq_true',
    beq_iff_eq]
  refine ⟨⟨by omega, by omega⟩, ?_⟩
  by_cases hparity : ((run.first : Int) + run.shift).toNat % 2 = other.first % 2
  · exact .inr hparity
  · refine .inl ?_
    rw [← Bool.not_eq_true]
    simp only [Bool.and_eq_true, Bool.or_eq_true, beq_iff_eq]
    rintro ⟨htwo, hrun⟩
    rw [htwo] at hstride'
    rcases hrun with hrun | hrun
    · rw [hrun] at hstride
      omega
    · omega

/-- The runs of capitals, and the capitals with small forms of several characters. -/
def capitals : List CaseRun :=
  lowerRuns ++ lowerExpansions.map fun expansion => ⟨expansion.1, expansion.1, 1, 0⟩

/-- No capital has a capital for its partner. -/
theorem partner?_of_partner? {code partner : Nat} (h : partner? lowerRuns code = some partner) :
    lowerExpansions.lookup partner = none ∧ partner? lowerRuns partner = none := by
  have htable : lowerRuns.all (fun run => decide (0 ≤ (run.first : Int) + run.shift) &&
      capitals.all fun other => !run.meets other) = true := by
    decide +kernel
  rw [partner?, Option.map_eq_some_iff] at h
  obtain ⟨run, hrun, rfl⟩ := h
  have hcovers := List.find?_some hrun
  have hall := List.all_eq_true.mp htable run (List.mem_of_find?_eq_some hrun)
  simp only [Bool.and_eq_true, decide_eq_true_eq, List.all_eq_true, Bool.not_eq_true'] at hall
  obtain ⟨hshift, hmeets⟩ := hall
  have huncovered : ∀ other ∈ capitals,
      other.covers ((code : Int) + run.shift).toNat = false := by
    intro other hother
    rw [← Bool.not_eq_true]
    intro hpartner
    have hapart := hmeets other hother
    rw [CaseRun.meets_of_covers hshift hcovers hpartner] at hapart
    cases hapart
  constructor
  · rw [List.lookup_eq_none_iff]
    intro expansion hexpansion
    have hnot := huncovered _ (List.mem_append_right _ (List.mem_map_of_mem hexpansion))
    rw [bne_iff_ne]
    intro hcode
    simp [CaseRun.covers, hcode] at hnot
  · rw [partner?, Option.map_eq_none_iff, List.find?_eq_none]
    intro other hother
    simp [huncovered other (List.mem_append_left _ hother)]

theorem lowerForm_ofNat {code : Nat} (hexpansion : lowerExpansions.lookup code = none)
    (hpartner : partner? lowerRuns code = none) :
    lowerForm (Char.ofNat code) = [Char.ofNat code] := by
  by_cases hvalid : code.isValidChar
  · have hcode : (Char.ofNat code).toNat = code := by
      rw [Char.ofNat, dif_pos hvalid]
      rfl
    simp only [lowerForm, caseForm, hcode, hexpansion, hpartner]
  · rw [Char.ofNat, dif_neg hvalid]
    decide +kernel

/-- What a capital becomes stays as it is. -/
theorem lowerForm_of_mem_lowerForm {c d : Char} (h : d ∈ lowerForm c) : lowerForm d = [d] := by
  have hexpansions : ∀ expansion ∈ lowerExpansions, ∀ code ∈ expansion.2,
      lowerForm (Char.ofNat code) = [Char.ofNat code] := by
    decide +kernel
  unfold lowerForm caseForm at h
  cases hlookup : lowerExpansions.lookup c.toNat with
  | some codes =>
      obtain ⟨before, after, happ, _⟩ := List.lookup_eq_some_iff.mp hlookup
      rw [hlookup] at h
      obtain ⟨code, hcode, rfl⟩ := List.mem_map.mp h
      exact hexpansions (c.toNat, codes) (by simp [happ]) code hcode
  | none =>
      rw [hlookup] at h
      cases hpartner : partner? lowerRuns c.toNat with
      | some partner =>
          rw [hpartner] at h
          obtain ⟨hnone, hpartner'⟩ := partner?_of_partner? hpartner
          rw [List.mem_singleton.mp h]
          exact lowerForm_ofNat hnone hpartner'
      | none =>
          rw [hpartner] at h
          rw [List.mem_singleton.mp h]
          simp only [lowerForm, caseForm, hlookup, hpartner]

theorem lowerForm_of_mem_lowerAfter {before text : List Char} {c : Char}
    (h : c ∈ lowerAfter before text) : lowerForm c = [c] := by
  induction text generalizing before with
  | nil => exact absurd h List.not_mem_nil
  | cons d rest ih =>
      rw [lowerAfter] at h
      rcases List.mem_append.mp h with h | h
      · split at h
        next =>
          rw [List.mem_singleton.mp h]
          split <;> decide +kernel
        next => exact lowerForm_of_mem_lowerForm h
      · exact ih h

end Easing.Text

namespace Easing.Definition

open Text

theorem lower_lower (text : List Char) : lower (lower text) = lower text :=
  lowerAfter_of_small (fun _ => lowerForm_of_mem_lowerAfter) []

/-! ## Separators that are apart -/

/-- Between any two separators there is something else than blanks and separators. -/
def Apart (text : List Char) : Prop :=
  ∀ front c middle d back, text = front ++ c :: (middle ++ d :: back) →
    isSeparator c = true → isSeparator d = true → ∃ e ∈ middle, isMargin e = false

theorem Apart.of_append {front text : List Char} (h : Apart (front ++ text)) : Apart text := by
  intro before c middle d back heq
  apply h (front ++ before) c middle d back
  rw [heq, List.append_assoc]

theorem Apart.of_cons {c : Char} {text : List Char} (h : Apart (c :: text)) : Apart text := by
  rw [← List.singleton_append] at h
  exact h.of_append

/-- Only the separators after it have to be looked at if a character is put in front. -/
theorem Apart.cons {c : Char} {text : List Char} (h : Apart text)
    (hc : ∀ middle d back, text = middle ++ d :: back → isSeparator c = true →
      isSeparator d = true → ∃ e ∈ middle, isMargin e = false) : Apart (c :: text) := by
  intro front c' middle d back heq
  cases front with
  | nil =>
      obtain ⟨rfl, htext⟩ := List.cons.inj heq
      exact hc middle d back htext
  | cons _ front => exact h front c' middle d back (List.cons.inj heq).2

/-- Separators that are apart are not joined. -/
theorem Apart.collapse_eq {text : List Char} (h : Apart text) : collapse text = text := by
  induction text with
  | nil => rfl
  | cons c rest ih =>
      have hrest := ih h.of_cons
      cases hc : isSeparator c with
      | false => rw [collapse_cons hc, hrest]
      | true =>
          have hnext : ∀ d more, (collapse rest).dropWhile isBlank = d :: more →
              isSeparator d = false := by
            intro d more hdrop
            rw [hrest] at hdrop
            rw [← Bool.not_eq_true]
            intro hd
            have hsplit : c :: rest = [] ++ c :: (rest.takeWhile isBlank ++ d :: more) := by
              rw [← hdrop, List.takeWhile_append_dropWhile, List.nil_append]
            obtain ⟨e, he, hsolid⟩ := h _ _ _ _ _ hsplit hc hd
            have hblank := List.mem_takeWhile_imp he
            rw [isBlank_of_isMargin_eq_false hsolid] at hblank
            cases hblank
          rw [collapse_cons_of_apart hc hnext, hrest]

/-- Behind blanks and separators up to a separator, the first character that is not
blank is a separator. -/
theorem exists_dropWhile_isBlank {middle : List Char} (h : ∀ c ∈ middle, isMargin c = true)
    {d : Char} (hd : isSeparator d = true) (back : List Char) :
    ∃ e more, (middle ++ d :: back).dropWhile isBlank = e :: more ∧ isSeparator e = true := by
  induction middle with
  | nil =>
      refine ⟨d, back, ?_, hd⟩
      exact List.dropWhile_cons_of_neg (by simp [isBlank_of_isSeparator hd])
  | cons c middle ih =>
      cases hc : isSeparator c with
      | true =>
          refine ⟨c, middle ++ d :: back, ?_, hc⟩
          exact List.dropWhile_cons_of_neg (by simp [isBlank_of_isSeparator hc])
      | false =>
          have hblank := isBlank_of_isMargin (h c List.mem_cons_self) hc
          rw [List.cons_append, List.dropWhile_cons_of_pos hblank]
          exact ih fun e he => h e (List.mem_cons_of_mem _ he)

theorem isSeparator_joint (c d : Char) : isSeparator (joint c d) = true := by
  unfold joint
  split <;> rfl

theorem apart_collapse (text : List Char) : Apart (collapse text) := by
  induction text with
  | nil =>
      intro front c middle d back heq
      simp [collapse] at heq
  | cons c rest ih =>
      have hcollapses := collapses c rest
      generalize collapse (c :: rest) = collapsed at hcollapses ⊢
      cases hcollapses with
      | kept hnext =>
          refine ih.cons fun middle d back heq hc hd => ?_
          by_contra hmargin
          simp only [not_exists, not_and, Bool.not_eq_false] at hmargin
          obtain ⟨e, more, hdrop, he⟩ := exists_dropWhile_isBlank hmargin hd back
          rw [← heq] at hdrop
          rw [hnext hc e more hdrop] at he
          cases he
      | joined hd hdrop =>
          -- The joint has the place of a separator that was apart from those after it.
          rw [← List.takeWhile_append_dropWhile (p := isBlank) (l := collapse rest), hdrop] at ih
          have hapart := ih.of_append
          refine hapart.of_cons.cons fun middle e back heq _ he => ?_
          exact hapart [] _ middle e back (by rw [heq, List.nil_append]) hd he

/-! ## What a normal form can be -/

/-- A text that the rewritings leave as it is. -/
structure IsNormal (text : List Char) : Prop where
  /-- It starts and ends with a character that is no blank and no separator. -/
  framed : Framed text
  /-- It stands on one line. -/
  line : ∀ c ∈ text, c ≠ '\t' ∧ c ≠ '\n' ∧ c ≠ '\r'
  /-- Its separators are single. -/
  apart : Apart text
  /-- Its letters are small. -/
  small : lower text = text

theorem IsNormal.normalize_eq {text : List Char} (h : IsNormal text) : normalize text = text := by
  have hflat : text.map flatten = text := by
    refine (List.map_congr_left fun c hc => ?_).trans (List.map_id text)
    obtain ⟨htab, hfeed, hreturn⟩ := h.line c hc
    exact if_neg (by simp [htab, hfeed, hreturn])
  rw [normalize, hflat, h.framed.trim fun _ => id, h.apart.collapse_eq, h.small]
  obtain ⟨c, rest, rfl, _⟩ := h.framed.first
  rfl

theorem mem_or_isSeparator_of_mem_collapse {text : List Char} {c : Char} (h : c ∈ collapse text) :
    c ∈ text ∨ isSeparator c = true := by
  induction text with
  | nil => exact .inl h
  | cons d rest ih =>
      have hrest (h : c ∈ collapse rest) : c ∈ d :: rest ∨ isSeparator c = true :=
        (ih h).imp_left (List.mem_cons_of_mem d)
      have hcollapses := collapses d rest
      generalize collapse (d :: rest) = collapsed at h hcollapses
      cases hcollapses with
      | kept =>
          rcases List.mem_cons.mp h with rfl | h
          · exact .inl List.mem_cons_self
          · exact hrest h
      | joined _ hdrop =>
          rcases List.mem_cons.mp h with rfl | h
          · exact .inr (isSeparator_joint d _)
          · apply hrest
            exact (List.dropWhile_suffix isBlank).subset (hdrop ▸ List.mem_cons_of_mem _ h)

theorem flatten_ne (c : Char) : flatten c ≠ '\t' ∧ flatten c ≠ '\n' ∧ flatten c ≠ '\r' := by
  unfold flatten
  split
  next => decide
  next h => simpa using h

/-- Neither small letters nor joined separators bring back a line break. -/
theorem ne_break_of_mem {text : List Char} {c : Char} (h : c ∈ collapse (cleaned text)) :
    c ≠ '\t' ∧ c ≠ '\n' ∧ c ≠ '\r' := by
  by_contra hbreak
  have hcases : c = '\t' ∨ c = '\n' ∨ c = '\r' := by
    simpa only [not_and_or, not_not] using hbreak
  have hblank : isBlank c = true := by rcases hcases with rfl | rfl | rfl <;> rfl
  have hmargin : isMargin c = true := by rw [isMargin, hblank, Bool.true_or]
  have hcleaned : c ∈ cleaned text := by
    refine (mem_or_isSeparator_of_mem_collapse h).resolve_right fun hseparator => ?_
    rw [isSeparator_of_isBlank hblank] at hseparator
    cases hseparator
  obtain ⟨d, _, rfl⟩ := List.mem_map.mp (mem_of_mem_cleaned hmargin hcleaned)
  exact hbreak (flatten_ne d)

theorem Divided.framed_collapse {text : List Char} {parts : List (List (List Char))}
    (h : Divided text parts) : Framed (collapse text) := by
  induction h with
  | step h => exact h.settled.collapse_eq.symm ▸ h.framed
  | @nextStep text divider rest _ _ h hdivider _ hrest ih
  | @nextChain text divider rest _ h hdivider _ hrest ih =>
      obtain ⟨front, back, _, _, heq⟩ := hdivider.collapse_append hrest.opens
      rw [h.settled, heq]
      simpa using h.framed.append (front ++ dividing divider :: back) ih

theorem isNormal_identity : IsNormal identity where
  framed := .singleton (by decide +kernel)
  line := List.forall_mem_singleton.mpr (by decide)
  apart := apart_collapse identity
  small := by decide +kernel

/-- What the rewritings make of a text can be left as it is. -/
theorem isNormal_normalize (text : List Char) : IsNormal (normalize text) := by
  rw [normalize_eq]
  rcases framed_trim (lower (text.map flatten)) with hempty | hframed
  · have hcleaned : cleaned text = [] := hempty
    rw [hcleaned]
    exact isNormal_identity
  · obtain ⟨parts, hparts⟩ := hframed.exists_divided
    have hnormal : IsNormal (collapse (cleaned text)) := by
      refine ⟨hparts.framed_collapse, fun c => ne_break_of_mem, apart_collapse _, ?_⟩
      rw [← collapse_lower, cleaned, lower_trim, lower_lower]
    obtain ⟨c, rest, heq, _⟩ := hnormal.framed.first
    rw [heq] at hnormal ⊢
    exact hnormal

/-- The chains and steps of a divided text start and end with neither blanks nor separators. -/
theorem Divided.framed_chains {text : List Char} {parts : List (List (List Char))}
    (h : Divided text parts) : ∀ chain ∈ chains (collapse text), Framed chain := by
  induction h with
  | step h =>
      rw [h.chains_eq]
      exact List.forall_mem_singleton.mpr h.framed
  | nextStep h hdivider hstep hrest ih =>
      obtain ⟨front, back, first, pieces, _, _, _, hchains, happend⟩ :=
        h.chains_append_step hdivider hstep hrest.opens
      rw [hchains] at ih
      obtain ⟨hfirst, hpieces⟩ := List.forall_mem_cons.mp ih
      rw [happend]
      refine List.forall_mem_cons.mpr ⟨?_, hpieces⟩
      simpa using h.framed.append (front ++ stepSeparator :: back) hfirst
  | nextChain h hdivider hchain hrest ih =>
      rw [h.chains_append_chain hdivider hchain hrest.opens]
      exact List.forall_mem_cons.mpr ⟨h.framed, ih⟩

theorem Divided.isStep {text : List Char} {parts : List (List (List Char))}
    (h : Divided text parts) : ∀ steps ∈ parts, ∀ step ∈ steps, IsStep step := by
  induction h with
  | step h => exact List.forall_mem_singleton.mpr (List.forall_mem_singleton.mpr h)
  | nextStep h _ _ _ ih =>
      obtain ⟨hsteps, hchains⟩ := List.forall_mem_cons.mp ih
      exact List.forall_mem_cons.mpr ⟨List.forall_mem_cons.mpr ⟨h, hsteps⟩, hchains⟩
  | nextChain h _ _ _ ih =>
      exact List.forall_mem_cons.mpr ⟨List.forall_mem_singleton.mpr h, ih⟩

theorem IsNormal.framed_parts {text : List Char} (h : IsNormal text) :
    ∀ chain ∈ chains text, Framed chain ∧ ∀ step ∈ steps chain, Framed step := by
  obtain ⟨parts, hparts⟩ := h.framed.exists_divided
  have hchains := hparts.framed_chains
  have hsteps := hparts.map_steps
  rw [h.apart.collapse_eq] at hchains hsteps
  intro chain hchain
  refine ⟨hchains chain hchain, fun step hstep => ?_⟩
  exact (hparts.isStep (steps chain) (hsteps ▸ List.mem_map_of_mem hchain) step hstep).framed

/-- The texts that are their own normal form are those that start and end with neither
blanks nor separators, stand on one line, have something else than blanks between any
two separators and are in small letters. Every normal form is such a text, so that it
does not matter how often a text is brought into normal form, and its chains and steps
are neither empty nor surrounded by blanks. -/
theorem normal_forms_are_fixed (text : List Char) :
    (normalize text = text ↔ IsNormal text) ∧ IsNormal (normalize text) ∧
      normalize (normalize text) = normalize text ∧
      ∀ chain ∈ chains (normalize text), Framed chain ∧ ∀ step ∈ steps chain, Framed step := by
  have hnormal := isNormal_normalize text
  refine ⟨⟨fun h => ?_, IsNormal.normalize_eq⟩, hnormal, hnormal.normalize_eq, hnormal.framed_parts⟩
  exact h ▸ hnormal

/-- A capital that becomes two characters, between separators that are joined, and a sigma
at the end of a word. -/
theorem normal_forms_are_fixed_small :
    let text := " >\u0130> &\t&ΟΔΟΣ>".toList
    normalize text = "i\u0307&οδος".toList ∧ IsNormal "i\u0307&οδος".toList ∧
      Framed "οδος".toList ∧ ¬ IsNormal text := by
  intro text
  obtain ⟨hiff, hnormal, _, hparts⟩ := normal_forms_are_fixed text
  have htext : normalize text = "i\u0307&οδος".toList := by decide +kernel
  rw [htext] at hiff hnormal hparts
  refine ⟨htext, hnormal, (hparts "οδος".toList (by decide +kernel)).1, ?_⟩
  rw [← hiff]
  decide +kernel

end Easing.Definition
