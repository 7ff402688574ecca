import Easing.Proofs.Definition.SmallLetters
import Easing.Proofs.Definition.Substitution
import Mathlib.Data.List.Forall2

/-! # How a definition is read

The grammar of definitions, said without the functions that bring a text into normal
form and cut it. Steps have no separators in them. Between two steps stand blanks and
separators, at least one of these, as far as there are any; a chain separator among
them ends a chain, and otherwise only a step ends. The tokens of a step are its
longest runs of characters other than blanks and commas. Every text has one reading,
which is what cutting its normal form comes to.
-/

namespace Easing.Definition

open Text

/-- A text without separators that neither starts nor ends with a blank. -/
structure IsStep (text : List Char) : Prop where
  framed : Framed text
  clear : ∀ c ∈ text, isSeparator c = false

/-- Blanks and separators, at least one of these. -/
structure IsDivider (text : List Char) : Prop where
  margin : ∀ c ∈ text, isMargin c = true
  separator : ∃ c ∈ text, isSeparator c = true

/-- The chains of a text, each with its steps. A divider reaches from one step to the
next, and these do not start or end with a blank, so it is as long as it can be. -/
inductive Divided : List Char → List (List (List Char)) → Prop
  | step {text : List Char} (h : IsStep text) : Divided text [[text]]
  | nextStep {text divider rest : List Char} {steps : List (List Char)}
      {chains : List (List (List Char))} (h : IsStep text) (hdivider : IsDivider divider)
      (hstep : chainSeparator ∉ divider) (hrest : Divided rest (steps :: chains)) :
      Divided (text ++ (divider ++ rest)) ((text :: steps) :: chains)
  | nextChain {text divider rest : List Char} {chains : List (List (List Char))}
      (h : IsStep text) (hdivider : IsDivider divider) (hchain : chainSeparator ∈ divider)
      (hrest : Divided rest chains) : Divided (text ++ (divider ++ rest)) ([text] :: chains)

/-- The longest runs of characters other than blanks and commas, in order. -/
inductive Runs : List Char → List (List Char) → Prop
  | nil : Runs [] []
  | gap {c : Char} {rest : List Char} {runs : List (List Char)} (hc : isGap c = true)
      (hrest : Runs rest runs) : Runs (c :: rest) runs
  | run {run rest : List Char} {runs : List (List Char)} (hne : run ≠ [])
      (h : ∀ c ∈ run, isGap c = false) (hend : ∀ c ∈ rest.head?, isGap c = true)
      (hrest : Runs rest runs) : Runs (run ++ rest) (run :: runs)

/-- The tokens of a step: its runs, or one empty token if it has none. -/
inductive IsTokens (text : List Char) : List (List Char) → Prop
  | runs {first : List Char} {more : List (List Char)} (h : Runs text (first :: more)) :
      IsTokens text (first :: more)
  | none (h : Runs text []) : IsTokens text [[]]

/-- A text on one line, in small letters and without margins. -/
def cleaned (text : List Char) : List Char := trim isMargin (lower (text.map flatten))

/-- The chains of a definition, each with its steps, each with its tokens. -/
inductive Reads (text : List Char) : List (List (List (List Char))) → Prop
  | identity (h : cleaned text = []) : Reads text [[[['x']]]]
  | parts {parts : List (List (List Char))} {read : List (List (List (List Char)))}
      (hparts : Divided (cleaned text) parts)
      (hread : List.Forall₂ (List.Forall₂ IsTokens) parts read) : Reads text read

/-! ## Dividers and the separators they are joined to -/

/-- The separator that a divider stands for. -/
def dividing (divider : List Char) : Char :=
  if chainSeparator ∈ divider then chainSeparator else stepSeparator

theorem dividing_of_clear {c : Char} (hc : isSeparator c = true) {blanks : List Char}
    (h : ∀ d ∈ blanks, isSeparator d = false) : dividing (c :: blanks) = c := by
  have hclear : chainSeparator ∉ blanks := fun hmem => Bool.noConfusion (h _ hmem)
  rcases isSeparator_iff.mp hc with rfl | rfl
  · simp [dividing]
  · simp [dividing, hclear, stepSeparator_ne.symm]

theorem dividing_cons_of_clear {c : Char} (hc : isSeparator c = false) (divider : List Char) :
    dividing (c :: divider) = dividing divider := by
  have hne : chainSeparator ≠ c := by
    rintro rfl
    cases hc
  simp [dividing, hne]

theorem dividing_cons {c : Char} (hc : isSeparator c = true) (divider : List Char) :
    dividing (c :: divider) = joint c (dividing divider) := by
  rcases isSeparator_iff.mp hc with rfl | rfl
  · simp [dividing, joint, stepSeparator_ne.symm]
  · by_cases hmem : chainSeparator ∈ divider <;>
      simp [dividing, joint, hmem, stepSeparator_ne.symm]

theorem isSeparator_dividing (divider : List Char) : isSeparator (dividing divider) = true := by
  unfold dividing
  split <;> rfl

/-- A text that starts with neither a blank nor a separator. -/
def Opens (text : List Char) : Prop := ∃ c rest, text = c :: rest ∧ isMargin c = false

theorem Opens.head? {text : List Char} (h : Opens text) : ∀ c ∈ text.head?, isMargin c = false := by
  obtain ⟨c, rest, rfl, hc⟩ := h
  rintro _ ⟨⟩
  exact hc

theorem Opens.collapse {text : List Char} (h : Opens text) : Opens (collapse text) := by
  obtain ⟨c, rest, rfl, hc⟩ := h
  exact ⟨c, _, collapse_cons (isSeparator_of_isMargin_eq_false hc) rest, hc⟩

theorem Opens.dropWhile_isBlank_append {text : List Char} (h : Opens text) {blanks : List Char}
    (hblanks : ∀ c ∈ blanks, isBlank c = true) :
    (blanks ++ text).dropWhile isBlank = text := by
  obtain ⟨c, rest, rfl, hc⟩ := h
  rw [List.dropWhile_append_of_pos hblanks,
    List.dropWhile_cons_of_neg (by simp [isBlank_of_isMargin_eq_false hc])]

/-- All separators of a divider are joined to one, and blanks are left on its sides. -/
theorem IsDivider.collapse_append {divider rest : List Char} (h : IsDivider divider)
    (hrest : Opens rest) :
    ∃ front back, (∀ c ∈ front, isBlank c = true) ∧ (∀ c ∈ back, isBlank c = true) ∧
      collapse (divider ++ rest) = front ++ dividing divider :: (back ++ collapse rest) := by
  induction divider with
  | nil =>
      obtain ⟨c, hc, _⟩ := h.separator
      exact absurd hc List.not_mem_nil
  | cons c divider ih =>
      obtain ⟨hmargin, hseparator⟩ := h
      have hdivider : ∀ d ∈ divider, isMargin d = true := fun d hd =>
        hmargin d (List.mem_cons_of_mem _ hd)
      by_cases hmore : ∃ d ∈ divider, isSeparator d = true
      · -- There is another separator, and what it was joined to comes next.
        obtain ⟨front, back, hfront, hback, heq⟩ := ih ⟨hdivider, hmore⟩
        cases hc : isSeparator c with
        | false =>
            have hblank := isBlank_of_isMargin (hmargin c List.mem_cons_self) hc
            refine ⟨c :: front, back, List.forall_mem_cons.mpr ⟨hblank, hfront⟩, hback, ?_⟩
            rw [List.cons_append, collapse_cons hc, heq, dividing_cons_of_clear hc]
            rfl
        | true =>
            refine ⟨[], back, by simp, hback, ?_⟩
            rw [List.cons_append, dividing_cons hc]
            have hjoined := isSeparator_dividing divider
            refine collapse_cons_of_joined hc hjoined ?_
            rw [heq, List.dropWhile_append_of_pos hfront,
              List.dropWhile_cons_of_neg (by simp [isBlank_of_isSeparator hjoined])]
      · -- Only blanks follow.
        have hclear : ∀ d ∈ divider, isSeparator d = false := by simpa using hmore
        have hblanks : ∀ d ∈ divider, isBlank d = true := fun d hd =>
          isBlank_of_isMargin (hdivider d hd) (hclear d hd)
        have hc : isSeparator c = true := by
          obtain ⟨d, hd, hseparator⟩ := hseparator
          rcases List.mem_cons.mp hd with rfl | hd
          · exact hseparator
          · exact absurd ⟨d, hd, hseparator⟩ hmore
        refine ⟨[], divider, by simp, hblanks, ?_⟩
        rw [List.cons_append, dividing_of_clear hc hclear,
          collapse_of_apart hc hblanks hrest.head?, Settled.of_forall hclear]
        rfl

/-! ## Splitting at the separator of a divider -/

section Split

variable {divides : Char → Bool} {separator : Char}

/-- Characters that do not divide belong to the first piece. -/
theorem exists_cut_append {front : List Char} (h : ∀ c ∈ front, divides c = false)
    (text : List Char) :
    ∃ first pieces, cut divides text = first :: pieces ∧
      cut divides (front ++ text) = (front ++ first) :: pieces := by
  obtain ⟨first, pieces, hcut⟩ := List.exists_cons_of_ne_nil (cut_ne_nil divides text)
  refine ⟨first, pieces, hcut, ?_⟩
  induction front with
  | nil => exact hcut
  | cons c front ih =>
      have hrest := ih fun d hd => h d (List.mem_cons_of_mem _ hd)
      simp [cut, h c List.mem_cons_self, hrest]

/-- The first piece of a text starts as the text does, whatever stands before it. -/
theorem Opens.exists_cut {rest : List Char} (h : Opens rest)
    (hseparator : isSeparator separator = true) :
    ∃ first pieces, Opens first ∧ cut (· == separator) rest = first :: pieces ∧
      ∀ front, separator ∉ front → cut (· == separator) (front ++ rest) =
        (front ++ first) :: pieces := by
  obtain ⟨c, more, rfl, hc⟩ := h
  have hclear : ∀ d ∈ [c], (d == separator) = false := by
    simp only [List.mem_singleton, forall_eq, beq_eq_false_iff_ne]
    rintro rfl
    rw [isSeparator_of_isMargin_eq_false hc] at hseparator
    cases hseparator
  obtain ⟨first, pieces, _, hcut⟩ := exists_cut_append hclear more
  refine ⟨c :: first, pieces, ⟨c, first, rfl, hc⟩, hcut, fun front hfront => ?_⟩
  obtain ⟨first', pieces', hcut', hfront'⟩ :=
    exists_cut_append (beq_eq_false_of_not_mem hfront) (c :: more)
  rw [List.singleton_append] at hcut
  rw [hcut] at hcut'
  cases hcut'
  exact hfront'

theorem dropBack_append_cons {p : Char → Bool} {c : Char} (hc : p c = false)
    (front back : List Char) :
    dropBack p (front ++ c :: back) = front ++ c :: dropBack p back := by
  simp only [dropBack, List.reverse_append, List.reverse_cons, List.append_assoc,
    List.dropWhile_append]
  split
  next hempty => simp_all
  next hempty => simp

theorem Opens.dropBack_append {text : List Char} (h : Opens text) (front : List Char) :
    Opens (dropBack isBlank text) ∧
      dropBack isBlank (front ++ text) = front ++ dropBack isBlank text := by
  obtain ⟨c, rest, rfl, hc⟩ := h
  have hblank := isBlank_of_isMargin_eq_false hc
  have hrest : dropBack isBlank (c :: rest) = c :: dropBack isBlank rest :=
    dropBack_append_cons hblank [] rest
  exact ⟨⟨c, _, hrest, hc⟩, hrest ▸ dropBack_append_cons hblank front rest⟩

theorem not_mem_of_isBlank {blanks : List Char} (hseparator : isSeparator separator = true)
    (h : ∀ c ∈ blanks, isBlank c = true) : separator ∉ blanks := by
  intro hmem
  have hblank := h separator hmem
  rw [isBlank_of_isSeparator hseparator] at hblank
  cases hblank

/-- Blanks after a separator are lost, and the rest is split as if it stood alone. -/
theorem tidyAfter_cut_append {blanks rest : List Char} (hseparator : isSeparator separator = true)
    (hblanks : ∀ c ∈ blanks, isBlank c = true) (hrest : Opens rest) :
    tidyAfter (cut (· == separator) (blanks ++ rest)) = split separator rest := by
  obtain ⟨first, pieces, hfirst, hcut, happend⟩ := hrest.exists_cut hseparator
  have hdrop := hfirst.dropWhile_isBlank_append hblanks
  rw [happend blanks (not_mem_of_isBlank hseparator hblanks), split, hcut]
  cases pieces with
  | nil => rw [tidyAfter, dropFront, hdrop]
  | cons second more => rw [tidyAfter, trim, dropFront, hdrop]; exact List.cons_ne_nil _ _

/-- Splitting at a divider, of which blanks are left on both sides. -/
theorem split_divider {text front back rest : List Char} (hseparator : isSeparator separator = true)
    (htext : Framed text) (hclear : separator ∉ text) (hfront : ∀ c ∈ front, isBlank c = true)
    (hback : ∀ c ∈ back, isBlank c = true) (hrest : Opens rest) :
    split separator (text ++ (front ++ separator :: (back ++ rest))) =
      text :: split separator rest := by
  have hpiece : separator ∉ text ++ front := fun hmem =>
    (List.mem_append.mp hmem).elim hclear (not_mem_of_isBlank hseparator hfront)
  rw [← tidyAfter_cut_append hseparator hback hrest, ← List.append_assoc, split,
    cut_append (beq_eq_false_of_not_mem hpiece) (beq_self_eq_true separator)]
  obtain ⟨first, pieces, hcut⟩ :=
    List.exists_cons_of_ne_nil (cut_ne_nil (· == separator) (back ++ rest))
  rw [hcut]
  simp only
  rw [htext.dropBack_append (fun _ => isBlank_of_isMargin_eq_false) hfront]

/-- What stands before the first separator belongs to the first piece. -/
theorem split_append {front rest : List Char} (hclear : separator ∉ front) (hrest : Opens rest)
    (hseparator : isSeparator separator = true) :
    ∃ first pieces, Opens first ∧ split separator rest = first :: pieces ∧
      split separator (front ++ rest) = (front ++ first) :: pieces := by
  obtain ⟨first, pieces, hfirst, hcut, happend⟩ := hrest.exists_cut hseparator
  rw [split, split, hcut, happend front hclear]
  cases pieces with
  | nil => exact ⟨first, [], hfirst, rfl, rfl⟩
  | cons second more =>
      obtain ⟨hopens, hback⟩ := hfirst.dropBack_append front
      exact ⟨dropBack isBlank first, _, hopens, rfl, by simp only [hback]⟩

theorem split_of_not_mem {text : List Char} (h : separator ∉ text) :
    split separator text = [text] := by
  rw [split, cut_of_forall (beq_eq_false_of_not_mem h)]

end Split

/-! ## The chains and steps of a normal form -/

theorem Divided.opens {text : List Char} {parts : List (List (List Char))}
    (h : Divided text parts) : Opens text := by
  have hstep {text : List Char} (h : IsStep text) (more : List Char) : Opens (text ++ more) := by
    obtain ⟨c, rest, rfl, hc⟩ := h.framed.first
    exact ⟨c, rest ++ more, rfl, hc⟩
  cases h with
  | step h => exact List.append_nil text ▸ hstep h []
  | nextStep h | nextChain h => exact hstep h _

theorem IsStep.not_mem {text : List Char} (h : IsStep text) {separator : Char}
    (hseparator : isSeparator separator = true) : separator ∉ text := by
  intro hmem
  rw [h.clear separator hmem] at hseparator
  cases hseparator

theorem IsStep.settled {text : List Char} (h : IsStep text) : Settled text := .of_forall h.clear

theorem IsStep.chains_eq {text : List Char} (h : IsStep text) :
    chains (collapse text) = [text] := by
  rw [h.settled.collapse_eq, chains, split_of_not_mem (h.not_mem rfl)]

/-- A step and the step separator after it belong to the chain that the rest begins with. -/
theorem IsStep.chains_append_step {text divider rest : List Char} (h : IsStep text)
    (hdivider : IsDivider divider) (hstep : chainSeparator ∉ divider) (hrest : Opens rest) :
    ∃ front back first pieces, (∀ c ∈ front, isBlank c = true) ∧ (∀ c ∈ back, isBlank c = true) ∧
      Opens first ∧ chains (collapse rest) = first :: pieces ∧
      chains (collapse (text ++ (divider ++ rest))) =
        (text ++ (front ++ stepSeparator :: (back ++ first))) :: pieces := by
  obtain ⟨front, back, hfront, hback, heq⟩ := hdivider.collapse_append hrest
  have hdividing : dividing divider = stepSeparator := if_neg hstep
  have hclear : chainSeparator ∉ text ++ (front ++ stepSeparator :: back) := by
    simp only [List.mem_append, List.mem_cons, not_or]
    exact ⟨h.not_mem rfl, not_mem_of_isBlank rfl hfront, stepSeparator_ne.symm,
      not_mem_of_isBlank rfl hback⟩
  obtain ⟨first, pieces, hfirst, hsplit, happend⟩ := split_append hclear hrest.collapse rfl
  have hjoin (more : List Char) : text ++ (front ++ stepSeparator :: (back ++ more)) =
      text ++ (front ++ stepSeparator :: back) ++ more := by
    simp
  refine ⟨front, back, first, pieces, hfront, hback, hfirst, hsplit, ?_⟩
  rw [h.settled, heq, hdividing, hjoin, chains, happend, ← hjoin]

/-- A step before a chain separator is a chain. -/
theorem IsStep.chains_append_chain {text divider rest : List Char} (h : IsStep text)
    (hdivider : IsDivider divider) (hchain : chainSeparator ∈ divider) (hrest : Opens rest) :
    chains (collapse (text ++ (divider ++ rest))) = text :: chains (collapse rest) := by
  obtain ⟨front, back, hfront, hback, heq⟩ := hdivider.collapse_append hrest
  have hdividing : dividing divider = chainSeparator := if_pos hchain
  rw [h.settled, heq, hdividing, chains,
    split_divider rfl h.framed (h.not_mem rfl) hfront hback hrest.collapse]
  rfl

/-- Cutting the text with single separators gives the chains and steps that the
grammar divides it into. The induction is on the grammar. -/
theorem Divided.map_steps {text : List Char} {parts : List (List (List Char))}
    (h : Divided text parts) : (chains (collapse text)).map steps = parts := by
  induction h with
  | step h => rw [h.chains_eq, List.map_singleton, steps, split_of_not_mem (h.not_mem rfl)]
  | nextStep h hdivider hstep hrest ih =>
      obtain ⟨front, back, first, pieces, hfront, hback, hfirst, hchains, happend⟩ :=
        h.chains_append_step hdivider hstep hrest.opens
      rw [hchains, List.map_cons, List.cons.injEq] at ih
      obtain ⟨rfl, rfl⟩ := ih
      rw [happend, List.map_cons, steps,
        split_divider rfl h.framed (h.not_mem rfl) hfront hback hfirst]
      rfl
  | @nextChain text _ _ _ h hdivider hchain hrest ih =>
      rw [h.chains_append_chain hdivider hchain hrest.opens, List.map_cons, steps,
        split_of_not_mem (h.not_mem rfl)]
      exact congrArg ([text] :: ·) ih

theorem Divided.framed {text : List Char} {parts : List (List (List Char))}
    (h : Divided text parts) : Framed text := by
  induction h with
  | step h => exact h.framed
  | nextStep h _ _ _ ih | nextChain h _ _ _ ih => exact h.framed.append _ ih

theorem IsStep.singleton {c : Char} (hc : isMargin c = false) : IsStep [c] :=
  ⟨.singleton hc, List.forall_mem_singleton.mpr (isSeparator_of_isMargin_eq_false hc)⟩

theorem IsStep.cons {c : Char} (hc : isMargin c = false) {middle text : List Char}
    (hmiddle : ∀ d ∈ middle, isSeparator d = false) (h : IsStep text) :
    IsStep (c :: (middle ++ text)) := by
  refine ⟨(Framed.singleton hc).append middle h.framed, ?_⟩
  intro d hd
  rcases List.mem_cons.mp hd with rfl | hd
  · exact isSeparator_of_isMargin_eq_false hc
  · exact (List.mem_append.mp hd).elim (hmiddle d) (h.clear d)

/-- A text without separators belongs to the step that comes after it. -/
theorem Divided.exists_cons {c : Char} (hc : isMargin c = false) {middle text : List Char}
    (hmiddle : ∀ d ∈ middle, isSeparator d = false) {parts : List (List (List Char))}
    (h : Divided text parts) : ∃ parts, Divided (c :: (middle ++ text)) parts := by
  cases h with
  | step h => exact ⟨_, .step (h.cons hc hmiddle)⟩
  | nextStep h hdivider hstep hrest =>
      rw [← List.append_assoc, ← List.cons_append]
      exact ⟨_, .nextStep (h.cons hc hmiddle) hdivider hstep hrest⟩
  | nextChain h hdivider hchain hrest =>
      rw [← List.append_assoc, ← List.cons_append]
      exact ⟨_, .nextChain (h.cons hc hmiddle) hdivider hchain hrest⟩

/-- A divider is followed by a new step or by a new chain. -/
theorem Divided.exists_append {text divider rest : List Char} (htext : IsStep text)
    (hdivider : IsDivider divider) {parts : List (List (List Char))} (h : Divided rest parts) :
    ∃ parts, Divided (text ++ (divider ++ rest)) parts := by
  by_cases hchain : chainSeparator ∈ divider
  · exact ⟨_, .nextChain htext hdivider hchain h⟩
  · obtain ⟨steps, chains, rfl⟩ : ∃ steps chains, parts = steps :: chains := by
      cases h <;> exact ⟨_, _, rfl⟩
    exact ⟨_, .nextStep htext hdivider hchain h⟩

theorem Framed.exists_divided {text : List Char} (h : Framed text) :
    ∃ parts, Divided text parts := by
  have hcons : ∀ c front text, isMargin c = false → (∀ d ∈ front, isMargin d = true) →
      (∃ parts, Divided text parts) → ∃ parts, Divided (c :: (front ++ text)) parts := by
    rintro c front text hc hfront ⟨parts, hparts⟩
    -- The margin stands behind a step, or inside of one.
    by_cases hseparator : ∃ d ∈ front, isSeparator d = true
    · exact hparts.exists_append (.singleton hc) ⟨hfront, hseparator⟩
    · exact hparts.exists_cons hc (by simpa using hseparator)
  rcases exists_between (fun c hc => ⟨_, .step (.singleton hc)⟩) hcons text with hmargin |
    ⟨front, middle, back, heq, hfront, ⟨parts, hparts⟩, hback⟩
  · obtain ⟨c, rest, rfl, hc⟩ := h.first
    rw [hmargin c List.mem_cons_self] at hc
    cases hc
  · have htrim := hparts.framed.trim_append hfront hback
    rw [← heq, h.trim fun _ => id] at htrim
    exact ⟨parts, htrim ▸ hparts⟩

theorem Framed.divided_iff {text : List Char} (h : Framed text)
    {parts : List (List (List Char))} :
    Divided text parts ↔ (chains (collapse text)).map steps = parts := by
  refine ⟨Divided.map_steps, ?_⟩
  rintro rfl
  obtain ⟨parts, hparts⟩ := h.exists_divided
  exact hparts.map_steps.symm ▸ hparts

/-! ## Tokens -/

theorem Runs.words_eq {text : List Char} {runs : List (List Char)} (h : Runs text runs) :
    words text = runs := by
  induction h with
  | nil => rfl
  | gap hc _ ih => rw [words_gap hc, ih]
  | @run run rest runs hne hclear hend _ ih =>
      cases rest with
      | nil =>
          subst ih
          rw [List.append_nil, words_of_clear hne hclear]
          rfl
      | cons gap rest =>
          have hgap : isGap gap = true := hend gap rfl
          rw [words_append hne hclear hgap, ← words_gap hgap, ih]

theorem exists_runs (text : List Char) : ∃ runs, Runs text runs := by
  induction text with
  | nil => exact ⟨[], .nil⟩
  | cons c rest ih =>
      obtain ⟨runs, hruns⟩ := ih
      cases hc : isGap c with
      | true => exact ⟨runs, .gap hc hruns⟩
      | false =>
          have hself : ∀ d ∈ [c], isGap d = false := by simpa using hc
          cases hruns with
          | nil => exact ⟨[[c]], .run (List.cons_ne_nil c []) hself (by simp) .nil⟩
          | gap hd hrest =>
              exact ⟨_, .run (List.cons_ne_nil c []) hself (by simpa using hd) (.gap hd hrest)⟩
          | @run run rest runs hne h hend hrest =>
              rw [← List.cons_append]
              exact ⟨_, .run (List.cons_ne_nil c run) (List.forall_mem_cons.mpr ⟨hc, h⟩) hend hrest⟩

theorem runs_iff {text : List Char} {runs : List (List Char)} :
    Runs text runs ↔ words text = runs := by
  refine ⟨Runs.words_eq, ?_⟩
  rintro rfl
  obtain ⟨runs, hruns⟩ := exists_runs text
  exact hruns.words_eq.symm ▸ hruns

theorem tokens_eq (text : List Char) :
    tokens text = match words text with
      | [] => [[]]
      | found => found := rfl

theorem isTokens_iff {text : List Char} {found : List (List Char)} :
    IsTokens text found ↔ tokens text = found := by
  rw [tokens_eq]
  constructor
  · rintro (h | h)
    · rw [h.words_eq]
    · rw [h.words_eq]
  · cases hwords : words text with
    | nil =>
        rintro rfl
        exact .none (runs_iff.mpr hwords)
    | cons first more =>
        rintro rfl
        exact .runs (runs_iff.mpr hwords)

/-! ## Definitions -/

theorem normalize_eq (text : List Char) :
    normalize text = match collapse (cleaned text) with
      | [] => identity
      | normal => normal := by
  have hsmall : lower (collapse (trim isMargin (text.map flatten))) = collapse (cleaned text) := by
    rw [cleaned, ← lower_trim, collapse_lower]
  exact congrArg (fun | [] => identity | normal => normal) hsmall

theorem framed_trim (text : List Char) :
    trim isMargin text = [] ∨ Framed (trim isMargin text) := by
  rcases exists_framed text with h | ⟨front, middle, back, rfl, hfront, hmiddle, hback⟩
  · exact .inl (trim_of_forall h)
  · rw [hmiddle.trim_append hfront hback]
    exact .inr hmiddle

theorem forall₂_iff_map_eq {β γ : Type} {R : β → γ → Prop} {f : β → γ}
    (h : ∀ b c, R b c ↔ f b = c) (bs : List β) (cs : List γ) :
    List.Forall₂ R bs cs ↔ bs.map f = cs := by
  have hR : R = fun b c => f b = c := funext₂ fun b c => propext (h b c)
  rw [hR, ← List.forall₂_map_left_iff, List.forall₂_eq_eq_eq]

theorem reads_iff (text : List Char) (read : List (List (List (List Char)))) :
    Reads text read ↔
      (chains (normalize text)).map (fun chain => (steps chain).map tokens) = read := by
  rw [normalize_eq]
  rcases framed_trim (lower (text.map flatten)) with hempty | hframed
  · have hcleaned : cleaned text = [] := hempty
    rw [hcleaned]
    constructor
    · rintro (_ | ⟨hparts, _⟩)
      · rfl
      · rw [hcleaned] at hparts
        obtain ⟨_, _, h, _⟩ := hparts.opens
        cases h
    · rintro rfl
      exact .identity hcleaned
  · have hcleaned : Framed (cleaned text) := hframed
    obtain ⟨c, rest, hopens, _⟩ := Opens.collapse hcleaned.first
    have hnormal : (match collapse (cleaned text) with
        | [] => identity
        | normal => normal) = collapse (cleaned text) := by
      rw [hopens]
    have hread (parts : List (List (List Char))) :
        List.Forall₂ (List.Forall₂ IsTokens) parts read ↔ parts.map (·.map tokens) = read :=
      forall₂_iff_map_eq (forall₂_iff_map_eq (f := tokens) fun _ _ => isTokens_iff) parts read
    rw [hnormal]
    constructor
    · rintro (hidentity | ⟨hparts, htokens⟩)
      · exact absurd hidentity hcleaned.ne_nil
      · rw [← (hread _).mp htokens, ← hparts.map_steps, List.map_map]
        rfl
    · intro h
      refine .parts (hcleaned.divided_iff.mpr rfl) ((hread _).mpr ?_)
      rw [List.map_map]
      exact h

/-- The normal form joins separators by the two substitutions, one after the other,
and cutting it into chains, steps and tokens gives the one reading of the text. -/
theorem has_one_reading (text : List Char) :
    normalize text =
        (match lower (joinMixed (joinSteps (trim isMargin (text.map flatten)))) with
          | [] => ['x']
          | normal => normal) ∧
      ∀ read, Reads text read ↔
        (chains (normalize text)).map (fun chain => (steps chain).map tokens) = read := by
  refine ⟨?_, reads_iff text⟩
  rw [← collapse_eq]
  rfl

/-- A chain separator wins over the step separators around it, and a step may hold
nothing but commas. -/
example : (chains (normalize " > Sin > >\tExp 3,,2 > & >,".toList)).map
    (fun chain => (steps chain).map tokens) =
      [[["sin".toList], ["exp".toList, ['3'], ['2']]], [[[]]]] := by
  decide +kernel

end Easing.Definition
