import Easing.Proofs.Definition.Normal
import Mathlib.Data.List.TakeWhile

/-! # Small letters and margins

Blanks and separators are no letters and are passed over by none, so a text can be
cut at them before or after its letters are made small. Between them, the small form
of a character is never empty and holds neither blanks nor separators. Trimming and
joining separators therefore do not depend on the case of letters.
-/

namespace Easing.Definition

open Text

/-! ## The tables -/

/-- Whether a code point is that of a blank or a separator. -/
def isMarginCode (code : Nat) : Bool := inRanges blankRanges code || code == 38 || code == 62

theorem isMargin_eq (c : Char) : isMargin c = isMarginCode c.toNat := by
  have hcode (d : Char) : (c == d) = (c.toNat == d.toNat) := by
    rw [Bool.eq_iff_iff, beq_iff_eq, beq_iff_eq]
    exact ⟨congrArg _, fun h => Char.ext (UInt32.toNat_inj.mp h)⟩
  rw [isMargin, isSeparator, hcode, hcode, isBlank, isMarginCode, Bool.or_assoc]
  rfl

theorem isMargin_ofNat {code : Nat} (h : isMarginCode code = false) :
    isMargin (Char.ofNat code) = false := by
  by_cases hvalid : code.isValidChar
  · rw [Char.ofNat, dif_pos hvalid, isMargin_eq]
    exact h
  · rw [Char.ofNat, dif_neg hvalid]
    rfl

/-- What holds at every code point of some ranges holds in them. -/
theorem of_inRanges {ranges : List (Nat × Nat)} {P : Nat → Bool}
    (h : ranges.all (fun range => (List.range' range.1 (range.2 + 1 - range.1)).all P) = true)
    {code : Nat} (hcode : inRanges ranges code = true) : P code = true := by
  obtain ⟨range, hrange, hin⟩ := List.any_eq_true.mp hcode
  have hall := List.all_eq_true.mp (List.all_eq_true.mp h range hrange)
  simp only [Bool.and_eq_true, decide_eq_true_eq] at hin
  exact hall code (List.mem_range'_1.mpr ⟨hin.1, by omega⟩)

/-- Whether the tables of letter case leave a code point out. -/
def isCaseless (code : Nat) : Bool :=
  (lowerExpansions.lookup code).isNone && (partner? lowerRuns code).isNone &&
    !inRanges caseIgnorableRanges code && !inRanges casedRanges code

theorem isCaseless_of_isMargin {c : Char} (h : isMargin c = true) :
    isCaseless c.toNat = true := by
  rw [isMargin_eq] at h
  apply @of_inRanges (blankRanges ++ [(38, 38), (62, 62)]) isCaseless (by decide +kernel)
  simp only [isMarginCode, Bool.or_eq_true, beq_iff_eq] at h
  rw [inRanges, List.any_append, Bool.or_eq_true]
  rcases h with (h | h) | h
  · exact .inl h
  · exact .inr (by simp [h])
  · exact .inr (by simp [h])

theorem lowerForm_of_isMargin {c : Char} (h : isMargin c = true) : lowerForm c = [c] := by
  have hcaseless := isCaseless_of_isMargin h
  simp only [isCaseless, Bool.and_eq_true, Option.isNone_iff_eq_none] at hcaseless
  simp only [lowerForm, caseForm, hcaseless]

theorem ne_sigma_of_isMargin {c : Char} (h : isMargin c = true) : c ≠ 'Σ' := by
  rintro rfl
  revert h
  decide +kernel

/-- No capital has a margin for its partner. -/
theorem isMarginCode_partner? {code partner : Nat} (h : partner? lowerRuns code = some partner) :
    isMarginCode partner = false := by
  have htable : lowerRuns.all (fun run =>
      (List.range' run.first (run.last + 1 - run.first)).all fun code =>
        !isMarginCode ((code : Int) + run.shift).toNat) = true := by
    decide +kernel
  rw [partner?, Option.map_eq_some_iff] at h
  obtain ⟨run, hrun, rfl⟩ := h
  have hcovers := List.find?_some hrun
  have hall := List.all_eq_true.mp (List.all_eq_true.mp htable run (List.mem_of_find?_eq_some hrun))
  simp only [CaseRun.covers, Bool.and_eq_true, decide_eq_true_eq] at hcovers
  exact (Bool.not_eq_true' _).mp (hall code (List.mem_range'_1.mpr ⟨hcovers.1.1, by omega⟩))

/-- Characters of which there is one at least, and no blank or separator. -/
structure Solid (text : List Char) : Prop where
  ne_nil : text ≠ []
  solid : ∀ c ∈ text, isMargin c = false

theorem Solid.singleton {c : Char} (h : isMargin c = false) : Solid [c] :=
  ⟨List.cons_ne_nil c [], fun _ hd => List.mem_singleton.mp hd ▸ h⟩

theorem solid_lowerForm {c : Char} (h : isMargin c = false) : Solid (lowerForm c) := by
  have hexpansions : lowerExpansions.all (fun expansion => !expansion.2.isEmpty &&
      expansion.2.all fun code => !isMarginCode code) = true := by
    decide
  unfold lowerForm caseForm
  cases hlookup : lowerExpansions.lookup c.toNat with
  | some codes =>
      obtain ⟨before, after, happ, _⟩ := List.lookup_eq_some_iff.mp hlookup
      have hcodes := List.all_eq_true.mp hexpansions (c.toNat, codes) (by simp [happ])
      simp only [Bool.and_eq_true, Bool.not_eq_true', List.isEmpty_eq_false_iff,
        List.all_eq_true] at hcodes
      refine ⟨by simpa using hcodes.1, ?_⟩
      intro d hd
      obtain ⟨code, hcode, rfl⟩ := List.mem_map.mp hd
      exact isMargin_ofNat (hcodes.2 code hcode)
  | none =>
      cases hpartner : partner? lowerRuns c.toNat with
      | some partner => exact .singleton (isMargin_ofNat (isMarginCode_partner? hpartner))
      | none => exact .singleton h

/-! ## Cutting a text at a margin -/

/-- The search for a letter ends at a margin without having met one. -/
theorem meetsCased_append {c : Char} (h : isMargin c = true) (text rest : List Char) :
    meetsCased (text ++ c :: rest) = meetsCased text := by
  have hcaseless := isCaseless_of_isMargin h
  simp only [isCaseless, Bool.and_eq_true, Bool.not_eq_true'] at hcaseless
  obtain ⟨⟨_, hignorable⟩, hcased⟩ := hcaseless
  unfold meetsCased
  cases hdrop : text.dropWhile fun c => inRanges caseIgnorableRanges c.toNat with
  | nil =>
      simp only [List.dropWhile_append, hdrop, List.isEmpty_nil, if_true]
      rw [List.dropWhile_cons_of_neg (by simp [hignorable])]
      exact hcased
  | cons d more =>
      simp only [List.dropWhile_append, hdrop, List.isEmpty_cons, Bool.false_eq_true, if_false,
        List.cons_append]

/-- What stands before a margin has no influence on what follows it. -/
theorem lowerAfter_append_before {c : Char} (h : isMargin c = true)
    (near far text : List Char) : lowerAfter (near ++ c :: far) text = lowerAfter near text := by
  induction text generalizing near with
  | nil => rfl
  | cons d rest ih =>
      have hrest := ih (d :: near)
      rw [List.cons_append] at hrest
      rw [lowerAfter, lowerAfter, meetsCased_append h, hrest]

theorem lowerAfter_cons {c : Char} (h : isMargin c = true) (before rest : List Char) :
    lowerAfter before (c :: rest) = c :: lower rest := by
  have hrest := lowerAfter_append_before h [] before rest
  rw [List.nil_append] at hrest
  rw [lowerAfter, if_neg (ne_sigma_of_isMargin h), lowerForm_of_isMargin h, hrest]
  rfl

theorem lowerAfter_append {c : Char} (h : isMargin c = true) (before text rest : List Char) :
    lowerAfter before (text ++ c :: rest) = lowerAfter before text ++ c :: lower rest := by
  induction text generalizing before with
  | nil => exact lowerAfter_cons h before rest
  | cons d text ih =>
      rw [List.cons_append, lowerAfter, lowerAfter, meetsCased_append h, ih, List.append_assoc]

theorem lower_append {c : Char} (h : isMargin c = true) (text rest : List Char) :
    lower (text ++ c :: rest) = lower text ++ c :: lower rest :=
  lowerAfter_append h [] text rest

theorem lower_cons {c : Char} (h : isMargin c = true) (rest : List Char) :
    lower (c :: rest) = c :: lower rest :=
  lowerAfter_cons h [] rest

/-! ## What stands between margins -/

/-- The small form of a character, given what stands before it and after it. -/
theorem exists_lowerAfter_cons {c : Char} (h : isMargin c = false) (before rest : List Char) :
    ∃ form, Solid form ∧ lowerAfter before (c :: rest) = form ++ lowerAfter (c :: before) rest := by
  rw [lowerAfter]
  refine ⟨_, ?_, rfl⟩
  split
  next =>
    refine .singleton ?_
    split <;> decide +kernel
  next => exact solid_lowerForm h

theorem lowerAfter_of_forall {text : List Char} (h : ∀ c ∈ text, isMargin c = false)
    (before : List Char) : ∀ c ∈ lowerAfter before text, isMargin c = false := by
  induction text generalizing before with
  | nil => simp [lowerAfter]
  | cons c rest ih =>
      obtain ⟨form, hform, heq⟩ := exists_lowerAfter_cons (h c List.mem_cons_self) before rest
      rw [heq]
      intro d hd
      rcases List.mem_append.mp hd with hd | hd
      · exact hform.solid d hd
      · exact ih (fun e he => h e (List.mem_cons_of_mem _ he)) _ d hd

theorem lower_clear {text : List Char} (h : ∀ c ∈ text, isMargin c = false) :
    ∀ c ∈ lower text, isMargin c = false :=
  lowerAfter_of_forall h []

theorem exists_lowerAfter_append_singleton {c : Char} (h : isMargin c = false)
    (before text : List Char) :
    ∃ front form, Solid form ∧ lowerAfter before (text ++ [c]) = front ++ form := by
  induction text generalizing before with
  | nil =>
      obtain ⟨form, hform, heq⟩ := exists_lowerAfter_cons h before []
      exact ⟨[], form, hform, by rw [List.nil_append, heq, lowerAfter, List.append_nil]; rfl⟩
  | cons d rest ih =>
      obtain ⟨front, form, hform, heq⟩ := ih (d :: before)
      rw [List.cons_append, lowerAfter, heq, ← List.append_assoc]
      exact ⟨_, form, hform, rfl⟩

/-- The small form begins with no margin if the text does not. -/
theorem exists_lower_cons {c : Char} (h : isMargin c = false) (rest : List Char) :
    ∃ d more, lower (c :: rest) = d :: more ∧ isMargin d = false := by
  obtain ⟨form, ⟨hne, hsolid⟩, heq⟩ := exists_lowerAfter_cons h [] rest
  obtain ⟨d, more, rfl⟩ := List.exists_cons_of_ne_nil hne
  exact ⟨d, _, heq, hsolid d List.mem_cons_self⟩

theorem Framed.lower {text : List Char} (h : Framed text) : Framed (lower text) := by
  constructor
  · obtain ⟨c, rest, rfl, hc⟩ := h.first
    exact exists_lower_cons hc rest
  · obtain ⟨rest, c, rfl, hc⟩ := h.last
    obtain ⟨front, form, ⟨hne, hsolid⟩, heq⟩ := exists_lowerAfter_append_singleton hc [] rest
    refine ⟨front ++ form.dropLast, form.getLast hne, ?_, hsolid _ (List.getLast_mem hne)⟩
    rw [List.append_assoc, List.dropLast_concat_getLast]
    exact heq

/-! ## Trimming -/

theorem lower_of_forall {text : List Char} (h : ∀ c ∈ text, isMargin c = true) :
    lower text = text := by
  induction text with
  | nil => rfl
  | cons c rest ih =>
      rw [lower_cons (h c List.mem_cons_self), ih fun d hd => h d (List.mem_cons_of_mem _ hd)]

theorem lower_append_of_forall {front : List Char} (h : ∀ c ∈ front, isMargin c = true)
    (text : List Char) : lower (front ++ text) = front ++ lower text := by
  induction front with
  | nil => rfl
  | cons c rest ih =>
      rw [List.cons_append, lower_cons (h c List.mem_cons_self),
        ih fun d hd => h d (List.mem_cons_of_mem _ hd), List.cons_append]

theorem lower_append_of_forall_back {back : List Char} (h : ∀ c ∈ back, isMargin c = true)
    (text : List Char) : lower (text ++ back) = lower text ++ back := by
  cases back with
  | nil => rw [List.append_nil, List.append_nil]
  | cons c rest =>
      rw [lower_append (h c List.mem_cons_self),
        lower_of_forall fun d hd => h d (List.mem_cons_of_mem _ hd)]

/-- A text is all margin, or has a text between its margins. What holds of that is
shown for a single character, and for one that is put before the margin of a text. -/
theorem exists_between {P : List Char → Prop} (hone : ∀ c, isMargin c = false → P [c])
    (hcons : ∀ c front text, isMargin c = false → (∀ d ∈ front, isMargin d = true) → P text →
      P (c :: (front ++ text))) (text : List Char) :
    (∀ c ∈ text, isMargin c = true) ∨
      ∃ front middle back, text = front ++ (middle ++ back) ∧
        (∀ c ∈ front, isMargin c = true) ∧ P middle ∧ ∀ c ∈ back, isMargin c = true := by
  induction text with
  | nil => exact .inl fun _ h => absurd h List.not_mem_nil
  | cons c rest ih =>
      cases hc : isMargin c with
      | true =>
          rcases ih with hrest | ⟨front, middle, back, rfl, hfront, hmiddle, hback⟩
          · exact .inl (List.forall_mem_cons.mpr ⟨hc, hrest⟩)
          · exact .inr ⟨c :: front, middle, back, rfl, List.forall_mem_cons.mpr ⟨hc, hfront⟩,
              hmiddle, hback⟩
      | false =>
          rcases ih with hrest | ⟨front, middle, back, rfl, hfront, hmiddle, hback⟩
          · exact .inr ⟨[], [c], rest, rfl, by simp, hone c hc, hrest⟩
          · exact .inr ⟨[], c :: (front ++ middle), back, by simp, by simp,
              hcons c front middle hc hfront hmiddle, hback⟩

theorem Framed.singleton {c : Char} (hc : isMargin c = false) : Framed [c] :=
  ⟨⟨c, [], rfl, hc⟩, ⟨[], c, rfl, hc⟩⟩

theorem exists_framed (text : List Char) :
    (∀ c ∈ text, isMargin c = true) ∨
      ∃ front middle back, text = front ++ (middle ++ back) ∧
        (∀ c ∈ front, isMargin c = true) ∧ Framed middle ∧ ∀ c ∈ back, isMargin c = true :=
  exists_between (fun _ => .singleton)
    (fun _ front _ hc _ htext => (Framed.singleton hc).append front htext) text

theorem trim_of_forall {text : List Char} (h : ∀ c ∈ text, isMargin c = true) :
    trim isMargin text = [] := by
  have hfront : dropFront isMargin text = [] := List.dropWhile_eq_nil_iff.mpr h
  rw [trim, hfront]
  rfl

theorem Framed.dropBack_append {p : Char → Bool} (hp : ∀ c, isMargin c = false → p c = false)
    {text back : List Char} (h : Framed text) (hback : ∀ c ∈ back, p c = true) :
    Text.dropBack p (text ++ back) = text := by
  have hreverse : ∀ c ∈ back.reverse, p c = true := fun c hc => hback c (List.mem_reverse.mp hc)
  rw [Text.dropBack, List.reverse_append, List.dropWhile_append_of_pos hreverse]
  exact h.dropBack hp

/-- Trimming leaves what is between the margins. -/
theorem Framed.trim_append {front middle back : List Char}
    (hfront : ∀ c ∈ front, isMargin c = true) (h : Framed middle)
    (hback : ∀ c ∈ back, isMargin c = true) :
    Text.trim isMargin (front ++ (middle ++ back)) = middle := by
  obtain ⟨c, rest, hmiddle, hc⟩ := h.first
  have hdrop : Text.dropFront isMargin (front ++ (middle ++ back)) = middle ++ back := by
    rw [Text.dropFront, List.dropWhile_append_of_pos hfront, hmiddle, List.cons_append,
      List.dropWhile_cons_of_neg (by simp [hc])]
  rw [Text.trim, hdrop, h.dropBack_append (fun _ => id) hback]

theorem lower_trim (text : List Char) :
    lower (trim isMargin text) = trim isMargin (lower text) := by
  rcases exists_framed text with h | ⟨front, middle, back, rfl, hfront, hmiddle, hback⟩
  · rw [lower_of_forall h, trim_of_forall h]
    rfl
  · rw [hmiddle.trim_append hfront hback, lower_append_of_forall hfront,
      lower_append_of_forall_back hback, hmiddle.lower.trim_append hfront hback]

/-! ## Joining separators -/

/-- A text that is cut at its margins: nothing but other characters, or as many of
them as there are up to the first margin, and what follows. -/
inductive Cut : List Char → Prop
  | none {text : List Char} (h : ∀ c ∈ text, isMargin c = false) : Cut text
  | margin {text rest : List Char} {c : Char} (h : ∀ c ∈ text, isMargin c = false)
      (hc : isMargin c = true) (hrest : Cut rest) : Cut (text ++ c :: rest)

theorem Cut.of_text (text : List Char) : Cut text := by
  induction text with
  | nil => exact .none fun _ h => absurd h List.not_mem_nil
  | cons c rest ih =>
      cases hc : isMargin c with
      | true => exact .margin (List.forall_mem_nil _) hc ih
      | false =>
          cases ih with
          | none h => exact .none (List.forall_mem_cons.mpr ⟨hc, h⟩)
          | @margin text _ d h hd hrest =>
              exact .margin (List.forall_mem_cons.mpr ⟨hc, h⟩) hd hrest

theorem lower_dropWhile_isBlank (text : List Char) :
    lower (text.dropWhile isBlank) = (lower text).dropWhile isBlank := by
  induction text with
  | nil => rfl
  | cons c rest ih =>
      cases hc : isMargin c with
      | true =>
          rw [lower_cons hc, List.dropWhile_cons, List.dropWhile_cons]
          split
          next => exact ih
          next => exact lower_cons hc rest
      | false =>
          obtain ⟨d, more, heq, hd⟩ := exists_lower_cons hc rest
          have hc' := isBlank_of_isMargin_eq_false hc
          have hd' := isBlank_of_isMargin_eq_false hd
          rw [List.dropWhile_cons_of_neg (by simp [hc']), heq,
            List.dropWhile_cons_of_neg (by simp [hd'])]

/-- Which separators are joined does not depend on the case of the letters between
them. -/
theorem collapse_cons_lower {c : Char} (hc : isMargin c = true) {rest : List Char}
    (ih : collapse (lower rest) = lower (collapse rest)) :
    ∃ d more, isMargin d = true ∧ collapse (c :: rest) = d :: more ∧
      collapse (c :: lower rest) = d :: lower more := by
  cases hseparator : isSeparator c with
  | false =>
      exact ⟨c, collapse rest, hc, collapse_cons hseparator _, ih ▸ collapse_cons hseparator _⟩
  | true =>
      have hdrop := lower_dropWhile_isBlank (collapse rest)
      rw [← ih] at hdrop
      cases hmore : (collapse rest).dropWhile isBlank with
      | nil =>
          rw [hmore] at hdrop
          refine ⟨c, collapse rest, hc, collapse_cons_of_apart hseparator ?_, ?_⟩
          · simp [hmore]
          · rw [← ih]
            refine collapse_cons_of_apart hseparator fun d more hmore => ?_
            rw [← hdrop] at hmore
            cases hmore
      | cons d more =>
          rw [hmore] at hdrop
          cases hd : isSeparator d with
          | true =>
              rw [lower_cons (isMargin_of_isSeparator hd)] at hdrop
              exact ⟨joint c d, more, isMargin_joint c d,
                collapse_cons_of_joined hseparator hd hmore,
                collapse_cons_of_joined hseparator hd hdrop.symm⟩
          | false =>
              have hblank := List.head?_dropWhile_not isBlank (collapse rest)
              simp only [hmore, List.head?_cons] at hblank
              have hd' : isMargin d = false := by simp [isMargin, hd, hblank]
              obtain ⟨e, more', heq, he⟩ := exists_lower_cons hd' more
              rw [heq] at hdrop
              refine ⟨c, collapse rest, hc, collapse_cons_of_apart hseparator ?_, ?_⟩
              · simp [hmore, hd]
              · rw [← ih]
                refine collapse_cons_of_apart hseparator ?_
                simp [← hdrop, isSeparator_of_isMargin_eq_false he]

theorem collapse_lower (text : List Char) : collapse (lower text) = lower (collapse text) := by
  induction Cut.of_text text with
  | none h => rw [(Settled.of_clear h).collapse_eq, (Settled.of_clear (lower_clear h)).collapse_eq]
  | margin h hc _ ih =>
      obtain ⟨d, more, hd, heq, hlower⟩ := collapse_cons_lower hc ih
      rw [lower_append hc, Settled.of_clear (lower_clear h), Settled.of_clear h, hlower, heq,
        lower_append hd]

end Easing.Definition
