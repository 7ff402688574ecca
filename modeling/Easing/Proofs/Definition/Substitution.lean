import Easing.Proofs.Definition.Normal
import Mathlib.Data.List.TakeWhile

/-! # Joining separators by two substitutions

Separators can be joined by replacing runs of them from left to right: first each
run of step separators by one of them, and then each run of separators of either kind
by a chain separator. In this order a run of step separators is no run any more when
the second substitution comes to it.
-/

namespace Easing.Definition

open Text

variable {p : Char → Bool}

/-- What follows the longest run of characters of a class, blanks before each of them
included, that a text starts with, if it starts with one. -/
def runEnd? (p : Char → Bool) : List Char → Option (List Char)
  | [] => none
  | c :: rest =>
    if isBlank c then runEnd? p rest
    else if p c then some ((runEnd? p rest).getD rest)
    else none

theorem length_of_runEnd? {text after : List Char} (h : runEnd? p text = some after) :
    after.length < text.length := by
  induction text generalizing after with
  | nil => cases h
  | cons c rest ih =>
      rw [runEnd?] at h
      rw [List.length_cons]
      split at h
      next => exact Nat.lt_succ_of_lt (ih h)
      next =>
        split at h
        next =>
          cases hrest : runEnd? p rest with
          | none => simp_all
          | some found =>
              have hlength := ih hrest
              simp only [hrest, Option.getD_some, Option.some.injEq] at h
              subst h
              omega
        next => cases h

/-- Replaces a character of a class and the run of them that follows it by a single
character, from left to right. A character without a run stays. -/
def replaceRuns (p : Char → Bool) (replacement : Char) : List Char → List Char
  | [] => []
  | c :: rest =>
    if p c then
      match h : runEnd? p rest with
      | some after =>
        have := length_of_runEnd? h
        replacement :: replaceRuns p replacement after
      | none => c :: replaceRuns p replacement rest
    else c :: replaceRuns p replacement rest
termination_by text => text.length

theorem replaceRuns_cons_of_not {c : Char} (h : p c = false) (replacement : Char)
    (rest : List Char) :
    replaceRuns p replacement (c :: rest) = c :: replaceRuns p replacement rest := by
  rw [replaceRuns, if_neg (by simp [h])]

theorem replaceRuns_cons {c : Char} (h : p c = true) (replacement : Char) (rest : List Char) :
    replaceRuns p replacement (c :: rest) =
      (if (runEnd? p rest).isSome then replacement else c) ::
        replaceRuns p replacement ((runEnd? p rest).getD rest) := by
  rw [replaceRuns, if_pos h]
  split
  next after hafter => simp [hafter]
  next hnone => simp [hnone]

theorem runEnd?_append {blanks : List Char} (h : ∀ c ∈ blanks, isBlank c = true)
    (text : List Char) : runEnd? p (blanks ++ text) = runEnd? p text := by
  induction blanks with
  | nil => rfl
  | cons c blanks ih =>
      rw [List.cons_append, runEnd?, if_pos (h c List.mem_cons_self),
        ih fun d hd => h d (List.mem_cons_of_mem _ hd)]

theorem replaceRuns_append {front : List Char} (h : ∀ c ∈ front, p c = false)
    (replacement : Char) (text : List Char) :
    replaceRuns p replacement (front ++ text) = front ++ replaceRuns p replacement text := by
  induction front with
  | nil => rfl
  | cons c front ih =>
      rw [List.cons_append, replaceRuns_cons_of_not (h c List.mem_cons_self),
        ih fun d hd => h d (List.mem_cons_of_mem _ hd), List.cons_append]

theorem runEnd?_cons {c : Char} (hc : p c = true) (hblank : isBlank c = false)
    (rest : List Char) : runEnd? p (c :: rest) = some ((runEnd? p rest).getD rest) := by
  rw [runEnd?, if_neg (by simp [hblank]), if_pos hc]

theorem runEnd?_eq_none {text : List Char}
    (h : ∀ c ∈ text.head?, isBlank c = false ∧ p c = false) : runEnd? p text = none := by
  cases text with
  | nil => rfl
  | cons c rest =>
      obtain ⟨hblank, hc⟩ := h c rfl
      rw [runEnd?, if_neg (by simp [hblank]), if_neg (by simp [hc])]

/-! ## First step separators, then all -/

/-- Runs of step separators by one of them. -/
def joinSteps : List Char → List Char := replaceRuns (· == stepSeparator) stepSeparator

/-- Runs of separators of either kind by a chain separator. -/
def joinMixed : List Char → List Char := replaceRuns isSeparator chainSeparator

theorem joinSteps_append {front : List Char} (h : ∀ c ∈ front, isSeparator c = false)
    (text : List Char) : joinSteps (front ++ text) = front ++ joinSteps text :=
  replaceRuns_append (fun c hc => (Bool.or_eq_false_iff.mp (h c hc)).2) _ text

theorem joinMixed_append {front : List Char} (h : ∀ c ∈ front, isSeparator c = false)
    (text : List Char) : joinMixed (front ++ text) = front ++ joinMixed text :=
  replaceRuns_append h _ text

theorem joinSteps_step (rest : List Char) :
    joinSteps (stepSeparator :: rest) =
      stepSeparator :: joinSteps ((runEnd? (· == stepSeparator) rest).getD rest) := by
  rw [joinSteps, replaceRuns_cons (by decide), ite_self]

theorem joinSteps_chain (rest : List Char) :
    joinSteps (chainSeparator :: rest) = chainSeparator :: joinSteps rest :=
  replaceRuns_cons_of_not (by decide) _ rest

/-- The first of some separators stays. -/
theorem exists_joinSteps {c : Char} (hc : isSeparator c = true) (rest : List Char) :
    ∃ more, joinSteps (c :: rest) = c :: more := by
  rcases isSeparator_iff.mp hc with rfl | rfl
  · exact ⟨_, joinSteps_chain rest⟩
  · exact ⟨_, joinSteps_step rest⟩

theorem joinMixed_cons {c : Char} (hc : isSeparator c = true) (rest : List Char) :
    joinMixed (c :: rest) = (if (runEnd? isSeparator rest).isSome then chainSeparator else c) ::
      joinMixed ((runEnd? isSeparator rest).getD rest) :=
  replaceRuns_cons hc _ rest

section Separator

variable {c d : Char} {blanks : List Char} (hc : isSeparator c = true)
  (hblanks : ∀ d ∈ blanks, isBlank d = true)
include hc hblanks

/-- A separator with none behind its blanks stays. -/
theorem joinMixed_joinSteps_of_apart {more : List Char}
    (hmore : ∀ d ∈ more.head?, isMargin d = false) :
    joinMixed (joinSteps (c :: (blanks ++ more))) =
      c :: joinMixed (joinSteps (blanks ++ more)) := by
  have hclear : ∀ d ∈ blanks, isSeparator d = false := fun d hd =>
    isSeparator_of_isBlank (hblanks d hd)
  have hsteps : joinSteps (c :: (blanks ++ more)) = c :: joinSteps (blanks ++ more) := by
    rcases isSeparator_iff.mp hc with rfl | rfl
    · exact joinSteps_chain _
    · have hnone : runEnd? (· == stepSeparator) (blanks ++ more) = none := by
        rw [runEnd?_append hblanks]
        refine runEnd?_eq_none fun d hd => ?_
        have hd := hmore d hd
        exact ⟨isBlank_of_isMargin_eq_false hd,
          (Bool.or_eq_false_iff.mp (isSeparator_of_isMargin_eq_false hd)).2⟩
      rw [joinSteps_step, hnone, Option.getD_none]
  have hnone : runEnd? isSeparator (joinSteps (blanks ++ more)) = none := by
    rw [joinSteps_append hclear, runEnd?_append hblanks]
    refine runEnd?_eq_none ?_
    cases more with
    | nil => simp [joinSteps, replaceRuns]
    | cons d more =>
        have hd := hmore d rfl
        have hd' : ∀ c ∈ [d], isSeparator c = false :=
          List.forall_mem_singleton.mpr (isSeparator_of_isMargin_eq_false hd)
        have hstays : joinSteps (d :: more) = d :: joinSteps more := joinSteps_append hd' more
        simpa [hstays] using
          ⟨isBlank_of_isMargin_eq_false hd, isSeparator_of_isMargin_eq_false hd⟩
  rw [hsteps, joinMixed_cons hc, hnone]
  rfl

/-- A separator with another one behind its blanks is joined with what that becomes. -/
theorem joinMixed_joinSteps_of_joined (hd : isSeparator d = true) (rest : List Char) :
    ∃ e more, isSeparator e = true ∧ joinMixed (joinSteps (d :: rest)) = e :: more ∧
      joinMixed (joinSteps (c :: (blanks ++ d :: rest))) = joint c e :: more := by
  obtain ⟨after, hafter⟩ := exists_joinSteps hd rest
  have hjoined := joinMixed_cons hd after
  rw [← hafter] at hjoined
  have hkind : isSeparator (if (runEnd? isSeparator after).isSome then chainSeparator else d) =
      true := by
    split
    · rfl
    · exact hd
  refine ⟨_, _, hkind, hjoined, ?_⟩
  by_cases hboth : c = stepSeparator ∧ d = stepSeparator
  · -- The first substitution makes one step separator of both.
    obtain ⟨rfl, rfl⟩ := hboth
    have hsame : joinSteps (stepSeparator :: (blanks ++ stepSeparator :: rest)) =
        joinSteps (stepSeparator :: rest) := by
      rw [joinSteps_step, joinSteps_step, runEnd?_append hblanks,
        runEnd?_cons (by decide) (isBlank_of_isSeparator rfl), Option.getD_some]
    rw [hsame, hjoined]
    split <;> simp [joint, stepSeparator_ne.symm]
  · -- The first substitution leaves both to the second.
    have hclear : ∀ d ∈ blanks, isSeparator d = false := fun d hd =>
      isSeparator_of_isBlank (hblanks d hd)
    have hstays : joinSteps (c :: (blanks ++ d :: rest)) = c :: (blanks ++ d :: after) := by
      have hrest : joinSteps (blanks ++ d :: rest) = blanks ++ d :: after := by
        rw [joinSteps_append hclear, hafter]
      rcases isSeparator_iff.mp hc with rfl | rfl
      · rw [joinSteps_chain, hrest]
      · have hne : d ≠ stepSeparator := fun h => hboth ⟨rfl, h⟩
        have hnone : runEnd? (· == stepSeparator) (blanks ++ d :: rest) = none := by
          rw [runEnd?_append hblanks]
          exact runEnd?_eq_none (by simp [hne, isBlank_of_isSeparator hd])
        rw [joinSteps_step, hnone, Option.getD_none, hrest]
    have hjoint : joint c (if (runEnd? isSeparator after).isSome then chainSeparator else d) =
        chainSeparator := by
      refine if_neg fun ⟨hstep, hkind⟩ => ?_
      split at hkind
      · exact stepSeparator_ne hkind.symm
      · exact hboth ⟨hstep, hkind⟩
    rw [hstays, hjoint, joinMixed_cons hc, runEnd?_append hblanks,
      runEnd?_cons hd (isBlank_of_isSeparator hd)]
    rfl

end Separator

theorem exists_blanks (text : List Char) :
    ∃ blanks more, text = blanks ++ more ∧ (∀ d ∈ blanks, isBlank d = true) ∧
      ∀ d ∈ more.head?, isBlank d = false := by
  refine ⟨text.takeWhile isBlank, text.dropWhile isBlank, List.takeWhile_append_dropWhile.symm,
    fun d hd => List.mem_takeWhile_imp hd, ?_⟩
  intro d hd
  have hnot := List.head?_dropWhile_not isBlank text
  rw [Option.mem_def] at hd
  simpa only [hd] using hnot

/-- Joining separators from right to left comes to the same as the two substitutions,
one after the other. The induction is on the length, as a separator is joined with one
that may be far behind it. -/
theorem collapse_eq (text : List Char) : collapse text = joinMixed (joinSteps text) := by
  induction hlength : text.length using Nat.strongRecOn generalizing text with
  | ind length ih =>
      cases text with
      | nil => simp [collapse, joinSteps, joinMixed, replaceRuns]
      | cons c rest =>
          have hrest : collapse rest = joinMixed (joinSteps rest) :=
            ih rest.length (by simp [← hlength]) rest rfl
          cases hc : isSeparator c with
          | false =>
              have hfront : ∀ d ∈ [c], isSeparator d = false := by simpa using hc
              have hsteps := joinSteps_append hfront rest
              have hmixed := joinMixed_append hfront (joinSteps rest)
              simp only [List.singleton_append] at hsteps hmixed
              rw [collapse_cons hc, hrest, hsteps, hmixed]
          | true =>
              obtain ⟨blanks, more, rfl, hblanks, hmore⟩ := exists_blanks rest
              by_cases hmargin : ∀ d ∈ more.head?, isMargin d = false
              · rw [collapse_of_apart hc hblanks hmargin, hrest,
                  joinMixed_joinSteps_of_apart hc hblanks hmargin]
              -- Behind the blanks is another separator.
              · cases more with
                | nil => simp at hmargin
                | cons d more =>
                    have hd : isSeparator d = true := by simpa [isMargin, hmore d rfl] using hmargin
                    obtain ⟨e, after, he, hjoined, heq⟩ :=
                      joinMixed_joinSteps_of_joined hc hblanks hd more
                    have hshorter : (d :: more).length < length := by
                      simp only [← hlength, List.length_cons, List.length_append]
                      omega
                    have hafter : collapse (d :: more) = e :: after :=
                      (ih _ hshorter (d :: more) rfl).trans hjoined
                    rw [collapse_of_joined hc he hblanks hafter, heq]

end Easing.Definition
