import Easing.Proofs.Definition.Parts

/-! # Definitions that are in normal form

A text that was put together from lines of plain tokens has nothing that the
normal form would change: no line breaks, no capitals, no margins, and between
any two of its separators there is more than blanks.
-/

namespace Easing.Definition

open Text

/-- Whether a character stands in a definition that was put together. -/
def isPrinted (c : Char) : Bool := isPlain c || c == ' ' || c == ',' || isSeparator c

theorem flatten_of_isPrinted {c : Char} (h : isPrinted c = true) : flatten c = c := by
  refine if_neg ?_
  rintro (rfl | rfl | rfl) <;> revert h <;> decide +kernel

/-- A text of characters that are their own small forms is its own small form. -/
theorem lowerAfter_of_small {text : List Char} (h : ∀ c ∈ text, lowerForm c = [c])
    (before : List Char) : lowerAfter before text = text := by
  induction text generalizing before with
  | nil => rfl
  | cons c rest ih =>
      have hrest := ih fun d hd => h d (List.mem_cons_of_mem _ hd)
      have hc := h c List.mem_cons_self
      have hsigma : c ≠ 'Σ' := by
        rintro rfl
        revert hc
        decide +kernel
      rw [lowerAfter, if_neg hsigma, hc, hrest, List.singleton_append]

theorem lowerForm_of_isPrinted {c : Char} (h : isPrinted c = true) : lowerForm c = [c] := by
  simp only [isPrinted, Bool.or_eq_true, beq_iff_eq, isSeparator] at h
  rcases h with ((hplain | rfl) | rfl) | rfl | rfl
  · exact (isPlain_eq_true_iff.mp hplain).2.2.2
  all_goals decide +kernel

theorem collapse_cons {c : Char} (h : isSeparator c = false) (rest : List Char) :
    collapse (c :: rest) = c :: collapse rest := by
  rw [collapse, if_neg (by simp [h])]

theorem collapse_append {front : List Char} (h : ∀ c ∈ front, isBlank c = true)
    (text : List Char) : collapse (front ++ text) = front ++ collapse text := by
  induction front with
  | nil => rfl
  | cons c front ih =>
      rw [List.cons_append, collapse_cons (isSeparator_of_isBlank (h c List.mem_cons_self)),
        ih fun d hd => h d (List.mem_cons_of_mem _ hd), List.cons_append]

/-- A separator is joined with the next one if there are only blanks in between. -/
theorem collapse_cons_of_joined {c d : Char} (hc : isSeparator c = true)
    (hd : isSeparator d = true) {rest more : List Char}
    (h : (collapse rest).dropWhile isBlank = d :: more) :
    collapse (c :: rest) = joint c d :: more := by
  rw [collapse, if_pos hc, h]
  exact if_pos hd

theorem collapse_cons_of_apart {c : Char} (hc : isSeparator c = true) {rest : List Char}
    (h : ∀ d more, (collapse rest).dropWhile isBlank = d :: more → isSeparator d = false) :
    collapse (c :: rest) = c :: collapse rest := by
  rw [collapse, if_pos hc]
  split
  next d more hdrop => exact if_neg (by simp [h d more hdrop])
  next => rfl

/-- What becomes of a character that is put in front of a text: a separator is joined with
the next one if there are only blanks in between, and everything else stays. -/
inductive Collapses (c : Char) (rest : List Char) : List Char → Prop
  | kept (h : isSeparator c = true → ∀ d more, (collapse rest).dropWhile isBlank = d :: more →
      isSeparator d = false) : Collapses c rest (c :: collapse rest)
  | joined {d : Char} {more : List Char} (hd : isSeparator d = true)
      (hdrop : (collapse rest).dropWhile isBlank = d :: more) : Collapses c rest (joint c d :: more)

theorem collapses (c : Char) (rest : List Char) : Collapses c rest (collapse (c :: rest)) := by
  cases hc : isSeparator c with
  | false =>
      rw [collapse_cons hc]
      exact .kept fun h => absurd (hc.symm.trans h) Bool.false_ne_true
  | true =>
      by_cases hjoined : ∃ d more, (collapse rest).dropWhile isBlank = d :: more ∧
          isSeparator d = true
      · obtain ⟨d, more, hdrop, hd⟩ := hjoined
        rw [collapse_cons_of_joined hc hd hdrop]
        exact .joined hd hdrop
      · have hnext : ∀ d more, (collapse rest).dropWhile isBlank = d :: more →
            isSeparator d = false := by
          intro d more hdrop
          rw [← Bool.not_eq_true]
          exact fun hd => hjoined ⟨d, more, hdrop, hd⟩
        rw [collapse_cons_of_apart hc hnext]
        exact .kept fun _ => hnext

/-- A separator with none behind its blanks stays. -/
theorem collapse_of_apart {c : Char} (hc : isSeparator c = true) {blanks more : List Char}
    (hblanks : ∀ d ∈ blanks, isBlank d = true) (hmore : ∀ d ∈ more.head?, isMargin d = false) :
    collapse (c :: (blanks ++ more)) = c :: collapse (blanks ++ more) := by
  refine collapse_cons_of_apart hc fun d rest hdrop => ?_
  rw [collapse_append hblanks, List.dropWhile_append_of_pos hblanks] at hdrop
  cases more with
  | nil => cases hdrop
  | cons e more =>
      have he := hmore e rfl
      rw [collapse_cons (isSeparator_of_isMargin_eq_false he),
        List.dropWhile_cons_of_neg (by simp [isBlank_of_isMargin_eq_false he])] at hdrop
      cases hdrop
      exact isSeparator_of_isMargin_eq_false he

/-- A separator with another one behind its blanks is joined with what that becomes. -/
theorem collapse_of_joined {c e : Char} (hc : isSeparator c = true) (he : isSeparator e = true)
    {blanks rest more : List Char} (hblanks : ∀ d ∈ blanks, isBlank d = true)
    (h : collapse rest = e :: more) : collapse (c :: (blanks ++ rest)) = joint c e :: more := by
  refine collapse_cons_of_joined hc he ?_
  rw [collapse_append hblanks, h, List.dropWhile_append_of_pos hblanks,
    List.dropWhile_cons_of_neg (by simp [isBlank_of_isSeparator he])]

theorem isMargin_joint (c d : Char) : isMargin (joint c d) = true := by
  unfold joint
  split <;> rfl

/-- A text that keeps its separators, whatever follows it. -/
def Settled (text : List Char) : Prop := ∀ more, collapse (text ++ more) = text ++ collapse more

theorem Settled.of_forall {text : List Char} (h : ∀ c ∈ text, isSeparator c = false) :
    Settled text := by
  intro more
  induction text with
  | nil => rfl
  | cons c rest ih =>
      have hrest := ih fun d hd => h d (List.mem_cons_of_mem _ hd)
      rw [List.cons_append, collapse_cons (h c List.mem_cons_self), hrest, List.cons_append]

theorem Settled.of_clear {text : List Char} (h : ∀ c ∈ text, isMargin c = false) :
    Settled text :=
  .of_forall fun c hc => isSeparator_of_isMargin_eq_false (h c hc)

theorem Settled.collapse_eq {text : List Char} (h : Settled text) : collapse text = text := by
  have hempty := h []
  rwa [List.append_nil, collapse, List.append_nil] at hempty

theorem Settled.append {front back : List Char} (hfront : Settled front) (hback : Settled back) :
    Settled (front ++ back) := by
  intro more
  rw [List.append_assoc, hfront, hback, List.append_assoc]

/-- A separator between spaces stays if a framed text follows. -/
theorem Settled.spaced_append {separator : Char} {text : List Char} (hframed : Framed text)
    (h : Settled text) : Settled (spaced separator ++ text) := by
  intro more
  obtain ⟨c, rest, rfl, hc⟩ := hframed.first
  -- After the separator the next character that is not blank is no separator.
  have hblank := isBlank_of_isMargin_eq_false hc
  have hseparator := isSeparator_of_isMargin_eq_false hc
  have hspace : ∀ text, collapse (' ' :: text) = ' ' :: collapse text := fun text => rfl
  have hafter : List.dropWhile isBlank (' ' :: (c :: rest ++ collapse more)) =
      c :: (rest ++ collapse more) := by
    rw [List.dropWhile_cons_of_pos rfl, List.cons_append,
      List.dropWhile_cons_of_neg (by simp [hblank])]
  change collapse (' ' :: separator :: ' ' :: (c :: rest ++ more)) = _
  rw [hspace, collapse, hspace, h more, hafter]
  cases isSeparator separator <;> simp [hseparator, spaced]

theorem Settled.intercalate {separator : Char} {pieces : List (List Char)}
    (hframed : ∀ piece ∈ pieces, Framed piece) (h : ∀ piece ∈ pieces, Settled piece) :
    Settled ((spaced separator).intercalate pieces) := by
  induction pieces with
  | nil => exact fun more => rfl
  | cons piece rest ih =>
      cases rest with
      | nil => exact List.intercalate_singleton ▸ h piece List.mem_cons_self
      | cons next rest =>
          have hrest := ih (fun p hp => hframed p (List.mem_cons_of_mem _ hp))
            fun p hp => h p (List.mem_cons_of_mem _ hp)
          have hframe : Framed ((spaced separator).intercalate (next :: rest)) :=
            .intercalate (List.cons_ne_nil next rest) fun p hp =>
              hframed p (List.mem_cons_of_mem _ hp)
          rw [List.intercalate_cons_cons, List.append_assoc]
          exact (h piece List.mem_cons_self).append (hrest.spaced_append hframe)

/-- A definition that was put together is its own normal form. -/
theorem normalize_of_settled {text : List Char} (hframed : Framed text) (h : Settled text)
    (hprinted : ∀ c ∈ text, isPrinted c = true) : normalize text = text := by
  have hflat : text.map flatten = text :=
    (List.map_congr_left fun c hc => flatten_of_isPrinted (hprinted c hc)).trans (List.map_id text)
  rw [normalize, hflat, hframed.trim fun _ => id, h.collapse_eq, lower,
    lowerAfter_of_small fun c hc => lowerForm_of_isPrinted (hprinted c hc)]
  obtain ⟨c, rest, rfl, _⟩ := hframed.first
  rfl

/-! ## Lines of steps and of chains -/

theorem forall_mem_intercalate {P : Char → Prop} {joint : List Char} {pieces : List (List Char)}
    (hjoint : ∀ c ∈ joint, P c) (h : ∀ piece ∈ pieces, ∀ c ∈ piece, P c) :
    ∀ c ∈ joint.intercalate pieces, P c := by
  induction pieces with
  | nil => simp [List.intercalate]
  | cons piece rest ih =>
      cases rest with
      | nil => exact List.intercalate_singleton ▸ h piece List.mem_cons_self
      | cons next rest =>
          have hrest := ih fun p hp => h p (List.mem_cons_of_mem _ hp)
          rw [List.intercalate_cons_cons, List.append_assoc]
          intro c hc
          rcases List.mem_append.mp hc with hc | hc
          · exact h piece List.mem_cons_self c hc
          · exact (List.mem_append.mp hc).elim (hjoint c) (hrest c)

/-- Whether a character may stand in a line with the given separators. -/
def Admits (separators : List Char) (c : Char) : Prop :=
  isPrinted c = true ∧ (isSeparator c = true → c ∈ separators)

theorem admits_of_isPlain {separators : List Char} {c : Char} (h : isPlain c = true) :
    Admits separators c := by
  have hnot := isSeparator_of_isMargin_eq_false (isPlain_eq_true_iff.mp h).1
  simp [Admits, isPrinted, h, hnot]

theorem admits_space {separators : List Char} : Admits separators ' ' :=
  ⟨rfl, fun h => absurd h (by decide)⟩

theorem admits_comma {separators : List Char} : Admits separators ',' :=
  ⟨rfl, fun h => absurd h (by decide)⟩

/-- A line of a definition that was put together with some separators. -/
structure Line (separators : List Char) (text : List Char) : Prop where
  /-- It starts and ends with a plain character. -/
  framed : Framed text
  /-- Its separators are single. -/
  settled : Settled text
  /-- Nothing else stands in it than tokens, gaps and the separators. -/
  admits : ∀ c ∈ text, Admits separators c

namespace Line

variable {separators : List Char} {separator : Char} {lines : List (List Char)}

theorem of_framed {text : List Char} (hframed : Framed text) (h : ∀ c ∈ text, Admits [] c) :
    Line [] text := by
  refine ⟨hframed, .of_forall fun c hc => ?_, h⟩
  have hnot := (h c hc).2
  simpa using hnot

/-- The line of a step has no separators. -/
theorem stepLine {name : List Char} (hname : Word name) {arguments : List (List Char)}
    (h : ∀ word ∈ arguments, Word word) : Line [] (Definition.stepLine name arguments) := by
  cases arguments with
  | nil => exact of_framed (.of_word hname) fun c hc => admits_of_isPlain (hname.plain c hc)
  | cons first rest =>
      have hlist : Framed (comma.intercalate (first :: rest)) :=
        .intercalate (List.cons_ne_nil _ _) fun word hword => .of_word (h word hword)
      refine of_framed ((Framed.of_word hname).append [' '] hlist) ?_
      intro c hc
      rcases List.mem_append.mp hc with hc | hc
      · exact admits_of_isPlain (hname.plain c hc)
      · rcases List.mem_cons.mp hc with rfl | hc
        · exact admits_space
        · refine forall_mem_intercalate ?_ (fun word hword d hd => ?_) c hc
          · simp [comma, admits_space, admits_comma]
          · exact admits_of_isPlain ((h word hword).plain d hd)

/-- Lines that are joined by a separator are a line in which it may stand. -/
theorem intercalate (hseparator : isSeparator separator = true) (hne : lines ≠ [])
    (h : ∀ line ∈ lines, Line separators line) :
    Line (separator :: separators) ((spaced separator).intercalate lines) := by
  have hself : Admits (separator :: separators) separator :=
    ⟨by simp [isPrinted, hseparator], fun _ => List.mem_cons_self⟩
  refine ⟨.intercalate hne fun line hline => (h line hline).framed,
    .intercalate (fun line hline => (h line hline).framed) fun line hline => (h line hline).settled,
    forall_mem_intercalate ?_ fun line hline c hc => ?_⟩
  · simp [spaced, admits_space, hself]
  · obtain ⟨hprinted, hmem⟩ := (h line hline).admits c hc
    exact ⟨hprinted, fun hc => List.mem_cons_of_mem _ (hmem hc)⟩

/-- Lines in which a separator does not stand are found again between separators. -/
theorem split_spaced (hseparator : isSeparator separator = true) (hnew : separator ∉ separators)
    (hne : lines ≠ []) (h : ∀ line ∈ lines, Line separators line) :
    split separator ((spaced separator).intercalate lines) = lines := by
  refine split_intercalate hne (fun line hline => (h line hline).framed) ?_ ?_
  · intro line hline hmem
    exact hnew (((h line hline).admits separator hmem).2 hseparator)
  · rintro rfl
    cases hseparator

/-- A line is its own normal form. -/
theorem normalize {text : List Char} (h : Line separators text) :
    Definition.normalize text = text :=
  normalize_of_settled h.framed h.settled fun c hc => (h.admits c hc).1

end Line

end Easing.Definition
