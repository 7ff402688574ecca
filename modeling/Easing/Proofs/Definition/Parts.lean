import Easing.Definition.Grammar
import Easing.Number.Numeral

/-! # Texts that are taken apart as they were put together

Lines are joined by a separator between single spaces, and the tokens of a step
by spaces and commas. As long as tokens hold no character with a meaning of its
own, cutting gives back the parts. Numbers are lawful if their texts are such
tokens and read back as themselves.
-/

namespace Easing.Definition

open Text

/-- Whether a character has no meaning of its own in a definition: it divides
nothing, and it is its own small form. -/
def isPlain (c : Char) : Bool :=
  !isMargin c && !isGap c && (c != 'Σ' && lowerForm c == [c])

theorem isPlain_eq_true_iff {c : Char} :
    isPlain c = true ↔
      isMargin c = false ∧ isGap c = false ∧ c ≠ 'Σ' ∧ lowerForm c = [c] := by
  simp [isPlain, and_assoc]

/-- A nonempty text of plain characters. -/
structure Word (text : List Char) : Prop where
  ne_nil : text ≠ []
  plain : ∀ c ∈ text, isPlain c = true

/-- A text that neither starts nor ends with a blank or a separator. -/
structure Framed (text : List Char) : Prop where
  first : ∃ c rest, text = c :: rest ∧ isMargin c = false
  last : ∃ rest c, text = rest ++ [c] ∧ isMargin c = false

theorem isBlank_of_isMargin_eq_false {c : Char} (h : isMargin c = false) : isBlank c = false :=
  (Bool.or_eq_false_iff.mp h).1

theorem isSeparator_of_isMargin_eq_false {c : Char} (h : isMargin c = false) :
    isSeparator c = false :=
  (Bool.or_eq_false_iff.mp h).2

theorem isSeparator_iff {c : Char} :
    isSeparator c = true ↔ c = chainSeparator ∨ c = stepSeparator := by
  simp [isSeparator]

theorem stepSeparator_ne : stepSeparator ≠ chainSeparator := by decide

theorem isMargin_of_isSeparator {c : Char} (h : isSeparator c = true) : isMargin c = true := by
  simp [isMargin, h]

theorem isBlank_of_isMargin {c : Char} (h : isMargin c = true) (hc : isSeparator c = false) :
    isBlank c = true := by
  simpa [isMargin, hc] using h

theorem isBlank_of_isSeparator {c : Char} (h : isSeparator c = true) : isBlank c = false := by
  rcases isSeparator_iff.mp h with rfl | rfl <;> decide +kernel

theorem isSeparator_of_isBlank {c : Char} (h : isBlank c = true) : isSeparator c = false := by
  cases hc : isSeparator c with
  | false => rfl
  | true =>
      rw [isBlank_of_isSeparator hc] at h
      cases h

/-! ## Framed texts -/

namespace Framed

theorem ne_nil {text : List Char} (h : Framed text) : text ≠ [] := by
  obtain ⟨c, rest, rfl, _⟩ := h.first
  exact List.cons_ne_nil c rest

theorem of_word {text : List Char} (h : Word text) : Framed text := by
  obtain ⟨hne, hplain⟩ := h
  refine ⟨⟨text.head hne, text.tail, (List.cons_head_tail hne).symm, ?_⟩,
    ⟨text.dropLast, text.getLast hne, (List.dropLast_concat_getLast hne).symm, ?_⟩⟩
  · exact (isPlain_eq_true_iff.mp (hplain _ (List.head_mem hne))).1
  · exact (isPlain_eq_true_iff.mp (hplain _ (List.getLast_mem hne))).1

/-- What stands between two framed texts does not matter. -/
theorem append {front back : List Char} (hfront : Framed front) (middle : List Char)
    (hback : Framed back) : Framed (front ++ (middle ++ back)) := by
  obtain ⟨c, rest, rfl, hc⟩ := hfront.first
  obtain ⟨rest', d, rfl, hd⟩ := hback.last
  exact ⟨⟨c, rest ++ (middle ++ (rest' ++ [d])), rfl, hc⟩,
    ⟨c :: rest ++ (middle ++ rest'), d, by simp, hd⟩⟩

theorem intercalate {joint : List Char} {pieces : List (List Char)} (hne : pieces ≠ [])
    (h : ∀ piece ∈ pieces, Framed piece) : Framed (joint.intercalate pieces) := by
  induction pieces with
  | nil => exact absurd rfl hne
  | cons piece pieces ih =>
      have hpiece := h piece List.mem_cons_self
      cases pieces with
      | nil => exact List.intercalate_singleton ▸ hpiece
      | cons next rest =>
          rw [List.intercalate_cons_cons, List.append_assoc]
          exact hpiece.append joint
            (ih (List.cons_ne_nil _ _) fun p hp => h p (List.mem_cons_of_mem _ hp))

variable {p : Char → Bool} (hp : ∀ c, isMargin c = false → p c = false)
include hp

theorem dropFront {text : List Char} (h : Framed text) : dropFront p text = text := by
  obtain ⟨c, rest, rfl, hc⟩ := h.first
  exact List.dropWhile_cons_of_neg (by simp [hp c hc])

theorem dropBack {text : List Char} (h : Framed text) : dropBack p text = text := by
  obtain ⟨rest, c, rfl, hc⟩ := h.last
  rw [Text.dropBack, List.reverse_append, List.reverse_singleton, List.singleton_append,
    List.dropWhile_cons_of_neg (by simp [hp c hc])]
  simp

theorem trim {text : List Char} (h : Framed text) : trim p text = text := by
  rw [Text.trim, h.dropFront hp, h.dropBack hp]

end Framed

/-! ## Cutting -/

section Cut

variable {divides : Char → Bool}

theorem cut_of_forall {piece : List Char} (h : ∀ c ∈ piece, divides c = false) :
    cut divides piece = [piece] := by
  induction piece with
  | nil => rfl
  | cons c rest ih =>
      have hrest := ih fun d hd => h d (List.mem_cons_of_mem _ hd)
      simp [cut, h c List.mem_cons_self, hrest]

/-- The first piece ends at the first character that divides. -/
theorem cut_append {piece : List Char} (h : ∀ c ∈ piece, divides c = false) {d : Char}
    (hd : divides d = true) (text : List Char) :
    cut divides (piece ++ d :: text) = piece :: cut divides text := by
  induction piece with
  | nil => simp [cut, hd]
  | cons c rest ih =>
      have hrest := ih fun d hd => h d (List.mem_cons_of_mem _ hd)
      simp [cut, h c List.mem_cons_self, hrest]

end Cut

/-- What stands between the arguments of a step. -/
def comma : List Char := [',', ' ']

/-- What stands between the parts that a separator divides. -/
def spaced (separator : Char) : List Char := [' ', separator, ' ']

/-- The pieces between gaps that are not empty. -/
def words (text : List Char) : List (List Char) := (cut isGap text).filter (!·.isEmpty)

theorem Word.isGap_eq_false {word : List Char} (h : Word word) : ∀ c ∈ word, isGap c = false :=
  fun c hc => (isPlain_eq_true_iff.mp (h.plain c hc)).2.1

theorem words_of_clear {word : List Char} (hne : word ≠ [])
    (h : ∀ c ∈ word, isGap c = false) : words word = [word] := by
  simp [words, cut_of_forall h, hne]

theorem words_append {word : List Char} (hne : word ≠ []) (h : ∀ c ∈ word, isGap c = false)
    {gap : Char} (hgap : isGap gap = true) (text : List Char) :
    words (word ++ gap :: text) = word :: words text := by
  simp [words, cut_append h hgap, hne]

theorem words_gap {gap : Char} (hgap : isGap gap = true) (text : List Char) :
    words (gap :: text) = words text := by
  simp [words, cut, hgap]

theorem words_intercalate {arguments : List (List Char)} (hne : arguments ≠ [])
    (h : ∀ word ∈ arguments, Word word) : words (comma.intercalate arguments) = arguments := by
  induction arguments with
  | nil => exact absurd rfl hne
  | cons word rest ih =>
      have hword := h word List.mem_cons_self
      cases rest with
      | nil => rw [List.intercalate_singleton, words_of_clear hword.ne_nil hword.isGap_eq_false]
      | cons next rest =>
          have hrest := ih (List.cons_ne_nil _ _) fun w hw => h w (List.mem_cons_of_mem _ hw)
          rw [List.intercalate_cons_cons, List.append_assoc]
          change words (word ++ ',' :: ' ' :: comma.intercalate (next :: rest)) = _
          rw [words_append hword.ne_nil hword.isGap_eq_false rfl, words_gap rfl, hrest]

/-- The text of a name and its arguments. -/
def stepLine (name : List Char) : List (List Char) → List Char
  | [] => name
  | arguments => name ++ ' ' :: comma.intercalate arguments

/-- The tokens of a step are its name and its arguments. -/
theorem tokens_stepLine {name : List Char} (hname : Word name) {arguments : List (List Char)}
    (h : ∀ word ∈ arguments, Word word) :
    tokens (stepLine name arguments) = name :: arguments := by
  have hwords : words (stepLine name arguments) = name :: arguments := by
    cases arguments with
    | nil => exact words_of_clear hname.ne_nil hname.isGap_eq_false
    | cons word rest =>
        change words (name ++ ' ' :: comma.intercalate (word :: rest)) = _
        rw [words_append hname.ne_nil hname.isGap_eq_false rfl,
          words_intercalate (List.cons_ne_nil _ _) h]
  unfold words at hwords
  simp only [tokens, hwords]

/-! ## Splitting at a separator -/

theorem dropFront_space (text : List Char) :
    dropFront isBlank (' ' :: text) = dropFront isBlank text :=
  List.dropWhile_cons_of_pos rfl

theorem dropBack_space (text : List Char) :
    dropBack isBlank (text ++ [' ']) = dropBack isBlank text := by
  rw [dropBack, List.reverse_append, List.reverse_singleton, List.singleton_append,
    List.dropWhile_cons_of_pos rfl]
  rfl

/-- Spaces at either end are lost. -/
theorem Framed.trim_spaces {text : List Char} (h : Framed text) :
    Text.trim isBlank (' ' :: (text ++ [' '])) = text := by
  obtain ⟨c, rest, rfl, hc⟩ := h.first
  have hblank := isBlank_of_isMargin_eq_false hc
  rw [Text.trim, dropFront_space, List.cons_append, Text.dropFront,
    List.dropWhile_cons_of_neg (by simp [hblank]), ← List.cons_append, dropBack_space,
    h.dropBack fun _ => isBlank_of_isMargin_eq_false]

section Split

variable {separator : Char} {pieces : List (List Char)}

/-- A text without the separator and the space after it make up the first piece. -/
theorem cut_spaced {front : List Char} (h : ∀ c ∈ front, (c == separator) = false)
    (hspace : separator ≠ ' ') (text : List Char) :
    cut (· == separator) (front ++ spaced separator ++ text) =
      (front ++ [' ']) :: cut (· == separator) (' ' :: text) := by
  have hfree : ∀ c ∈ front ++ [' '], (c == separator) = false := by
    intro c hc
    rcases List.mem_append.mp hc with hc | hc
    · exact h c hc
    · rw [List.mem_singleton.mp hc]
      exact beq_false_of_ne hspace.symm
  rw [← cut_append hfree (beq_self_eq_true separator)]
  simp [spaced]

theorem beq_eq_false_of_not_mem {piece : List Char} (h : separator ∉ piece) :
    ∀ c ∈ piece, (c == separator) = false :=
  fun _ hc => beq_false_of_ne fun heq => h (heq ▸ hc)

/-- Of the pieces after a separator, only the spaces around them are lost. -/
theorem tidyAfter_cut (hne : pieces ≠ []) (hframed : ∀ piece ∈ pieces, Framed piece)
    (hfree : ∀ piece ∈ pieces, separator ∉ piece) (hspace : separator ≠ ' ') :
    tidyAfter (cut (· == separator) (' ' :: (spaced separator).intercalate pieces)) = pieces := by
  induction pieces with
  | nil => exact absurd rfl hne
  | cons piece rest ih =>
      have hpiece := hframed piece List.mem_cons_self
      have hclear : ∀ c ∈ ' ' :: piece, (c == separator) = false :=
        List.forall_mem_cons.mpr ⟨beq_false_of_ne hspace.symm,
          beq_eq_false_of_not_mem (hfree piece List.mem_cons_self)⟩
      cases rest with
      | nil =>
          rw [List.intercalate_singleton, cut_of_forall hclear, tidyAfter, dropFront_space,
            hpiece.dropFront fun _ => isBlank_of_isMargin_eq_false]
      | cons next rest =>
          have hrest := ih (List.cons_ne_nil _ _)
            (fun p hp => hframed p (List.mem_cons_of_mem _ hp))
            (fun p hp => hfree p (List.mem_cons_of_mem _ hp))
          rw [List.intercalate_cons_cons, ← List.cons_append, ← List.cons_append,
            cut_spaced hclear hspace]
          generalize cut (· == separator) (' ' :: (spaced separator).intercalate (next :: rest)) =
            more at hrest ⊢
          cases more with
          | nil => cases hrest
          | cons second more =>
              rw [tidyAfter, hrest, List.cons_append, hpiece.trim_spaces]
              exact List.cons_ne_nil second more

/-- Splitting undoes joining by a separator between spaces. -/
theorem split_intercalate (hne : pieces ≠ []) (hframed : ∀ piece ∈ pieces, Framed piece)
    (hfree : ∀ piece ∈ pieces, separator ∉ piece) (hspace : separator ≠ ' ') :
    split separator ((spaced separator).intercalate pieces) = pieces := by
  cases pieces with
  | nil => exact absurd rfl hne
  | cons piece rest =>
      have hpiece := hframed piece List.mem_cons_self
      have hclear := beq_eq_false_of_not_mem (hfree piece List.mem_cons_self)
      cases rest with
      | nil => rw [List.intercalate_singleton, split, cut_of_forall hclear]
      | cons next rest =>
          have hrest := tidyAfter_cut (List.cons_ne_nil next rest)
            (fun p hp => hframed p (List.mem_cons_of_mem _ hp))
            (fun p hp => hfree p (List.mem_cons_of_mem _ hp)) hspace
          rw [List.intercalate_cons_cons, split, cut_spaced hclear hspace]
          generalize cut (· == separator) (' ' :: (spaced separator).intercalate (next :: rest)) =
            more at hrest ⊢
          cases more with
          | nil => cases hrest
          | cons second more =>
              simp only [hrest, dropBack_space]
              rw [hpiece.dropBack fun _ => isBlank_of_isMargin_eq_false]

end Split

end Easing.Definition

/-- Numbers whose texts are tokens that read back as the same number. -/
class Easing.LawfulNumeral (α : Type) [Easing.Numeral α] : Prop where
  read?_text (x : α) : Easing.Numeral.read? (Easing.Numeral.text x) = some x
  word_text (x : α) : Easing.Definition.Word (Easing.Numeral.text x).toList
