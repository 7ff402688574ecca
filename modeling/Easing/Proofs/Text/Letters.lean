import Easing.Text.Case
import Mathlib.Data.List.Basic
import Mathlib.Data.List.TakeWhile

/-! # Letters with an ASCII form

A text is trimmed to a word exactly if it is that word between characters that are
trimmed. In ASCII, the full case mappings are those of ASCII. Beyond it, ten characters have
capitals that are ASCII letters, and one capital has a small form that is: if a word of ASCII
letters is looked up by its capitals, these ten count as the letters that they resemble.
-/

namespace Easing.Text

/-! ## Trimming -/

/-- A text that is a word between characters of a class. -/
def Padded (p : Char → Bool) (word text : List Char) : Prop :=
  ∃ front back, text = front ++ (word ++ back) ∧ (∀ c ∈ front, p c = true) ∧
    ∀ c ∈ back, p c = true

variable {p : Char → Bool} {word text : List Char}

theorem padded_trim (p : Char → Bool) (text : List Char) : Padded p (trim p text) text := by
  refine ⟨text.takeWhile p, ((dropFront p text).reverse.takeWhile p).reverse, ?_,
    fun c hc => List.mem_takeWhile_imp hc,
    fun c hc => List.mem_takeWhile_imp (List.mem_reverse.mp hc)⟩
  rw [trim, dropBack, ← List.reverse_append, List.takeWhile_append_dropWhile, List.reverse_reverse]
  exact List.takeWhile_append_dropWhile.symm

/-- A word without characters of the class is what its paddings are trimmed to. -/
theorem trim_eq_iff (hword : ∀ c ∈ word, p c = false) :
    trim p text = word ↔ Padded p word text := by
  constructor
  · rintro rfl
    exact padded_trim p text
  · rintro ⟨front, back, rfl, hfront, hback⟩
    have hreverse : ∀ c ∈ back.reverse, p c = true := fun c hc => hback c (List.mem_reverse.mp hc)
    have hstops (text : List Char) (htext : ∀ c ∈ text, p c = false) : text.dropWhile p = text := by
      cases text with
      | nil => rfl
      | cons c rest => exact List.dropWhile_cons_of_neg (by simp [htext c List.mem_cons_self])
    rw [trim, dropFront, List.dropWhile_append_of_pos hfront]
    cases word with
    | nil =>
        have hnone : back.dropWhile p = [] := List.dropWhile_eq_nil_iff.mpr hback
        rw [List.nil_append, hnone]
        rfl
    | cons c rest =>
        have hc : ¬ p c = true := by simp [hword c List.mem_cons_self]
        rw [List.cons_append, List.dropWhile_cons_of_neg hc, ← List.cons_append, dropBack,
          List.reverse_append, List.dropWhile_append_of_pos hreverse, hstops, List.reverse_reverse]
        exact fun d hd => hword d (List.mem_reverse.mp hd)

/-- Whether a trimmed text is one of some words without characters of the class can be told
from what it is a padding of. -/
theorem trim_iff {P : List Char → Prop} (hP : ∀ word, P word → ∀ c ∈ word, p c = false) :
    P (trim p text) ↔ ∃ word, Padded p word text ∧ P word := by
  constructor
  · exact fun h => ⟨_, padded_trim p text, h⟩
  · rintro ⟨word, hpadded, h⟩
    rwa [(trim_eq_iff (hP word h)).mpr hpadded]

/-! ## Case in ASCII -/

/-- What ASCII characters have in common: their full case mappings are those of ASCII, a change
of case does not matter to a later one, and blanks have no case. -/
structure AsciiCase (c : Char) : Prop where
  upperForm : upperForm c = [c.toUpper]
  lowerForm : lowerForm c = [c.toLower]
  toLower_toUpper : c.toUpper.toLower = c.toLower
  toUpper_toLower : c.toLower.toUpper = c.toUpper
  toLower_of_isBlank : isBlank c = true → c.toLower = c

theorem asciiCase {c : Char} (hc : c.toNat < 128) : AsciiCase c := by
  have hall : (List.range 128).all (fun code =>
      let c := Char.ofNat code
      upperForm c == [c.toUpper] && lowerForm c == [c.toLower] &&
        c.toUpper.toLower == c.toLower && c.toLower.toUpper == c.toUpper &&
        (!isBlank c || c.toLower == c)) = true := by decide +kernel
  have hcode := List.all_eq_true.mp hall c.toNat (List.mem_range.mpr hc)
  simp only [Char.ofNat_toNat, Bool.and_eq_true, beq_iff_eq, Bool.or_eq_true,
    Bool.not_eq_true'] at hcode
  obtain ⟨⟨⟨⟨hupper, hlower⟩, hlowerUpper⟩, hupperLower⟩, hblank⟩ := hcode
  exact ⟨hupper, hlower, hlowerUpper, hupperLower,
    fun h => hblank.resolve_left (by rw [h]; exact Bool.noConfusion)⟩

theorem toUpper_of_beyond {c : Char} (h : 128 ≤ c.toNat) : c.toUpper = c := by
  refine dif_neg fun hletter => ?_
  have hle : c.toNat ≤ 122 := UInt32.le_iff_toNat_le.mp hletter.2
  omega

theorem toLower_of_beyond {c : Char} (h : 128 ≤ c.toNat) : c.toLower = c := by
  refine dif_neg fun hletter => ?_
  have hle : c.toNat ≤ 90 := UInt32.le_iff_toNat_le.mp hletter.2
  omega

/-- Characters have the same capital exactly if they have the same small form. -/
theorem toUpper_eq_iff (c d : Char) : c.toUpper = d.toUpper ↔ c.toLower = d.toLower := by
  have hlower (c : Char) : c.toUpper.toLower = c.toLower := by
    rcases lt_or_ge c.toNat 128 with h | h
    · exact (asciiCase h).toLower_toUpper
    · rw [toUpper_of_beyond h]
  have hupper (c : Char) : c.toLower.toUpper = c.toUpper := by
    rcases lt_or_ge c.toNat 128 with h | h
    · exact (asciiCase h).toUpper_toLower
    · rw [toLower_of_beyond h]
  constructor
  · intro h
    rw [← hlower c, h, hlower]
  · intro h
    rw [← hupper c, h, hupper]

theorem map_toUpper_eq_iff (text word : List Char) :
    text.map Char.toUpper = word.map Char.toUpper ↔
      text.map Char.toLower = word.map Char.toLower := by
  induction text generalizing word with
  | nil => simp
  | cons c text ih =>
      cases word with
      | nil => exact iff_of_false (List.cons_ne_nil _ _) (List.cons_ne_nil _ _)
      | cons d word => simp only [List.map_cons, List.cons.injEq, toUpper_eq_iff, ih]

/-- Blanks have no case. -/
theorem toLower_of_isBlank {c : Char} (h : isBlank c = true) : c.toLower = c := by
  rcases lt_or_ge c.toNat 128 with hc | hc
  · exact (asciiCase hc).toLower_of_isBlank h
  · exact toLower_of_beyond hc

/-! ## Case beyond ASCII -/

/-- The small ASCII letters that characters beyond ASCII resemble: their capitals are those of
the letters. -/
def lookalikes : List (Char × List Char) :=
  [('ß', ['s', 's']), ('ı', ['i']), ('ſ', ['s']), ('ﬀ', ['f', 'f']), ('ﬁ', ['f', 'i']),
    ('ﬂ', ['f', 'l']), ('ﬃ', ['f', 'f', 'i']), ('ﬄ', ['f', 'f', 'l']), ('ﬅ', ['s', 't']),
    ('ﬆ', ['s', 't'])]

/-- The letters that a character resembles, which are itself if it is not listed. -/
def resembled (c : Char) : List Char := (lookalikes.lookup c).getD [c]

/-- What is listed is no blank, and its capitals are those of the letters. -/
theorem listed_lookalike : ∀ entry ∈ lookalikes,
    isBlank entry.1 = false ∧ upperForm entry.1 = entry.2.map Char.toUpper := by
  decide +kernel

/-- Blanks resemble no letters. -/
theorem resembled_of_isBlank {c : Char} (h : isBlank c = true) : resembled c = [c] := by
  unfold resembled
  cases hlookup : lookalikes.lookup c with
  | none => rfl
  | some letters =>
      obtain ⟨before, after, happ, _⟩ := List.lookup_eq_some_iff.mp hlookup
      have hnot := (listed_lookalike (c, letters) (by simp [happ])).1
      rw [h] at hnot
      cases hnot

/-- What a table maps from beyond ASCII into it, all of which is listed. -/
theorem mem_of_caseForm {expansions : List (Nat × List Nat)} {runs : List CaseRun}
    {listed : List (Char × List Char)}
    (hexpansions : expansions.all (fun e => (e.2.map Char.ofNat).any (128 ≤ ·.toNat) ||
      listed.contains (Char.ofNat e.1, e.2.map Char.ofNat)) = true)
    (hruns : runs.all (fun run => (List.range' run.first (run.last + 1 - run.first)).all fun code =>
      let partner := Char.ofNat ((code : Int) + run.shift).toNat
      decide (code < 128) || decide (128 ≤ partner.toNat) ||
        listed.contains (Char.ofNat code, [partner])) = true)
    {c : Char} (hc : 128 ≤ c.toNat) (h : ∀ d ∈ caseForm expansions runs c, d.toNat < 128) :
    (c, caseForm expansions runs c) ∈ listed := by
  unfold caseForm at h ⊢
  cases hlookup : expansions.lookup c.toNat with
  | some codes =>
      rw [hlookup] at h
      obtain ⟨before, after, happ, _⟩ := List.lookup_eq_some_iff.mp hlookup
      have hentry := List.all_eq_true.mp hexpansions (c.toNat, codes) (by simp [happ])
      rw [Bool.or_eq_true, List.any_eq_true, List.contains_iff_mem, Char.ofNat_toNat] at hentry
      refine hentry.resolve_left ?_
      rintro ⟨d, hd, hbeyond⟩
      exact absurd (h d hd) (not_lt.mpr (of_decide_eq_true hbeyond))
  | none =>
      rw [hlookup] at h
      cases hpartner : partner? runs c.toNat with
      | none =>
          rw [hpartner] at h
          exact absurd (h c List.mem_cons_self) (not_lt.mpr hc)
      | some code =>
          rw [hpartner] at h
          rw [partner?, Option.map_eq_some_iff] at hpartner
          obtain ⟨run, hrun, rfl⟩ := hpartner
          have hcovers := List.find?_some hrun
          simp only [CaseRun.covers, Bool.and_eq_true, decide_eq_true_eq] at hcovers
          have hentry := List.all_eq_true.mp
            (List.all_eq_true.mp hruns run (List.mem_of_find?_eq_some hrun)) c.toNat
            (List.mem_range'_1.mpr ⟨hcovers.1.1, by omega⟩)
          simp only [Bool.or_eq_true, decide_eq_true_eq, List.contains_iff_mem,
            Char.ofNat_toNat] at hentry
          have hpartner := h _ List.mem_cons_self
          exact hentry.resolve_left (by omega)

/-- A character beyond ASCII with capitals in ASCII is one of those that resemble letters. -/
theorem mem_of_upperForm {c : Char} (hc : 128 ≤ c.toNat) (h : ∀ d ∈ upperForm c, d.toNat < 128) :
    (c, upperForm c) ∈ lookalikes.map fun entry => (entry.1, entry.2.map Char.toUpper) :=
  mem_of_caseForm (by decide +kernel) (by decide +kernel) hc h

/-- Only the sign for kelvins has a small form in ASCII. -/
theorem mem_of_lowerForm {c : Char} (hc : 128 ≤ c.toNat) (h : ∀ d ∈ lowerForm c, d.toNat < 128) :
    (c, lowerForm c) ∈ [('\u212A', ['k'])] :=
  mem_of_caseForm (by decide +kernel) (by decide +kernel) hc h

/-- If the capitals of a character are in ASCII, then they are those of the letters that it
resembles, and the other way round. -/
theorem upperForm_eq {c : Char} (h : (∀ d ∈ upperForm c, d.toNat < 128) ∨
    ∀ d ∈ (resembled c).map Char.toUpper, d.toNat < 128) :
    upperForm c = (resembled c).map Char.toUpper := by
  unfold resembled at h ⊢
  cases hlookup : lookalikes.lookup c with
  | some letters =>
      obtain ⟨before, after, happ, _⟩ := List.lookup_eq_some_iff.mp hlookup
      exact (listed_lookalike (c, letters) (by simp [happ])).2
  | none =>
      rw [hlookup] at h
      rcases lt_or_ge c.toNat 128 with hc | hc
      · exact (asciiCase hc).upperForm
      · rcases h with h | h
        · obtain ⟨entry, hentry, heq⟩ := List.mem_map.mp (mem_of_upperForm hc h)
          obtain ⟨rfl, -⟩ := Prod.mk.inj heq
          exact absurd rfl (bne_iff_ne.mp (List.lookup_eq_none_iff.mp hlookup entry hentry))
        · have hself := h c.toUpper List.mem_cons_self
          rw [toUpper_of_beyond hc] at hself
          omega

/-- A word of ASCII is the capitals of a text exactly if it is those of the letters that the
text resembles. -/
theorem upper_eq_iff (hword : ∀ d ∈ word, d.toNat < 128) :
    upper text = word ↔ (text.flatMap resembled).map Char.toUpper = word := by
  rw [upper, List.map_flatMap]
  have hequal (h : ∀ c ∈ text, upperForm c = (resembled c).map Char.toUpper) :
      text.flatMap upperForm = text.flatMap fun c => (resembled c).map Char.toUpper :=
    List.flatMap_congr h
  constructor
  · rintro rfl
    refine (hequal fun c hc => upperForm_eq (.inl fun d hd => ?_)).symm
    exact hword d (List.mem_flatMap.mpr ⟨c, hc, hd⟩)
  · rintro rfl
    refine hequal fun c hc => upperForm_eq (.inr fun d hd => ?_)
    exact hword d (List.mem_flatMap.mpr ⟨c, hc, hd⟩)

/-- A word of ASCII letters other than `k` is the small form of a text exactly if it is that of
its ASCII letters. -/
theorem lowerAfter_eq_iff (before : List Char) (hword : ∀ d ∈ word, d.toNat < 128 ∧ d ≠ 'k') :
    lowerAfter before text = word ↔ text.map Char.toLower = word := by
  induction text generalizing before word with
  | nil => rfl
  | cons c rest ih =>
      rcases lt_or_ge c.toNat 128 with hc | hc
      · have hsigma : c ≠ 'Σ' := by
          rintro rfl
          exact absurd hc (by decide)
        rw [lowerAfter, if_neg hsigma, (asciiCase hc).lowerForm, List.singleton_append, List.map_cons]
        cases word with
        | nil => exact iff_of_false (List.cons_ne_nil _ _) (List.cons_ne_nil _ _)
        | cons d more =>
            rw [List.cons.injEq, List.cons.injEq,
              ih (c :: before) fun e he => hword e (List.mem_cons_of_mem _ he)]
      · refine iff_of_false ?_ ?_
        · rintro rfl
          rw [lowerAfter] at hword
          split at hword
          next =>
            have hfinal := (hword _ (List.mem_append_left _ List.mem_cons_self)).1
            split at hfinal <;> revert hfinal <;> decide
          next =>
            have hform := mem_of_lowerForm hc fun d hd => (hword d (List.mem_append_left _ hd)).1
            obtain ⟨-, hk⟩ := Prod.mk.inj (List.mem_singleton.mp hform)
            exact (hword 'k' (List.mem_append_left _ (hk ▸ List.mem_cons_self))).2 rfl
        · rintro rfl
          have hself := (hword _ List.mem_cons_self).1
          rw [toLower_of_beyond hc] at hself
          omega

theorem lower_eq_iff (hword : ∀ d ∈ word, d.toNat < 128 ∧ d ≠ 'k') :
    lower text = word ↔ text.map Char.toLower = word :=
  lowerAfter_eq_iff [] hword

end Easing.Text
