import Easing.Decimal.Reading
import Easing.Proofs.Text.Letters
import Mathlib.Data.Nat.Digits.Defs

/-! # Whole numbers that are read

A whole number is a run of digits with or without a sign in front of it. Between two digits an
underscore may stand, and blanks other than the information separators around it all. The texts
that are read are described without the reader, each with the number that it writes.
-/

namespace Easing.Spelling

open Text

/-- Digits of any script, each but the last one followed by an underscore or not, and their
values. -/
inductive Digits : List Char → List ℕ → Prop
  | last {c : Char} {d : ℕ} (h : digitValue? c = some d) : Digits [c] [d]
  | next {c : Char} {d : ℕ} {text : List Char} {run : List ℕ} (h : digitValue? c = some d)
      (hrest : Digits text run) : Digits (c :: text) (d :: run)
  | scored {c : Char} {d : ℕ} {text : List Char} {run : List ℕ} (h : digitValue? c = some d)
      (hrest : Digits text run) : Digits (c :: '_' :: text) (d :: run)

/-- A text with the whole number that it writes in up to 4300 digits. -/
inductive Writes (text : List Char) : ℤ → Prop
  | unsigned {digits : List Char} {run : List ℕ} (htext : Padded isPadding digits text)
      (hdigits : Digits digits run) (hlength : run.length ≤ 4300) :
      Writes text (Nat.ofDigits 10 run.reverse)
  | plus {digits : List Char} {run : List ℕ} (htext : Padded isPadding ('+' :: digits) text)
      (hdigits : Digits digits run) (hlength : run.length ≤ 4300) :
      Writes text (Nat.ofDigits 10 run.reverse)
  | minus {digits : List Char} {run : List ℕ} (htext : Padded isPadding ('-' :: digits) text)
      (hdigits : Digits digits run) (hlength : run.length ≤ 4300) :
      Writes text (-Nat.ofDigits 10 run.reverse)

variable {text digits : List Char} {run : List ℕ} {c : Char} {n : ℤ}

/-! ## Digits -/

theorem natural_eq (run : List ℕ) : (natural run : ℤ) = Nat.ofDigits 10 run.reverse := by
  have hnatural : natural run = Nat.ofDigits 10 run.reverse := by
    rw [Nat.ofDigits_eq_foldr, List.foldr_reverse, natural]
    congr 1
    funext value d
    exact add_comm _ _
  rw [hnatural, Nat.coe_ofDigits]
  rfl

theorem ofDigits_nonneg (run : List ℕ) : (0 : ℤ) ≤ Nat.ofDigits 10 run.reverse := by
  rw [← natural_eq]
  exact Int.natCast_nonneg _

/-- Digits spell zero only if all of them are zero. -/
theorem ofDigits_pos_iff (run : List ℕ) :
    (0 : ℤ) < Nat.ofDigits 10 run.reverse ↔ ∃ d ∈ run, d ≠ 0 := by
  have hzero : Nat.ofDigits 10 run.reverse = 0 ↔ ∀ d ∈ run, d = 0 := by
    constructor
    · intro h d hd
      exact Nat.digits_zero_of_eq_zero (by norm_num) h d (List.mem_reverse.mpr hd)
    · intro h
      rw [List.eq_replicate_of_mem fun d hd => h d (List.mem_reverse.mp hd),
        Nat.ofDigits_replicate_zero]
  have hcast := Nat.coe_ofDigits ℤ 10 run.reverse
  rw [Nat.cast_ofNat] at hcast
  rw [← hcast, Int.natCast_pos, Nat.pos_iff_ne_zero, ne_eq, hzero]
  push Not
  rfl

theorem isBlank_of_digitValue? {d : ℕ} (h : digitValue? c = some d) : isBlank c = false := by
  have hzeros : digitZeros.all (fun z => (List.range' z 10).all fun code =>
      !inRanges blankRanges code) = true := by
    decide +kernel
  obtain ⟨z, hz, -⟩ := Option.map_eq_some_iff.mp h
  have hcovers := List.find?_some hz
  simp only [Bool.and_eq_true, decide_eq_true_eq] at hcovers
  have hall := List.all_eq_true.mp (List.all_eq_true.mp hzeros z (List.mem_of_find?_eq_some hz))
  exact (Bool.not_eq_true' _).mp (hall c.toNat (List.mem_range'_1.mpr hcovers))

namespace Digits

/-- Digits start with a digit. -/
theorem exists_cons (h : Digits digits run) :
    ∃ c d rest, digits = c :: rest ∧ digitValue? c = some d := by
  cases h with
  | last h => exact ⟨_, _, _, rfl, h⟩
  | next h => exact ⟨_, _, _, rfl, h⟩
  | scored h => exact ⟨_, _, _, rfl, h⟩

theorem startsWithDigit (h : Digits digits run) : startsWithDigit digits = true := by
  obtain ⟨c, d, rest, rfl, hd⟩ := h.exists_cons
  rw [Spelling.startsWithDigit, hd]
  rfl

/-- Digits and underscores are not trimmed. -/
theorem isBlank_eq_false (h : Digits digits run) : ∀ c ∈ digits, isBlank c = false := by
  induction h with
  | last h => exact List.forall_mem_singleton.mpr (isBlank_of_digitValue? h)
  | next h _ ih => exact List.forall_mem_cons.mpr ⟨isBlank_of_digitValue? h, ih⟩
  | scored h _ ih =>
      exact List.forall_mem_cons.mpr
        ⟨isBlank_of_digitValue? h, List.forall_mem_cons.mpr ⟨by decide, ih⟩⟩

theorem run_ne_nil (h : Digits digits run) : run ≠ [] := by
  cases h <;> exact List.cons_ne_nil _ _

end Digits

/-- A text is a run of digits to its end if it is empty or made of digits, or if a digit goes
before it, an underscore, and digits. -/
theorem digitsFrom_eq_iff (afterDigit : Bool) :
    digitsFrom afterDigit text = (run, []) ↔
      (text = [] ∧ run = []) ∨ Digits text run ∨
        afterDigit = true ∧ ∃ rest, text = '_' :: rest ∧ Digits rest run := by
  induction text generalizing afterDigit run with
  | nil =>
      have hnone : ¬ Digits [] run := nofun
      simp [digitsFrom, hnone, eq_comm]
  | cons c rest ih =>
      rw [digitsFrom]
      cases hc : digitValue? c with
      | some d =>
          have hscore : c ≠ '_' := by
            rintro rfl
            have hnone : digitValue? '_' = none := by decide
            rw [hc] at hnone
            cases hnone
          have hrun : (d :: (digitsFrom true rest).1, (digitsFrom true rest).2) = (run, []) ↔
              ∃ more, run = d :: more ∧ digitsFrom true rest = (more, []) := by
            rcases digitsFrom true rest with ⟨more, left⟩
            grind
          refine hrun.trans ?_
          constructor
          · rintro ⟨more, rfl, hmore⟩
            rcases (ih true).mp hmore with ⟨rfl, rfl⟩ | hdigits | ⟨-, rest, rfl, hdigits⟩
            · exact .inr (.inl (.last hc))
            · exact .inr (.inl (.next hc hdigits))
            · exact .inr (.inl (.scored hc hdigits))
          · rintro (⟨h, -⟩ | hdigits | ⟨-, _, h, -⟩)
            · cases h
            · cases hdigits with
              | last h =>
                  obtain rfl := Option.some.inj (hc.symm.trans h)
                  exact ⟨[], rfl, rfl⟩
              | next h hrest =>
                  obtain rfl := Option.some.inj (hc.symm.trans h)
                  exact ⟨_, rfl, (ih true).mpr (.inr (.inl hrest))⟩
              | scored h hrest =>
                  obtain rfl := Option.some.inj (hc.symm.trans h)
                  exact ⟨_, rfl, (ih true).mpr (.inr (.inr ⟨rfl, _, rfl, hrest⟩))⟩
            · exact absurd (List.cons.inj h).1 hscore
      | none =>
          have hnot : ¬ Digits (c :: rest) run := by
            intro h
            obtain ⟨_, d, _, heq, hd⟩ := h.exists_cons
            rw [← (List.cons.inj heq).1, hc] at hd
            cases hd
          dsimp only
          by_cases hscore : (afterDigit && c == '_' && startsWithDigit rest) = true
          · rw [if_pos hscore, ih false]
            simp only [Bool.and_eq_true, beq_iff_eq] at hscore
            obtain ⟨⟨rfl, rfl⟩, hstarts⟩ := hscore
            have hne : rest ≠ [] := by
              rintro rfl
              cases hstarts
            simp [hne, hnot]
          · rw [if_neg hscore]
            refine iff_of_false (fun h => List.cons_ne_nil _ _ (Prod.mk.inj h).2) ?_
            rintro (⟨h, -⟩ | hdigits | ⟨rfl, _, h, hdigits⟩)
            · cases h
            · exact hnot hdigits
            · obtain ⟨rfl, rfl⟩ := List.cons.inj h
              exact hscore (by simp [hdigits.startsWithDigit])

theorem digitRun_eq_iff (hne : run ≠ []) : digitRun text = (run, []) ↔ Digits text run := by
  rw [digitRun, digitsFrom_eq_iff]
  simp [hne]

/-! ## Whole numbers -/

theorem isPadding_of_isBlank (h : isBlank c = false) : isPadding c = false := by
  rw [isPadding, h, Bool.false_and]

theorem Digits.isPadding_eq_false (h : Digits digits run) : ∀ c ∈ digits, isPadding c = false :=
  fun c hc => isPadding_of_isBlank (h.isBlank_eq_false c hc)

theorem Digits.isPadding_cons (h : Digits digits run) (hc : isPadding c = false) :
    ∀ d ∈ c :: digits, isPadding d = false :=
  List.forall_mem_cons.mpr ⟨hc, h.isPadding_eq_false⟩

/-- The number that a run of digits to the end of a text spells, with its sign. -/
def signed? (negative : Bool) (magnitude : List Char) : Option ℤ :=
  match digitRun magnitude with
  | (d :: run, []) =>
    if (d :: run).length ≤ 4300 then
      let value : ℤ := natural (d :: run)
      some (if negative then -value else value)
    else none
  | _ => none

theorem signed?_eq_some_iff {negative : Bool} : signed? negative text = some n ↔
    ∃ run, Digits text run ∧ run.length ≤ 4300 ∧
      n = if negative then -Nat.ofDigits 10 run.reverse else Nat.ofDigits 10 run.reverse := by
  unfold signed?
  constructor
  · split
    next d run hrun =>
      intro h
      obtain ⟨hlength, heq⟩ := Option.ite_none_right_eq_some.mp h
      refine ⟨_, (digitRun_eq_iff (List.cons_ne_nil d run)).mp hrun, hlength, ?_⟩
      rw [← natural_eq]
      exact (Option.some.inj heq).symm
    next => nofun
  · rintro ⟨run, hdigits, hlength, rfl⟩
    obtain ⟨d, more, rfl⟩ := List.exists_cons_of_ne_nil hdigits.run_ne_nil
    simp only [(digitRun_eq_iff hdigits.run_ne_nil).mpr hdigits, if_pos hlength, natural_eq]

theorem integer?_eq (text : List Char) : integer? text =
    signed? (sign (trim isPadding text)).1 (sign (trim isPadding text)).2 := rfl

theorem Digits.sign_eq (h : Digits digits run) : sign digits = (false, digits) := by
  obtain ⟨c, d, rest, rfl, hd⟩ := h.exists_cons
  unfold sign
  split
  next heq =>
    obtain ⟨rfl, -⟩ := List.cons.inj heq
    cases hd
  next heq =>
    obtain ⟨rfl, -⟩ := List.cons.inj heq
    cases hd
  next => rfl

/-- A text is read as the whole number that it writes. -/
theorem integer?_eq_some_iff : integer? text = some n ↔ Writes text n := by
  rw [integer?_eq]
  constructor
  · intro h
    have hpadded := padded_trim isPadding text
    obtain ⟨run, hdigits, hlength, rfl⟩ := signed?_eq_some_iff.mp h
    generalize trim isPadding text = word at hdigits hpadded
    unfold sign at hdigits ⊢
    split at hdigits
    next rest => exact .minus hpadded hdigits hlength
    next rest => exact .plus hpadded hdigits hlength
    next => exact .unsigned hpadded hdigits hlength
  · intro h
    cases h with
    | unsigned htext hdigits hlength =>
        rw [(trim_eq_iff hdigits.isPadding_eq_false).mpr htext, hdigits.sign_eq]
        exact signed?_eq_some_iff.mpr ⟨_, hdigits, hlength, rfl⟩
    | plus htext hdigits hlength =>
        rw [(trim_eq_iff (hdigits.isPadding_cons (by decide))).mpr htext]
        exact signed?_eq_some_iff.mpr ⟨_, hdigits, hlength, rfl⟩
    | minus htext hdigits hlength =>
        rw [(trim_eq_iff (hdigits.isPadding_cons (by decide))).mpr htext]
        exact signed?_eq_some_iff.mpr ⟨_, hdigits, hlength, rfl⟩

namespace Writes

theorem unique {m : ℤ} (h : Writes text m) (h' : Writes text n) : m = n :=
  Option.some.inj ((integer?_eq_some_iff.mpr h).symm.trans (integer?_eq_some_iff.mpr h'))

/-- A text that writes a number has something else than blanks. -/
theorem exists_solid (h : Writes text n) : ∃ c ∈ text, isBlank c = false := by
  have hdigit (front : List Char) {digits : List Char} {run : List ℕ} (hdigits : Digits digits run)
      (htext : Padded isPadding (front ++ digits) text) : ∃ c ∈ text, isBlank c = false := by
    obtain ⟨c, d, rest, rfl, hd⟩ := hdigits.exists_cons
    obtain ⟨front, back, rfl, -, -⟩ := htext
    exact ⟨c, by simp, isBlank_of_digitValue? hd⟩
  cases h with
  | unsigned htext hdigits => exact hdigit [] hdigits htext
  | plus htext hdigits => exact hdigit ['+'] hdigits htext
  | minus htext hdigits => exact hdigit ['-'] hdigits htext

/-- The negative numbers are written with a minus sign and some digit other than zero. -/
theorem exists_neg_iff : (∃ n, Writes text n ∧ n < 0) ↔
    ∃ digits run, Padded isPadding ('-' :: digits) text ∧ Digits digits run ∧
      run.length ≤ 4300 ∧ ∃ d ∈ run, d ≠ 0 := by
  constructor
  · rintro ⟨n, h, hneg⟩
    cases h with
    | @unsigned digits run htext hdigits hlength =>
        have hnonneg := ofDigits_nonneg run
        omega
    | @plus digits run htext hdigits hlength =>
        have hnonneg := ofDigits_nonneg run
        omega
    | @minus digits run htext hdigits hlength =>
        exact ⟨digits, run, htext, hdigits, hlength, (ofDigits_pos_iff run).mp (by omega)⟩
  · rintro ⟨digits, run, htext, hdigits, hlength, hpos⟩
    exact ⟨_, .minus htext hdigits hlength, neg_neg_of_pos ((ofDigits_pos_iff run).mpr hpos)⟩

end Writes

end Easing.Spelling
