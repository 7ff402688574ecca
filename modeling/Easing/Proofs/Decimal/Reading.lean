import Easing.Decimal.Reading
import Mathlib

/-! # Decimals that are read as they were written

Every layout of a decimal is a run of digits, with a point or an exponent after
some of them. Such a text reads as a number of the same value, though its digits
may count the zeros that the layout added.
-/

namespace Easing

open Text

/-! ## Runs of digits -/

/-- The value of a digit. -/
def digitOf (c : Char) : ℕ := c.toNat - '0'.toNat

theorem digitValue?_of_isDigit {c : Char} (h : c.isDigit = true) :
    digitValue? c = some (digitOf c) := by
  obtain ⟨hlow, hhigh⟩ := Char.isDigit_iff_toNat.mp h
  change 48 ≤ c.toNat at hlow
  change c.toNat ≤ 57 at hhigh
  have hfind : digitZeros.find? (fun z => z ≤ c.toNat && c.toNat < z + 10) = some 48 := by
    rw [show digitZeros = 48 :: digitZeros.tail by rfl]
    refine List.find?_cons_of_pos ?_
    rw [Bool.and_eq_true, decide_eq_true_eq, decide_eq_true_eq]
    omega
  rw [digitValue?, hfind]
  rfl

namespace Spelling

/-- A text that does not continue a run of digits. -/
def Stops (text : List Char) : Prop := ∀ c ∈ text.head?, digitValue? c = none ∧ c ≠ '_'

theorem stops_nil : Stops [] := by simp [Stops]

theorem stops_cons {c : Char} (h : digitValue? c = none ∧ c ≠ '_') (rest : List Char) :
    Stops (c :: rest) := by simpa [Stops] using h

variable {run whole fraction tail : List Char}

theorem digitsFrom_append (hrun : ∀ c ∈ run, c.isDigit = true) (htail : Stops tail)
    (afterDigit : Bool) : digitsFrom afterDigit (run ++ tail) = (run.map digitOf, tail) := by
  induction run generalizing afterDigit with
  | nil =>
      cases tail with
      | nil => rfl
      | cons c rest =>
          obtain ⟨hdigit, hscore⟩ := htail c rfl
          simp [digitsFrom, hdigit, hscore]
  | cons c rest ih =>
      have hc := digitValue?_of_isDigit (hrun c List.mem_cons_self)
      have hrest := ih (fun d hd => hrun d (List.mem_cons_of_mem _ hd)) true
      rw [List.cons_append, digitsFrom, hc]
      simp only [hrest, List.map_cons]

/-- A run of digits ends where something else starts. -/
theorem digitRun_append (hrun : ∀ c ∈ run, c.isDigit = true) (htail : Stops tail) :
    digitRun (run ++ tail) = (run.map digitOf, tail) := digitsFrom_append hrun htail false

theorem natural_map (run : List Char) : natural (run.map digitOf) = Nat.ofDigitChars 10 run 0 := by
  rw [natural, List.foldl_map]
  rfl

/-! ## Texts of decimals -/

/-- The digits after a point, if there is one, and what follows them. -/
def afterPoint : List Char → List ℕ × List Char
  | '.' :: more => digitRun more
  | text => ([], text)

theorem afterPoint_of_head? (h : ∀ c ∈ tail.head?, c ≠ '.') : afterPoint tail = ([], tail) := by
  unfold afterPoint
  split
  next more => exact absurd rfl (h '.' rfl)
  next => rfl

/-- The three parts of a number are found one after the other. -/
theorem decimal?_of_parts {text rest : List Char} {w f : List ℕ} {power : ℤ} (negative : Bool)
    (hwhole : digitRun text = (w, rest)) (hfraction : afterPoint rest = (f, tail)) (hne : w ≠ [])
    (hpower : exponent? tail = some power) :
    decimal? negative text = some (.decimal negative (natural (w ++ f)) (power - f.length)) := by
  obtain ⟨d, run, rfl⟩ := List.exists_cons_of_ne_nil hne
  unfold decimal?
  simp only [hwhole]
  clear hwhole hne
  unfold afterPoint at hfraction
  split at hfraction
  next more =>
    simp only [hfraction, hpower]
    rfl
  next hpoint =>
    obtain ⟨rfl, rfl⟩ := Prod.mk.inj hfraction
    simp [hpower]

variable {power : ℤ} (negative : Bool) (hwhole : ∀ c ∈ whole, c.isDigit = true) (hne : whole ≠ [])
include hwhole hne

/-- Digits without a point. -/
theorem decimal?_whole (htail : Stops tail) (hpoint : ∀ c ∈ tail.head?, c ≠ '.')
    (hpower : exponent? tail = some power) :
    decimal? negative (whole ++ tail) =
      some (.decimal negative (Nat.ofDigitChars 10 whole 0) power) := by
  have hparts := decimal?_of_parts negative (digitRun_append hwhole htail)
    (afterPoint_of_head? hpoint) (mt List.map_eq_nil_iff.mp hne) hpower
  rw [hparts, List.append_nil, natural_map, List.length_nil, Nat.cast_zero, sub_zero]

/-- Digits around a point. -/
theorem decimal?_point (hfraction : ∀ c ∈ fraction, c.isDigit = true) (htail : Stops tail)
    (hpower : exponent? tail = some power) :
    decimal? negative (whole ++ '.' :: (fraction ++ tail)) =
      some (.decimal negative (Nat.ofDigitChars 10 (whole ++ fraction) 0)
        (power - fraction.length)) := by
  have hpoint : Stops ('.' :: (fraction ++ tail)) := stops_cons (by decide +kernel) _
  have hparts := decimal?_of_parts negative (digitRun_append hwhole hpoint)
    (digitRun_append hfraction htail) (mt List.map_eq_nil_iff.mp hne) hpower
  rw [hparts, ← List.map_append, natural_map, List.length_map]

end Spelling

/-! ## Layouts -/

namespace Layout

open Spelling

theorem isDigit_of_mem_digits {n : ℕ} : ∀ c ∈ digits n, c.isDigit = true :=
  fun _ hc => Nat.isDigit_of_mem_toDigits (by norm_num) le_rfl hc

theorem digits_ne_nil (n : ℕ) : digits n ≠ [] := Nat.toDigits_ne_nil

theorem isDigit_of_mem_zeros {n : ℕ} : ∀ c ∈ List.replicate n '0', c.isDigit = true :=
  fun _ hc => List.eq_of_mem_replicate hc ▸ rfl

theorem isDigit_of_mem_zero : ∀ c ∈ ['0'], c.isDigit = true := List.all_eq_true.mp rfl

/-- An exponent is read as it was written. -/
theorem exponent?_exponent (e : ℤ) : exponent? (exponent e) = some e := by
  -- A zero in front of a single digit does not count.
  obtain ⟨shown, hshown, hdigits, hne, hvalue⟩ : ∃ shown : List Char,
      exponent e = 'e' :: (if e < 0 then '-' else '+') :: shown ∧
        (∀ c ∈ shown, c.isDigit = true) ∧ shown ≠ [] ∧
        Nat.ofDigitChars 10 shown 0 = e.natAbs := by
    refine ⟨_, rfl, ?_, ?_, ?_⟩
    · split
      · exact List.forall_mem_cons.mpr ⟨rfl, isDigit_of_mem_digits⟩
      · exact isDigit_of_mem_digits
    · split
      · exact List.cons_ne_nil _ _
      · exact digits_ne_nil _
    · split
      · rw [Nat.ofDigitChars_cons]
        exact Nat.ofDigitChars_ten_toDigits
      · exact Nat.ofDigitChars_ten_toDigits
  have hrun : digitRun shown = (shown.map digitOf, []) := by
    have happend := digitRun_append hdigits stops_nil
    rwa [List.append_nil] at happend
  have hnatural := natural_map shown
  have hmap : shown.map digitOf ≠ [] := mt List.map_eq_nil_iff.mp hne
  generalize shown.map digitOf = run at hrun hnatural hmap
  obtain ⟨d, more, rfl⟩ := List.exists_cons_of_ne_nil hmap
  rw [hvalue] at hnatural
  rw [hshown, exponent?, if_pos (.inl rfl)]
  by_cases hneg : e < 0
  · have habs : -(e.natAbs : ℤ) = e := by omega
    simp only [if_pos hneg, sign, hrun, hnatural, if_true, habs]
  · have habs : (e.natAbs : ℤ) = e := by omega
    simp only [if_neg hneg, sign, hrun, hnatural, Bool.false_eq_true, if_false, habs]

theorem stops_exponent (e : ℤ) : Stops (exponent e) := stops_cons (by decide +kernel) _

/-- A text reads as a decimal: it starts with a digit, and what its digits spell
has the value of the decimal. -/
structure Reads (text : List Char) (d : Decimal) : Prop where
  /-- No sign and no letter comes first. -/
  head : ∃ c rest, text = c :: rest ∧ c.isDigit = true
  /-- The digits and the exponent that are read. -/
  value : ∃ digits power, (∀ negative, decimal? negative text =
      some (.decimal negative digits power)) ∧
    (digits : ℚ) * 10 ^ power = d.digits * 10 ^ d.exponent ∧ digits ≤ 10 ^ 17

section Reads

variable {d : Decimal} {whole fraction tail : List Char} {power : ℤ}
  (hwhole : ∀ c ∈ whole, c.isDigit = true) (hne : whole ≠ [])
include hwhole hne

theorem head_isDigit (more : List Char) :
    ∃ c rest, whole ++ more = c :: rest ∧ c.isDigit = true := by
  obtain ⟨c, rest, rfl⟩ := List.exists_cons_of_ne_nil hne
  exact ⟨c, rest ++ more, rfl, hwhole c List.mem_cons_self⟩

theorem reads_whole (htail : Stops tail) (hpoint : ∀ c ∈ tail.head?, c ≠ '.')
    (hpower : exponent? tail = some power)
    (hvalue : (Nat.ofDigitChars 10 whole 0 : ℚ) * 10 ^ power = d.digits * 10 ^ d.exponent)
    (hle : Nat.ofDigitChars 10 whole 0 ≤ 10 ^ 17) : Reads (whole ++ tail) d :=
  ⟨head_isDigit hwhole hne tail, _, _,
    fun negative => decimal?_whole negative hwhole hne htail hpoint hpower, hvalue, hle⟩

theorem reads_point (hfraction : ∀ c ∈ fraction, c.isDigit = true) (htail : Stops tail)
    (hpower : exponent? tail = some power)
    (hvalue : (Nat.ofDigitChars 10 (whole ++ fraction) 0 : ℚ) * 10 ^ (power - fraction.length) =
      d.digits * 10 ^ d.exponent)
    (hle : Nat.ofDigitChars 10 (whole ++ fraction) 0 ≤ 10 ^ 17) :
    Reads (whole ++ '.' :: (fraction ++ tail)) d :=
  ⟨head_isDigit hwhole hne _, _, _,
    fun negative => decimal?_point negative hwhole hne hfraction htail hpower, hvalue, hle⟩

end Reads

section Shown

variable {d : Decimal} {shown : List Char} (hle : d.digits ≤ 10 ^ 17)
  (hshown : ∀ c ∈ shown, c.isDigit = true) (hspelt : Nat.ofDigitChars 10 shown 0 = d.digits)
include hshown hspelt

/-- Zeros up to the point, and one behind it. -/
theorem reads_zeros {k : ℕ} (hexponent : d.exponent = k) (hne : shown ≠ [])
    (hsize : d.digits * 10 ^ k < 10 ^ 16) :
    Reads (shown ++ List.replicate k '0' ++ ['.', '0']) d := by
  have hdigits : Nat.ofDigitChars 10 (shown ++ List.replicate k '0' ++ ['0']) 0 =
      10 * (d.digits * 10 ^ k) := by
    rw [Nat.ofDigitChars_append, Nat.ofDigitChars_append, hspelt, Nat.ofDigitChars_replicate_zero,
      mul_comm d.digits]
    rfl
  have hwhole : ∀ c ∈ shown ++ List.replicate k '0', c.isDigit = true :=
    List.forall_mem_append.mpr ⟨hshown, isDigit_of_mem_zeros⟩
  have hnil : shown ++ List.replicate k '0' ≠ [] := List.append_ne_nil_of_left_ne_nil hne _
  refine reads_point hwhole hnil isDigit_of_mem_zero stops_nil rfl ?_ ?_
  · rw [hdigits, hexponent, zpow_natCast]
    push_cast
    norm_num
    ring
  · rw [hdigits]
    omega

include hle

/-- A point between the digits. -/
theorem reads_inside {j : ℕ} (hpos : 0 < j) (hexponent : d.exponent = j - shown.length)
    (hj : j < shown.length) : Reads (shown.take j ++ '.' :: shown.drop j) d := by
  have hwhole : ∀ c ∈ shown.take j, c.isDigit = true :=
    fun c hc => hshown c (List.mem_of_mem_take hc)
  have hfraction : ∀ c ∈ shown.drop j, c.isDigit = true :=
    fun c hc => hshown c (List.mem_of_mem_drop hc)
  have hne : shown.take j ≠ [] := by
    rw [Ne, List.take_eq_nil_iff, not_or]
    exact ⟨hpos.ne', List.ne_nil_of_length_pos (by omega)⟩
  have hlength : (0 : ℤ) - (shown.drop j).length = d.exponent := by
    rw [List.length_drop]
    omega
  have hreads := reads_point (d := d) hwhole hne hfraction stops_nil rfl
  rw [List.take_append_drop, hspelt, hlength, List.append_nil] at hreads
  exact hreads rfl hle

/-- Zeros behind the point. -/
theorem reads_outside {k : ℕ} (hexponent : d.exponent = -(k + shown.length : ℕ)) :
    Reads ('0' :: '.' :: List.replicate k '0' ++ shown) d := by
  have hfraction : ∀ c ∈ List.replicate k '0' ++ shown, c.isDigit = true :=
    List.forall_mem_append.mpr ⟨isDigit_of_mem_zeros, hshown⟩
  have hdigits : Nat.ofDigitChars 10 (['0'] ++ (List.replicate k '0' ++ shown)) 0 = d.digits := by
    rw [Nat.ofDigitChars_append, Nat.ofDigitChars_append, Nat.ofDigitChars_replicate_zero]
    exact hspelt
  have hlength : (0 : ℤ) - (List.replicate k '0' ++ shown).length = d.exponent := by
    rw [List.length_append, List.length_replicate]
    omega
  have hreads := reads_point (d := d) isDigit_of_mem_zero (List.cons_ne_nil _ _) hfraction
    stops_nil rfl
  rw [hdigits, hlength, List.append_nil] at hreads
  exact hreads rfl hle

end Shown

/-- A single digit with an exponent. -/
theorem reads_single {d : Decimal} {only : Char} (hle : d.digits ≤ 10 ^ 17)
    (hshown : ∀ c ∈ [only], c.isDigit = true) (hspelt : Nat.ofDigitChars 10 [only] 0 = d.digits)
    {leading : ℤ} (hleading : leading = ([only].length : ℤ) - 1 + d.exponent) :
    Reads (only :: exponent leading) d := by
  have hmark : ∀ c ∈ (exponent leading).head?, c ≠ '.' := by simp [exponent]
  refine reads_whole hshown (List.cons_ne_nil _ _) (stops_exponent _) hmark
    (exponent?_exponent _) ?_ (hspelt.trans_le hle)
  rw [hspelt, hleading, List.length_singleton, Nat.cast_one, sub_self, zero_add]

/-- A point behind the first of several digits, and an exponent. -/
theorem reads_marked {d : Decimal} {first : Char} {rest : List Char} (hle : d.digits ≤ 10 ^ 17)
    (hshown : ∀ c ∈ first :: rest, c.isDigit = true)
    (hspelt : Nat.ofDigitChars 10 (first :: rest) 0 = d.digits)
    {leading : ℤ} (hleading : leading = ((first :: rest).length : ℤ) - 1 + d.exponent) :
    Reads (first :: '.' :: rest ++ exponent leading) d := by
  obtain ⟨hfirst, hrest⟩ := List.forall_mem_cons.mp hshown
  have hwhole : ∀ c ∈ [first], c.isDigit = true :=
    List.forall_mem_cons.mpr ⟨hfirst, List.forall_mem_nil _⟩
  have hexponent : leading - rest.length = d.exponent := by
    rw [hleading, List.length_cons]
    omega
  refine reads_point hwhole (List.cons_ne_nil _ _) hrest (stops_exponent _)
    (exponent?_exponent _) ?_ (hspelt.trans_le hle)
  rw [hexponent, List.singleton_append, hspelt]

/-- A decimal of few digits is read as it was set out. -/
theorem reads_full {d : Decimal} (hle : d.digits ≤ 10 ^ 17) : Reads (full.decimal d) d := by
  have hshown := isDigit_of_mem_digits (n := d.digits)
  have hne := digits_ne_nil d.digits
  have hspelt : Nat.ofDigitChars 10 (digits d.digits) 0 = d.digits :=
    Nat.ofDigitChars_ten_toDigits
  have hlength : d.digits < 10 ^ (digits d.digits).length :=
    (Nat.length_toDigits_le_iff (by norm_num) (List.length_pos_iff.mpr hne)).mp le_rfl
  have hbelow : full.writtenBelow = 16 := rfl
  unfold decimal
  generalize digits d.digits = shown at *
  have hpos := List.length_pos_iff.mpr hne
  simp only [hbelow]
  split
  next hplace =>
    split
    next hzeros =>
      obtain ⟨k, hk⟩ := Int.eq_ofNat_of_zero_le hzeros
      rw [hk, Int.toNat_natCast]
      refine reads_zeros hshown hspelt hk hne ?_
      calc d.digits * 10 ^ k < 10 ^ shown.length * 10 ^ k := by gcongr
        _ = 10 ^ (shown.length + k) := (pow_add 10 _ k).symm
        _ ≤ 10 ^ 16 := Nat.pow_le_pow_right (by norm_num) (by omega)
    next hpoint =>
      split
      next hinside => exact reads_inside hle hshown hspelt (by omega) (by omega) (by omega)
      next houtside => exact reads_outside hle hshown hspelt (by omega)
  next hplace =>
    split
    next only => exact reads_single hle hshown hspelt rfl
    next first rest _ => exact reads_marked hle hshown hspelt rfl
    next => exact absurd rfl hne

end Layout

end Easing
