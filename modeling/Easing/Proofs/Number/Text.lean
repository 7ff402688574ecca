import Easing.Proofs.Decimal.Reading
import Easing.Proofs.Definition.Parts
import Easing.Proofs.Number.Scientific

/-! # The text of a double identifies it

The text of a double is a token of a definition, and reading it gives the double
back, signed zeros, infinities and the undefined double included. So doubles are
lawful numbers.
-/

namespace Easing

open Text Definition

/-! ## Texts of numbers are tokens -/

/-- Whether a character stands in the text of a finite number. -/
def isNumeric (c : Char) : Bool := c.isDigit || c == '.' || c == 'e' || c == '+' || c == '-'

theorem isPlain_of_isNumeric {c : Char} (h : isNumeric c = true) : isPlain c = true := by
  simp only [isNumeric, Bool.or_eq_true, beq_iff_eq] at h
  rcases h with (((hdigit | rfl) | rfl) | rfl) | rfl
  · obtain ⟨hlow, hhigh⟩ := Char.isDigit_iff_toNat.mp hdigit
    change 48 ≤ c.toNat at hlow
    change c.toNat ≤ 57 at hhigh
    rw [← Char.ofNat_toNat c]
    generalize c.toNat = code at hlow hhigh
    interval_cases code <;> decide +kernel
  all_goals decide +kernel

namespace Layout

/-- A text of digits, points, exponents and signs. -/
def Numeric (text : List Char) : Prop := ∀ c ∈ text, isNumeric c = true

theorem Numeric.of_isDigit {text : List Char} (h : ∀ c ∈ text, c.isDigit = true) :
    Numeric text := by
  intro c hc
  simp [isNumeric, h c hc]

theorem numeric_exponent (e : ℤ) : Numeric (exponent e) := by
  have hdigits : Numeric (digits e.natAbs) := .of_isDigit isDigit_of_mem_digits
  refine List.forall_mem_cons.mpr ⟨rfl, List.forall_mem_cons.mpr ⟨?_, ?_⟩⟩
  · split <;> rfl
  · split
    · exact List.forall_mem_cons.mpr ⟨rfl, hdigits⟩
    · exact hdigits

theorem numeric_decimal (layout : Layout) (d : Decimal) : Numeric (layout.decimal d) := by
  have hshown : Numeric (digits d.digits) := .of_isDigit isDigit_of_mem_digits
  have hzeros (n : ℕ) : Numeric (List.replicate n '0') := .of_isDigit isDigit_of_mem_zeros
  unfold decimal
  generalize digits d.digits = shown at *
  simp only
  split
  · split
    · refine List.forall_mem_append.mpr ⟨List.forall_mem_append.mpr ⟨hshown, hzeros _⟩, ?_⟩
      split
      · exact List.all_eq_true.mp rfl
      · exact List.forall_mem_nil _
    · split
      · exact List.forall_mem_append.mpr ⟨fun c hc => hshown c (List.mem_of_mem_take hc),
          List.forall_mem_cons.mpr ⟨rfl, fun c hc => hshown c (List.mem_of_mem_drop hc)⟩⟩
      · exact List.forall_mem_append.mpr ⟨List.forall_mem_cons.mpr ⟨rfl,
          List.forall_mem_cons.mpr ⟨rfl, hzeros _⟩⟩, hshown⟩
  · split
    next only _ =>
      exact List.forall_mem_cons.mpr ⟨hshown only List.mem_cons_self, numeric_exponent _⟩
    next first rest _ _ =>
      obtain ⟨hfirst, hrest⟩ := List.forall_mem_cons.mp hshown
      exact List.forall_mem_cons.mpr ⟨hfirst, List.forall_mem_cons.mpr ⟨rfl,
        List.forall_mem_append.mpr ⟨hrest, numeric_exponent _⟩⟩⟩
    next => exact numeric_exponent _

/-- A decimal with or without a sign is a token. -/
theorem word_decimal (negative : Bool) {d : Decimal} (hle : d.digits ≤ 10 ^ 17) :
    Word ((if negative then ['-'] else []) ++ full.decimal d) := by
  obtain ⟨c, rest, hhead, -⟩ := (reads_full hle).head
  have hsign : Numeric (if negative then ['-'] else []) := by
    cases negative <;> exact List.all_eq_true.mp rfl
  have hnumeric := List.forall_mem_append.mpr ⟨hsign, numeric_decimal full d⟩
  refine ⟨?_, fun c hc => isPlain_of_isNumeric (hnumeric c hc)⟩
  rw [hhead]
  exact List.append_ne_nil_of_right_ne_nil _ (List.cons_ne_nil c rest)

end Layout

/-! ## Texts of numbers are read -/

namespace Spelling

theorem toLower_of_isDigit {c : Char} (h : c.isDigit = true) : c.toLower = c := by
  obtain ⟨-, hhigh⟩ := Char.isDigit_iff_toNat.mp h
  change c.toNat ≤ 57 at hhigh
  unfold Char.toLower
  rw [dif_neg]
  rintro ⟨hlow, -⟩
  have hlow' : 65 ≤ c.toNat := hlow
  omega

theorem sign_of_isDigit {c : Char} (hc : c.isDigit = true) (rest : List Char) :
    sign (c :: rest) = (false, c :: rest) := by
  unfold sign
  split
  next heq =>
    obtain ⟨rfl, -⟩ := List.cons.inj heq
    cases hc
  next heq =>
    obtain ⟨rfl, -⟩ := List.cons.inj heq
    cases hc
  next => rfl

/-- A number is what stands behind its sign. -/
theorem read?_decimal (negative : Bool) {text : List Char} {d : Decimal}
    (hreads : Layout.Reads text d) (hword : Word ((if negative then ['-'] else []) ++ text)) :
    read? ((if negative then ['-'] else []) ++ text) = decimal? negative text := by
  obtain ⟨c, rest, rfl, hc⟩ := hreads.head
  have hpadding (b : Char) (hb : isMargin b = false) : isPadding b = false := by
    rw [isPadding, isBlank_of_isMargin_eq_false hb, Bool.false_and]
  have hsign : sign ((if negative then ['-'] else []) ++ c :: rest) = (negative, c :: rest) := by
    cases negative with
    | true => rfl
    | false =>
        rw [if_neg Bool.false_ne_true, List.nil_append]
        exact sign_of_isDigit hc rest
  -- The words for what is not finite start with a letter.
  have hletter (letter : Char) (word : List Char) (hletter : letter.isDigit = false) :
      (c :: rest).map Char.toLower ≠ letter :: word := by
    rw [List.map_cons, toLower_of_isDigit hc]
    intro heq
    injection heq with heq
    rw [heq, hletter] at hc
    cases hc
  rw [read?, (Framed.of_word hword).trim hpadding, hsign]
  simp only
  rw [if_neg, if_neg]
  · exact hletter 'n' _ rfl
  · exact not_or.mpr ⟨hletter 'i' _ rfl, hletter 'i' _ rfl⟩

end Spelling

namespace Float64

open Float.Model Easing.Binary64
open Float.Model.UnpackedFloat (Sign)

variable {m : ℕ} {e : ℤ}

/-- The digits of a double are read as the double. -/
theorem ofSpelling_decimal (hc : Canonical m e) (he : e ≤ 971) {digits : ℕ} {power : ℤ}
    (hreads : ReadsBack m e (digits * 10 ^ power)) (hle : digits ≤ 10 ^ 17) (s : Sign) :
    ofSpelling (.decimal (isMinus s) digits power) = .ofModel (.pack (.finite s m e hc.pos)) := by
  have hlt : digits < 10 ^ 18 := hle.trans_lt (by norm_num)
  have hmagnitude := ofDecimal_eq hc he hlt hreads
  cases s with
  | positive => exact hmagnitude
  | negative =>
      change -(ofDecimal digits power) = _
      rw [hmagnitude]
      change Float.ofModel (.pack (Float.Model.pack _).unpack.neg) = _
      rw [unpack_pack hc he .positive]
      rfl

/-- What is read off the text of a finite double. -/
theorem read?_finite (hc : Canonical m e) (he : e ≤ 971) (s : Sign) :
    (Spelling.read? (Layout.full.text Decimal.shortest (.finite (isMinus s) m e))).map ofSpelling =
      some (.ofModel (.pack (.finite s m e hc.pos))) := by
  have hd := Decimal.identifies_shortest hc he
  have hreads := Layout.reads_full hd.le
  obtain ⟨digits, power, hdecimal, hvalue, hle⟩ := hreads.value
  rw [Layout.text, if_neg hc.pos.ne', Spelling.read?_decimal _ hreads
    (Layout.word_decimal _ hd.le), hdecimal, Option.map_some,
    ofSpelling_decimal hc he (hvalue ▸ hd.reads) hle]

/-- A double is read off its text. -/
theorem read?_text (x : Float) : read? (text x) = some x := by
  have hx : Float.ofModel (.pack x.toModel.unpack) = x := by rw [pack_unpack]
  rw [read?, text, String.toList_ofList, ofFloat_eq_ofUnpacked]
  conv_rhs => rw [← hx]
  cases hu : x.toModel.unpack with
  | notANumber => rfl
  | infinity s => cases s <;> rfl
  | zero s => cases s <;> rfl
  | finite s m e h =>
      obtain ⟨hc, he⟩ := canonical_of_unpack hu
      exact read?_finite hc he s

theorem word_text (x : Float) : Word (text x).toList := by
  rw [text, String.toList_ofList, ofFloat_eq_ofUnpacked]
  cases hu : x.toModel.unpack with
  | notANumber => exact ⟨by decide, List.all_eq_true.mp (by decide +kernel)⟩
  | infinity s => cases s <;> exact ⟨by decide, List.all_eq_true.mp (by decide +kernel)⟩
  | zero s => exact Layout.word_decimal _ (by norm_num)
  | finite s m e h =>
      obtain ⟨hc, he⟩ := canonical_of_unpack hu
      rw [ofUnpacked, Layout.text, if_neg hc.pos.ne']
      exact Layout.word_decimal _ (Decimal.identifies_shortest hc he).le

end Float64

instance : LawfulNumeral Float where
  read?_text := Float64.read?_text
  word_text := Float64.word_text

end Easing
