import Easing.Decimal.Rounding
import Easing.Proofs.Number.Rounding

/-! # The digits of a double identify it

The search for the shortest digits compares naturals, which stand for a multiple
of a power of two and a multiple of a power of ten. Every candidate it takes
becomes the double when it is rounded. Seventeen digits are close enough for
every double, so the search never gives up.
-/

namespace Easing.Decimal

open Easing.Binary64

/-! ## Comparing across the bases -/

theorem zpow_eq_div {b : ℚ} (hb : b ≠ 0) (k : ℤ) : b ^ k = b ^ k.toNat / b ^ (-k).toNat := by
  conv_lhs => rw [← Int.toNat_sub_toNat_neg k]
  rw [zpow_sub₀ hb, zpow_natCast, zpow_natCast]

section Common

variable (exponent place : ℤ)

/-- Both factors are the power itself, up to one scale. -/
theorem common_eq : ∃ scale : ℚ, 0 < scale ∧
    ((common exponent place).1 : ℚ) = scale * 2 ^ exponent ∧
    ((common exponent place).2 : ℚ) = scale * 10 ^ place := by
  refine ⟨10 ^ (-place).toNat * 2 ^ (-exponent).toNat, by positivity, ?_, ?_⟩
  · rw [zpow_eq_div two_ne_zero exponent]
    simp only [common, Nat.shiftLeft_eq, Nat.pow_eq]
    push_cast
    field_simp
  · rw [zpow_eq_div (by norm_num) place]
    simp only [common, Nat.shiftLeft_eq, Nat.pow_eq]
    push_cast
    field_simp

theorem common_pos : 0 < (common exponent place).2 := by
  simp only [common, Nat.shiftLeft_eq, Nat.pow_eq]
  positivity

variable {exponent place} {a b : ℕ}

theorem mul_common_le_iff :
    a * (common exponent place).1 ≤ b * (common exponent place).2 ↔
      (a : ℚ) * 2 ^ exponent ≤ b * 10 ^ place := by
  obtain ⟨scale, hscale, hbinary, hdecimal⟩ := common_eq exponent place
  rw [← Nat.cast_le (α := ℚ), Nat.cast_mul, Nat.cast_mul, hbinary, hdecimal,
    mul_left_comm, mul_left_comm (b : ℚ), mul_le_mul_iff_right₀ hscale]

theorem le_mul_common_iff :
    b * (common exponent place).2 ≤ a * (common exponent place).1 ↔
      (b : ℚ) * 10 ^ place ≤ a * 2 ^ exponent := by
  obtain ⟨scale, hscale, hbinary, hdecimal⟩ := common_eq exponent place
  rw [← Nat.cast_le (α := ℚ), Nat.cast_mul, Nat.cast_mul, hbinary, hdecimal,
    mul_left_comm, mul_left_comm (b := scale), mul_le_mul_iff_right₀ hscale]

theorem mul_common_lt_iff :
    a * (common exponent place).1 < b * (common exponent place).2 ↔
      (a : ℚ) * 2 ^ exponent < b * 10 ^ place := by
  rw [← not_le, le_mul_common_iff, not_le]

end Common

variable {m : ℕ} {e place : ℤ}

/-! ## The leading digit -/

/-- The power of ten that is expected below a power of two. -/
def estimate (log : ℤ) : ℤ := log * 30103 / 100000

theorem leadingPlace_eq (m : ℕ) (e : ℤ) :
    leadingPlace m e =
      if m * (common e (estimate (m.log2 + e) + 1)).1 < (common e (estimate (m.log2 + e) + 1)).2
      then estimate (m.log2 + e) else estimate (m.log2 + e) + 1 := rfl

theorem leadingPlace_eq_or (m : ℕ) (e : ℤ) :
    leadingPlace m e = estimate (m.log2 + e) ∨ leadingPlace m e = estimate (m.log2 + e) + 1 := by
  rw [leadingPlace_eq]
  split
  · exact .inl rfl
  · exact .inr rfl

/-- The estimate is right up to one for the powers of two that are doubles. -/
theorem estimate_common : ∀ n : ℕ, n < 2098 →
    1 * (common (n - 1074) (estimate (n - 1074))).2 ≤
        1 * (common (n - 1074) (estimate (n - 1074))).1 ∧
      1 * (common (n - 1074 + 1) (estimate (n - 1074) + 2)).1 ≤
        1 * (common (n - 1074 + 1) (estimate (n - 1074) + 2)).2 := by
  decide +kernel

theorem zpow_estimate (log : ℤ) (hlow : -1074 ≤ log) (hhigh : log ≤ 1023) :
    (10 : ℚ) ^ estimate log ≤ 2 ^ log ∧ (2 : ℚ) ^ (log + 1) ≤ 10 ^ (estimate log + 2) := by
  have hcommon := estimate_common (log + 1074).toNat (by omega)
  have hlog : ((log + 1074).toNat : ℤ) - 1074 = log := by omega
  rw [hlog, le_mul_common_iff, mul_common_le_iff] at hcommon
  simpa using hcommon

/-- The place of the leading digit. -/
theorem leadingPlace_spec (hc : Canonical m e) (he : e ≤ 971) :
    (10 : ℚ) ^ leadingPlace m e ≤ m * 2 ^ e ∧ (m : ℚ) * 2 ^ e < 10 ^ (leadingPlace m e + 1) := by
  have hlog : m.log2 < 53 := (Nat.log2_lt hc.pos.ne').mpr hc.lt
  have hleast := hc.least
  obtain ⟨hten, htwo⟩ := zpow_estimate (m.log2 + e) (by omega) (by omega)
  have hlow : (2 : ℚ) ^ (m.log2 + e) ≤ m * 2 ^ e := by
    rw [zpow_add₀ two_ne_zero, zpow_natCast]
    gcongr
    exact_mod_cast Nat.log2_self_le hc.pos.ne'
  have hhigh : (m : ℚ) * 2 ^ e < 2 ^ (m.log2 + e + 1) := by
    rw [add_right_comm, zpow_add₀ two_ne_zero]
    gcongr
    exact_mod_cast Nat.lt_log2_self
  rw [leadingPlace_eq]
  generalize estimate (m.log2 + e) = place at *
  have hcompare : m * (common e (place + 1)).1 < 1 * (common e (place + 1)).2 ↔
      (m : ℚ) * 2 ^ e < (1 : ℕ) * 10 ^ (place + 1) := mul_common_lt_iff
  rw [one_mul, Nat.cast_one, one_mul] at hcompare
  split
  next hlt => exact ⟨hten.trans hlow, hcompare.mp hlt⟩
  next hge =>
    refine ⟨not_lt.mp (mt hcompare.mpr hge), ?_⟩
    rw [add_assoc]
    exact hhigh.trans_le htwo

/-! ## Candidates -/

theorem nearest_eq_or (dividend divisor : ℕ) :
    nearest dividend divisor = dividend / divisor ∨
      nearest dividend divisor = dividend / divisor + 1 := by
  unfold nearest
  simp only
  split
  · exact .inl rfl
  · exact .inr rfl
  · split
    · exact .inl rfl
    · exact .inr rfl

section Strip

variable (digits : ℕ) (exponent : ℤ)

/-- Moving zeros into the exponent keeps the number. -/
theorem strip_value : ((strip digits exponent).digits : ℚ) * 10 ^ (strip digits exponent).exponent =
    digits * 10 ^ exponent := by
  induction digits, exponent using strip.induct with
  | case1 exponent =>
      rw [strip, if_pos rfl]
      simp
  | case2 digits exponent hzero hdvd ih =>
      have hdigits : digits = digits / 10 * 10 := by omega
      rw [strip, if_neg hzero, if_pos hdvd, ih, zpow_add_one₀ (by norm_num)]
      conv_rhs => rw [hdigits]
      push_cast
      ring
  | case3 digits exponent hzero hdvd => rw [strip, if_neg hzero, if_neg hdvd]

theorem strip_le : (strip digits exponent).digits ≤ digits := by
  induction digits, exponent using strip.induct with
  | case1 exponent =>
      rw [strip, if_pos rfl]
  | case2 digits exponent hzero hdvd ih =>
      rw [strip, if_neg hzero, if_pos hdvd]
      exact ih.trans (Nat.div_le_self digits 10)
  | case3 digits exponent hzero hdvd => rw [strip, if_neg hzero, if_neg hdvd]

end Strip

/-- The lower end of the reals that become a double, in quarters of its last bit. -/
def leastQuarter (m : ℕ) (e : ℤ) : ℕ :=
  if m = 0x10000000000000 ∧ -1074 < e then 4 * m - 1 else 4 * m - 2

/-- Whether a multiple of a power of ten becomes a double. -/
def readsBack (m : ℕ) (e place : ℤ) (multiple : ℕ) : Bool :=
  if m % 2 = 0 then
    leastQuarter m e * (common (e - 2) place).1 ≤ multiple * (common (e - 2) place).2 &&
      multiple * (common (e - 2) place).2 ≤ (4 * m + 2) * (common (e - 2) place).1
  else
    leastQuarter m e * (common (e - 2) place).1 < multiple * (common (e - 2) place).2 &&
      multiple * (common (e - 2) place).2 < (4 * m + 2) * (common (e - 2) place).1

/-- The multiple of a power of ten at or below a double. -/
def below (m : ℕ) (e place : ℤ) : ℕ :=
  4 * m * (common (e - 2) place).1 / (common (e - 2) place).2

theorem onGrid?_eq (m : ℕ) (e place : ℤ) :
    onGrid? m e place =
      match readsBack m e place (below m e place), readsBack m e place (below m e place + 1) with
      | true, true =>
        some (strip (nearest (4 * m * (common (e - 2) place).1) (common (e - 2) place).2) place)
      | true, false => some (strip (below m e place) place)
      | false, true => some (strip (below m e place + 1) place)
      | false, false => none := rfl

theorem zpow_sub_two (e : ℤ) : (2 : ℚ) ^ (e - 2) = 2 ^ e / 4 := by
  rw [zpow_sub₀ two_ne_zero]
  norm_num

theorem quarters_le_iff {a b : ℕ} :
    a * (common (e - 2) place).1 ≤ b * (common (e - 2) place).2 ↔
      (a : ℚ) / 4 ≤ b * 10 ^ place / 2 ^ e := by
  rw [mul_common_le_iff, zpow_sub_two, le_div_iff₀ (by positivity), mul_div_left_comm,
    mul_comm, div_mul_comm, div_mul_eq_mul_div, mul_div_right_comm]

theorem le_quarters_iff {a b : ℕ} :
    b * (common (e - 2) place).2 ≤ a * (common (e - 2) place).1 ↔
      (b : ℚ) * 10 ^ place / 2 ^ e ≤ a / 4 := by
  rw [le_mul_common_iff, zpow_sub_two, div_le_iff₀ (by positivity), mul_div_assoc',
    div_mul_eq_mul_div]

theorem quarters_lt_iff {a b : ℕ} :
    a * (common (e - 2) place).1 < b * (common (e - 2) place).2 ↔
      (a : ℚ) / 4 < b * 10 ^ place / 2 ^ e := by
  rw [← not_le, le_quarters_iff, not_le]

theorem lt_quarters_iff {a b : ℕ} :
    b * (common (e - 2) place).2 < a * (common (e - 2) place).1 ↔
      (b : ℚ) * 10 ^ place / 2 ^ e < a / 4 := by
  rw [← not_le, quarters_le_iff, not_le]

/-- The test is exact. -/
theorem readsBack_iff (hpos : 0 < m) {multiple : ℕ} :
    readsBack m e place multiple = true ↔ ReadsBack m e (multiple * 10 ^ place) := by
  have hleast : (leastQuarter m e : ℚ) / 4 =
      if m = 2 ^ 52 ∧ -1074 < e then (m : ℚ) - 1 / 4 else m - 1 / 2 := by
    unfold leastQuarter
    rw [show (0x10000000000000 : ℕ) = 2 ^ 52 by norm_num]
    split <;> rw [Nat.cast_sub (by omega)] <;> push_cast <;> ring
  have hgreatest : ((4 * m + 2 : ℕ) : ℚ) / 4 = m + 1 / 2 := by
    push_cast
    ring
  unfold readsBack ReadsBack Rounds
  simp only [apply_ite (· = true), Bool.and_eq_true, decide_eq_true_eq, quarters_le_iff,
    le_quarters_iff, quarters_lt_iff, lt_quarters_iff, hleast, hgreatest]
  by_cases hnarrow : m = 2 ^ 52 ∧ -1074 < e
  · have heven : m % 2 = 0 := by omega
    simp only [if_pos hnarrow, if_pos heven]
  · simp only [if_neg hnarrow]

theorem below_le (m : ℕ) (e place : ℤ) : (below m e place : ℚ) * 10 ^ place ≤ m * 2 ^ e := by
  have hle : below m e place * (common (e - 2) place).2 ≤ 4 * m * (common (e - 2) place).1 :=
    Nat.div_mul_le_self _ _
  rw [le_mul_common_iff, zpow_sub_two] at hle
  push_cast at hle
  linarith

theorem lt_below_succ (m : ℕ) (e place : ℤ) :
    (m : ℚ) * 2 ^ e < (below m e place + 1) * 10 ^ place := by
  have hlt : 4 * m * (common (e - 2) place).1 <
      (below m e place + 1) * (common (e - 2) place).2 := by
    rw [mul_comm (below m e place + 1)]
    exact Nat.lt_mul_div_succ _ (common_pos (e - 2) place)
  rw [mul_common_lt_iff, zpow_sub_two] at hlt
  push_cast at hlt
  linarith

/-- A candidate on a grid is a multiple next to the double that becomes it. -/
theorem onGrid?_eq_some {d : Decimal} (hpos : 0 < m) (h : onGrid? m e place = some d) :
    ∃ multiple, d = strip multiple place ∧ multiple ≤ below m e place + 1 ∧
      ReadsBack m e (multiple * 10 ^ place) := by
  rw [onGrid?_eq] at h
  split at h
  next hlow hhigh =>
    rcases nearest_eq_or (4 * m * (common (e - 2) place).1) (common (e - 2) place).2 with heq | heq
    · exact ⟨below m e place, (heq ▸ Option.some.inj h).symm, by omega,
        (readsBack_iff hpos).mp hlow⟩
    · exact ⟨below m e place + 1, (heq ▸ Option.some.inj h).symm, le_rfl,
        (readsBack_iff hpos).mp hhigh⟩
  next hlow _ =>
    exact ⟨below m e place, (Option.some.inj h).symm, by omega, (readsBack_iff hpos).mp hlow⟩
  next _ hhigh =>
    exact ⟨below m e place + 1, (Option.some.inj h).symm, le_rfl, (readsBack_iff hpos).mp hhigh⟩
  next => cases h

/-- A number within half a unit of a double becomes it, if the unit is small. -/
theorem readsBack_of_near (hc : Canonical m e) {v unit : ℚ} (hunit : unit * 10 ^ 16 ≤ m * 2 ^ e)
    (hpos : 0 < unit) (hlow : m * 2 ^ e - unit / 2 ≤ v) (hhigh : v ≤ m * 2 ^ e + unit / 2) :
    ReadsBack m e v := by
  have htwo : (0 : ℚ) < 2 ^ e := by positivity
  unfold ReadsBack
  split
  -- The reals reach half as far down here, but the unit is half as large too.
  next hnarrow =>
    obtain ⟨rfl, -⟩ := hnarrow
    rw [le_div_iff₀ htwo, div_le_iff₀ htwo]
    push_cast at *
    constructor <;> linarith
  next =>
    have hm : (m : ℚ) * 2 ^ e ≤ 2 ^ 53 * 2 ^ e := by
      gcongr
      exact_mod_cast hc.lt.le
    have hopen : (m : ℚ) - 1 / 2 < v / 2 ^ e ∧ v / 2 ^ e < m + 1 / 2 := by
      rw [lt_div_iff₀ htwo, div_lt_iff₀ htwo]
      constructor <;> linarith
    unfold Rounds
    split
    · exact ⟨hopen.1.le, hopen.2.le⟩
    · exact hopen

/-- On a grid of seventeen digits there is a candidate. -/
theorem onGrid?_ne_none (hc : Canonical m e) (h : (10 : ℚ) ^ (place + 16) ≤ m * 2 ^ e) :
    onGrid? m e place ≠ none := by
  have hlow := below_le m e place
  have hhigh := lt_below_succ m e place
  have hunit : (10 : ℚ) ^ place * 10 ^ 16 ≤ m * 2 ^ e := by
    rwa [zpow_add₀ (by norm_num)] at h
  have hpos : (0 : ℚ) < 10 ^ place := by positivity
  -- One of the two neighbours on the grid is at most half a unit away.
  have hnear : readsBack m e place (below m e place) = true ∨
      readsBack m e place (below m e place + 1) = true := by
    rw [readsBack_iff hc.pos, readsBack_iff hc.pos]
    rcases le_total (m * 2 ^ e - 10 ^ place / 2 : ℚ) (below m e place * 10 ^ place) with hle | hle
    · exact .inl (readsBack_of_near hc hunit hpos hle (by linarith))
    · refine .inr (readsBack_of_near hc hunit hpos ?_ ?_) <;> push_cast <;> linarith
  rw [onGrid?_eq]
  split
  · exact Option.some_ne_none _
  · exact Option.some_ne_none _
  · exact Option.some_ne_none _
  next hbelow habove =>
    rw [hbelow, habove] at hnear
    simp at hnear

/-! ## The search -/

/-- What is asked of the digits of a double. -/
structure Identifies (d : Decimal) (m : ℕ) (e : ℤ) : Prop where
  pos : 0 < d.digits
  le : d.digits ≤ 10 ^ 17
  reads : ReadsBack m e (d.digits * 10 ^ d.exponent)

/-- A candidate among the first seventeen digits is one. -/
theorem identifies_of_onGrid? {d : Decimal} {more : ℕ} (hc : Canonical m e) (he : e ≤ 971)
    (hmore : more < 17) (h : onGrid? m e (leadingPlace m e - more) = some d) :
    Identifies d m e := by
  obtain ⟨multiple, rfl, hle, hreads⟩ := onGrid?_eq_some hc.pos h
  have hvalue := strip_value multiple (leadingPlace m e - more)
  -- The neighbour above the digits may have one digit more.
  have hbelow : below m e (leadingPlace m e - more) < 10 ^ (more + 1) := by
    have hten : (0 : ℚ) < 10 ^ (leadingPlace m e - more) := by positivity
    have hpower : (10 : ℚ) ^ (leadingPlace m e + 1) =
        10 ^ (more + 1) * 10 ^ (leadingPlace m e - more) := by
      rw [← zpow_natCast, ← zpow_add₀ (by norm_num)]
      congr 1
      push_cast
      ring
    have hlt := (below_le m e (leadingPlace m e - more)).trans_lt (leadingPlace_spec hc he).2
    rw [hpower, mul_lt_mul_iff_left₀ hten] at hlt
    exact_mod_cast hlt
  have hsize : 10 ^ (more + 1) ≤ 10 ^ 17 := Nat.pow_le_pow_right (by norm_num) (by omega)
  rw [← hvalue] at hreads
  exact ⟨hreads.digits_pos hc, (strip_le multiple _).trans (by omega), hreads⟩

/-- The digits of a double identify it. -/
theorem identifies_shortest (hc : Canonical m e) (he : e ≤ 971) :
    Identifies (shortest m e) m e := by
  -- The search ends at the last grid if at none before.
  have hlast : onGrid? m e (leadingPlace m e - (16 : ℕ)) ≠ none := by
    refine onGrid?_ne_none hc ?_
    rw [Nat.cast_ofNat, sub_add_cancel]
    exact (leadingPlace_spec hc he).1
  have hfound : (List.range 17).findSome?
      (fun (more : ℕ) => onGrid? m e (leadingPlace m e - more)) ≠ none := by
    intro hnone
    rw [List.findSome?_eq_none_iff] at hnone
    exact hlast (hnone 16 (List.mem_range.mpr (by norm_num)))
  obtain ⟨d, hd⟩ := Option.ne_none_iff_exists'.mp hfound
  obtain ⟨more, hmore, hgrid⟩ := List.exists_of_findSome?_eq_some hd
  have heq : shortest m e = d := by
    unfold shortest
    simp only [hd, Option.getD_some]
  rw [heq]
  exact identifies_of_onGrid? hc he (List.mem_range.mp hmore) hgrid

end Easing.Decimal
