import Easing.Proofs.Number.Rounded
import Easing.Transform.Resolve

/-! # Transforms of the unit interval

With moderate parameters a transform takes numbers of the unit interval to numbers of
the unit interval. What it computes on the way lies between bounds that are not rounded,
or is a part of a number that is rounded like it, so that rounding does not lead out of
the unit interval either. `Contained` says which parameters are moderate.
-/

namespace Easing

open Generator (unitCount)
open Scalar (divide half two InUnit KeepsUnit InRange IntegersUpTo)
open Scalar.Rounded

variable {α : Type} [Scalar α] [Scalar.Rounded α] {p x : α} {v w : ℚ}

namespace Transform

/-! ## Powers -/

section Powers

variable (hrange : InRange α) {e : α} (he : Value e v) (hne : v ≠ 0)

include hrange he hne

/-- The power of the magnitude, before anything is reflected. -/
theorem magnitude_keepsUnit :
    KeepsUnit fun x => if e == 1 then pure x else Scalar.pow (Scalar.abs x) (Scalar.abs e) := by
  intro x hx
  simp only
  split
  · exact ⟨x, rfl, hx⟩
  · exact hrange.pow hx.abs (value_abs he) (abs_pos.mpr hne)

theorem power_keepsUnit : KeepsUnit (power e) := by
  have hpower (x : α) : power e x =
      (if e == 1 then pure (if e < 0 then 1 - x else x) else
        Scalar.pow (Scalar.abs (if e < 0 then 1 - x else x)) (Scalar.abs e)) >>= fun y =>
          pure (if e < 0 then 1 - y else y) := by
    unfold power
    cases e == 1 <;> rfl
  intro x hx
  rw [hpower]
  by_cases hneg : e < 0
  · obtain ⟨y, hy, hunit⟩ := magnitude_keepsUnit hrange he hne (1 - x) hx.one_sub
    simp only [if_pos hneg, hy]
    exact ⟨1 - y, rfl, hunit.one_sub⟩
  · obtain ⟨y, hy, hunit⟩ := magnitude_keepsUnit hrange he hne x hx
    simp only [if_neg hneg, hy]
    exact ⟨y, rfl, hunit⟩

theorem bent_keepsUnit : KeepsUnit (bent e) := by
  intro x hx
  obtain ⟨v, hv, hlow, hhigh⟩ := hx
  have htwo : RoundsTo α 2 2 := roundsTo_self Scalar.value_two
  have hminus : RoundsTo α (-1) (-1) := roundsTo_self (value_neg value_one)
  -- Twice the number is between zero and two, so its distance from one is at most one.
  obtain ⟨u, hu, hulow, huhigh⟩ := Scalar.exists_roundsTo_nonneg htwo (show 0 ≤ v * 2 by linarith)
    (by linarith)
  obtain ⟨d, hd, hdlow, hdhigh⟩ := Scalar.exists_roundsTo_between hminus Scalar.roundsTo_one
    (show -1 ≤ u - 1 by linarith) (by linarith)
  have hmoved : Value (x * two - 1) d := value_sub (value_mul hv Scalar.value_two hu) value_one hd
  have habs : InUnit (Scalar.abs (x * two - 1)) :=
    ⟨|d|, value_abs hmoved, abs_nonneg d, abs_le.mpr ⟨hdlow, hdhigh⟩⟩
  obtain ⟨y, hy, z, hz, hzlow, hzhigh⟩ := power_keepsUnit hrange he hne _ habs
  obtain ⟨s, hs, hslow, hshigh⟩ : ∃ s,
      Value (if x * two - 1 < 0 then -y else y) s ∧ -1 ≤ s ∧ s ≤ 1 := by
    split
    · exact ⟨-z, value_neg hz, by linarith, by linarith⟩
    · exact ⟨z, hz, by linarith, hzhigh⟩
  obtain ⟨t, ht, htlow, hthigh⟩ := Scalar.exists_roundsTo_nonneg htwo (show 0 ≤ s + 1 by linarith)
    (by linarith)
  obtain ⟨q, hq, hqlow, hqhigh⟩ := Scalar.exists_roundsTo_unit α (show 0 ≤ t / 2 by linarith)
    (by linarith)
  refine ⟨_, ?_, q, value_div (value_add hs value_one ht) Scalar.value_two two_ne_zero hq, hqlow,
    hqhigh⟩
  simp only [bent, hy]
  rfl

end Powers

/-! ## Slopes -/

section Slopes

variable (hp : Value p v) (hpos : 0 < v) (hlt : v < 1)

include hp hpos hlt

theorem peaked_keepsUnit : KeepsUnit (peaked p) := by
  intro x hx
  obtain ⟨w, hw, hlow, hhigh⟩ := hx
  have hself : RoundsTo α v v := roundsTo_self hp
  have hminus : RoundsTo α (-v) (-v) := roundsTo_self (value_neg hp)
  obtain ⟨d, hd, _, _⟩ := Scalar.exists_roundsTo_unit α (show 0 ≤ 1 - v by linarith) (by linarith)
  -- The longer slope ends at zero, and nothing is farther from the peak than its end.
  obtain ⟨z, hz, hunit⟩ : ∃ z, (if p < half then divide (Scalar.abs (x - p)) (1 - p)
      else divide (Scalar.abs (p - x)) p) = .ok z ∧ InUnit z := by
    by_cases hleft : v < 1 / 2
    · rw [if_pos ((lt_iff hp Scalar.value_half).mpr hleft)]
      have hshort : v ≤ d := roundsTo_mono hself hd (by linarith)
      obtain ⟨u, hu, hulow, huhigh⟩ := Scalar.exists_roundsTo_between hminus hd
        (show -v ≤ w - v by linarith) (by linarith)
      exact Scalar.exists_ratio (value_abs (value_sub hw hp hu)) (value_sub value_one hp hd)
        (abs_nonneg u) (abs_le.mpr ⟨by linarith, huhigh⟩) (by linarith)
    · rw [if_neg (mt (lt_iff hp Scalar.value_half).mp hleft)]
      obtain ⟨u, hu, hulow, huhigh⟩ := Scalar.exists_roundsTo_between hminus hself
        (show -v ≤ v - w by linarith) (by linarith)
      exact Scalar.exists_ratio (value_abs (value_sub hp hw hu)) hp (abs_nonneg u)
        (abs_le.mpr ⟨hulow, huhigh⟩) hpos.ne'
  have hpeaked : peaked p x = (if p < half then divide (Scalar.abs (x - p)) (1 - p)
      else divide (Scalar.abs (p - x)) p) >>= fun z => pure (1 - z) := by
    unfold peaked
    split <;> rfl
  rw [hpeaked, hz]
  exact ⟨1 - z, rfl, hunit.one_sub⟩

theorem pointed_keepsUnit : KeepsUnit (pointed p) := by
  intro x hx
  obtain ⟨w, hw, hlow, hhigh⟩ := hx
  unfold pointed
  by_cases hleft : w < v
  · rw [if_pos ((lt_iff hw hp).mpr hleft)]
    exact Scalar.exists_ratio hw hp hlow hleft.le hpos.ne'
  · rw [if_neg (mt (lt_iff hw hp).mp hleft)]
    obtain ⟨d, hd, _, _⟩ := Scalar.exists_roundsTo_unit α (show 0 ≤ 1 - v by linarith) (by linarith)
    obtain ⟨u, hu, hulow, huhigh⟩ := Scalar.exists_roundsTo_nonneg hd (show 0 ≤ 1 - w by linarith)
      (by linarith)
    exact Scalar.exists_ratio (value_sub value_one hw hu) (value_sub value_one hp hd) hulow huhigh
      (ne_zero_of_sub value_one hp hlt.ne' hd)

end Slopes

/-- Whichever end of the part comes first: if it is the higher one, nothing is between. -/
theorem narrow_keepsUnit {low high : α} {d : ℚ} (hlow : Value low v) (hhigh : Value high w)
    (hne : v ≠ w) (hwidth : RoundsTo α (w - v) d) : KeepsUnit (eval narrow #[low, high]) := by
  intro x hx
  obtain ⟨u, hu, _, _⟩ := hx
  change ∃ y, (if x < low then pure 0 else
    if high < x then pure 1 else divide (x - low) (high - low)) = .ok y ∧ InUnit y
  by_cases hbelow : u < v
  · rw [if_pos ((lt_iff hu hlow).mpr hbelow)]
    exact ⟨0, rfl, Scalar.inUnit_zero⟩
  · rw [if_neg (mt (lt_iff hu hlow).mp hbelow)]
    by_cases habove : w < u
    · rw [if_pos ((lt_iff hhigh hu).mpr habove)]
      exact ⟨1, rfl, Scalar.inUnit_one⟩
    · rw [if_neg (mt (lt_iff hhigh hu).mp habove)]
      obtain ⟨t, ht, htlow, hthigh⟩ := Scalar.exists_roundsTo_nonneg hwidth
        (show 0 ≤ u - v by linarith) (by linarith)
      exact Scalar.exists_ratio (value_sub hu hlow ht) (value_sub hhigh hlow hwidth) htlow hthigh
        (ne_zero_of_sub hhigh hlow hne.symm hwidth)

theorem trapez_keepsUnit {low high : α} (hlow : Value low v) (hhigh : Value high w) :
    KeepsUnit (eval trapez #[low, high]) := by
  intro x hx
  obtain ⟨u, hu, hulow, huhigh⟩ := hx
  change ∃ y, (if x < low then if low == 0 then pure 0 else divide x low else
    if high < x then if high == 1 then pure 0 else divide (1 - x) (1 - high)
    else pure 1) = .ok y ∧ InUnit y
  by_cases hrise : u < v
  · rw [if_pos ((lt_iff hu hlow).mpr hrise)]
    split
    · exact ⟨0, rfl, Scalar.inUnit_zero⟩
    · exact Scalar.exists_ratio hu hlow hulow hrise.le (by linarith)
  · rw [if_neg (mt (lt_iff hu hlow).mp hrise)]
    by_cases hfall : w < u
    · rw [if_pos ((lt_iff hhigh hu).mpr hfall)]
      split
      · exact ⟨0, rfl, Scalar.inUnit_zero⟩
      · obtain ⟨d, hd⟩ := exists_roundsTo_add_one (value_neg hhigh)
        rw [neg_add_eq_sub] at hd
        obtain ⟨t, ht, htlow, hthigh⟩ := Scalar.exists_roundsTo_nonneg hd
          (show 0 ≤ 1 - u by linarith) (by linarith)
        exact Scalar.exists_ratio (value_sub value_one hu ht) (value_sub value_one hhigh hd) htlow
          hthigh (ne_zero_of_sub value_one hhigh (by linarith) hd)
    · rw [if_neg (mt (lt_iff hhigh hu).mp hfall)]
      exact ⟨1, rfl, Scalar.inUnit_one⟩

/-! ## Angles -/

/-- A value of an angle, halved and moved up by a half. -/
theorem exists_raised {outcome : Except EvalFault α}
    (h : ∃ y w, outcome = .ok y ∧ Value y w ∧ -1 ≤ w ∧ w ≤ 1) :
    ∃ z, (outcome >>= fun y => pure (half + y / two)) = .ok z ∧ InUnit z := by
  obtain ⟨y, w, rfl, hy, hlow, hhigh⟩ := h
  have hhalf : RoundsTo α (1 / 2) (1 / 2) := Scalar.roundsTo_half
  have hminus : RoundsTo α (-(1 / 2)) (-(1 / 2)) := roundsTo_self (value_neg Scalar.value_half)
  obtain ⟨u, hu, hulow, huhigh⟩ := Scalar.exists_roundsTo_between hminus hhalf
    (show -(1 / 2) ≤ w / 2 by linarith) (by linarith)
  obtain ⟨t, ht, htlow, hthigh⟩ := Scalar.exists_roundsTo_unit α
    (show 0 ≤ 1 / 2 + u by linarith) (by linarith)
  have hquotient : Value (y / two) u := value_div hy Scalar.value_two two_ne_zero hu
  exact ⟨half + y / two, rfl, t, value_add Scalar.value_half hquotient ht, htlow, hthigh⟩

section Angles

variable (hrange : InRange α)

include hrange

theorem sin_keepsUnit : KeepsUnit (eval sin (#[] : Array α)) := by
  intro x hx
  obtain ⟨u, hu, hlow, hhigh⟩ := hx
  obtain ⟨⟨v, hv⟩, _⟩ := exists_value_angle hu hlow hhigh
  obtain ⟨y, w, hy, hw, _, hle⟩ := hrange.sin hv
  exact ⟨y, hy, w, hw, hrange.sin_pi_mul ⟨u, hu, hlow, hhigh⟩ hy hw, hle⟩

theorem fullSin_keepsUnit : KeepsUnit (eval fullSin (#[] : Array α)) := by
  intro x hx
  obtain ⟨u, hu, hlow, hhigh⟩ := hx
  obtain ⟨_, v, hv⟩ := exists_value_angle hu hlow hhigh
  exact exists_raised (hrange.sin hv)

theorem cos_keepsUnit : KeepsUnit (eval cos (#[] : Array α)) := by
  intro x hx
  obtain ⟨u, hu, hlow, hhigh⟩ := hx
  obtain ⟨⟨v, hv⟩, _⟩ := exists_value_angle hu hlow hhigh
  exact exists_raised (hrange.cos hv)

theorem fullCos_keepsUnit : KeepsUnit (eval fullCos (#[] : Array α)) := by
  intro x hx
  obtain ⟨u, hu, hlow, hhigh⟩ := hx
  obtain ⟨_, v, hv⟩ := exists_value_angle hu hlow hhigh
  exact exists_raised (hrange.cos hv)

end Angles

/-! ## Break points -/

/-- A number as it is drawn between zero and one. -/
def Drawn (x : α) : Prop := ∃ k : ℕ, k < unitCount ∧ Value x (k / unitCount)

omit [Scalar.Rounded α] in
theorem unitCount_pos : (0 : ℚ) < unitCount := by norm_num [unitCount]

theorem Drawn.inUnit (hx : Drawn x) : InUnit x := by
  obtain ⟨k, hk, hvalue⟩ := hx
  have hle : (k : ℚ) ≤ unitCount := Nat.cast_le.mpr hk.le
  exact ⟨_, hvalue, by positivity, div_le_one_of_le₀ hle unitCount_pos.le⟩

/-- A number between two drawn ones, on the line through them: their difference is not
rounded, so the line does not go beyond either. -/
theorem inUnit_between {left right share : α} (hleft : Drawn left) (hright : Drawn right)
    (hshare : InUnit share) : InUnit (left + share * (right - left)) := by
  obtain ⟨s, hs, hslow, hshigh⟩ := hshare
  obtain ⟨j, hj, hv⟩ := hleft
  obtain ⟨k, hk, hw⟩ := hright
  have hpos := unitCount_pos
  have hunit (i : ℕ) (hi : i < unitCount) : 0 ≤ (i : ℚ) / unitCount ∧ (i : ℚ) / unitCount ≤ 1 :=
    ⟨by positivity, div_le_one_of_le₀ (Nat.cast_le.mpr hi.le) hpos.le⟩
  obtain ⟨hvlow, hvhigh⟩ := hunit j hj
  obtain ⟨hwlow, hwhigh⟩ := hunit k hk
  have hdifference : RoundsTo α ((k : ℚ) / unitCount - j / unitCount)
      (k / unitCount - j / unitCount) := by
    have hself : RoundsTo α _ _ := roundsTo_unit ((k : ℤ) - j) (by rw [abs_le]; omega)
    push_cast at hself
    rwa [sub_div] at hself
  have hd : Value (right - left) _ := value_sub hw hv hdifference
  have hleftSelf : RoundsTo α _ _ := roundsTo_self hv
  have hrightSelf : RoundsTo α _ _ := roundsTo_self hw
  generalize (j : ℚ) / unitCount = v at *
  generalize (k : ℚ) / unitCount = w at *
  rcases le_total v w with hle | hle
  · obtain ⟨u, hu, hulow, huhigh⟩ := Scalar.exists_roundsTo_nonneg hdifference
      (show 0 ≤ s * (w - v) from mul_nonneg hslow (by linarith)) (by nlinarith)
    obtain ⟨t, ht, htlow, hthigh⟩ := Scalar.exists_roundsTo_between hleftSelf hrightSelf
      (show v ≤ v + u by linarith) (by linarith)
    exact ⟨t, value_add hv (value_mul hs hd hu) ht, by linarith, by linarith⟩
  · obtain ⟨u, hu, hulow, huhigh⟩ := Scalar.exists_roundsTo_between hdifference
      (Scalar.roundsTo_zero (α := α)) (show w - v ≤ s * (w - v) by nlinarith) (by nlinarith)
    obtain ⟨t, ht, htlow, hthigh⟩ := Scalar.exists_roundsTo_between hrightSelf hleftSelf
      (show w ≤ v + u by linarith) (by linarith)
    exact ⟨t, value_add hv (value_mul hs hd hu) ht, by linarith, by linarith⟩

/-- How far along so many pieces a number of the unit interval is, as a whole number of
pieces and a part of the next one. -/
theorem exists_along {n : ℕ} (hn : n ≤ maxBreakPoints) (hx : InUnit x) :
    ∃ i : ℕ, i ≤ n ∧ Scalar.truncate (Scalar.clampUnit x * ((n : ℤ) : α)) = .ok (i : ℤ) ∧
      InUnit (Scalar.clampUnit x * ((n : ℤ) : α) - ((i : ℤ) : α)) := by
  rw [Scalar.clampUnit_eq hx]
  obtain ⟨v, hv, hlow, hhigh⟩ := hx
  have hcount (i : ℕ) (hi : i ≤ n) : Value ((i : ℤ) : α) i := by
    have hle : maxBreakPoints ≤ unitCount := by decide
    exact_mod_cast (value_intCast (α := α) (n := i) (by rw [Nat.abs_cast]; omega))
  obtain ⟨a, ha, halow, hahigh⟩ := Scalar.exists_roundsTo_nonneg (roundsTo_self (hcount n le_rfl))
    (show 0 ≤ v * n by positivity) (mul_le_of_le_one_left n.cast_nonneg hhigh)
  have halong : Value (x * ((n : ℤ) : α)) a := value_mul hv (hcount n le_rfl) ha
  obtain ⟨i, hi⟩ := Int.eq_ofNat_of_zero_le (Int.floor_nonneg.mpr halow)
  have hfloor : (i : ℚ) ≤ a ∧ a < i + 1 := by
    have := Int.floor_le a
    have := Int.lt_floor_add_one a
    rw [hi] at *
    exact ⟨by assumption_mod_cast, by assumption_mod_cast⟩
  have hle : i ≤ n := Nat.cast_le.mp (hfloor.1.trans hahigh)
  refine ⟨i, hle, ?_, ?_⟩
  · rw [truncate_eq halong, if_pos halow, hi]
  · obtain ⟨u, hu, hulow, huhigh⟩ := Scalar.exists_roundsTo_unit α (show 0 ≤ a - i by linarith)
      (by linarith)
    exact ⟨u, value_sub halong (hcount i hle) hu, hulow, huhigh⟩

theorem segments_keepsUnit {n : ℕ} {points : Array α} (hn : n ≤ maxBreakPoints)
    (hsize : points.size = n + 2) (hdrawn : ∀ p ∈ points, Drawn p) :
    KeepsUnit (segments points) := by
  intro x hx
  obtain ⟨i, hi, htruncate, hshare⟩ := exists_along hn hx
  have hcount : (points.size : ℤ) - 2 = n := by omega
  have hnext : Samples.get points ((i : ℤ) + 1) = .ok points[i + 1] :=
    Samples.get_natCast (i := i + 1) (by omega)
  unfold segments
  simp only [hcount, htruncate]
  change ∃ y, Samples.line points i _ = .ok y ∧ InUnit y
  unfold Samples.line
  rw [Samples.get_natCast (by omega), hnext]
  exact ⟨_, rfl, inUnit_between (hdrawn _ (Array.getElem_mem _)) (hdrawn _ (Array.getElem_mem _))
    hshare⟩

theorem plateaus_keepsUnit {n : ℕ} {points : Array α} (hn : n ≤ maxBreakPoints)
    (hsize : points.size = n + 1) (hdrawn : ∀ p ∈ points, Drawn p) :
    KeepsUnit (plateaus points) := by
  intro x hx
  obtain ⟨i, hi, htruncate, _⟩ := exists_along hn hx
  have hcount : (points.size : ℤ) - 1 = n := by omega
  unfold plateaus
  simp only [hcount, htruncate]
  change ∃ y, Samples.get points i = .ok y ∧ InUnit y
  rw [Samples.get_natCast (by omega)]
  exact ⟨_, rfl, (hdrawn _ (Array.getElem_mem _)).inUnit⟩

/-! ## Copies -/

section Copies

variable {count : α} (hcount : Value count v) (hintegers : IntegersUpTo α v)

include hcount hintegers

theorem fract_mul_keepsUnit (hx : InUnit x) : InUnit (Scalar.fract (x * count)) := by
  obtain ⟨w, hw, hlow, hhigh⟩ := hx
  have hself : RoundsTo α |v| |v| := roundsTo_self (value_abs hcount)
  have hminus : RoundsTo α (-|v|) (-|v|) := roundsTo_self (value_neg (value_abs hcount))
  have habs : |w * v| ≤ |v| := by
    rw [abs_mul, abs_of_nonneg hlow]
    exact mul_le_of_le_one_left (abs_nonneg v) hhigh
  obtain ⟨u, hu, hulow, huhigh⟩ := Scalar.exists_roundsTo_between hminus hself
    (abs_le.mp habs).1 (abs_le.mp habs).2
  refine Scalar.inUnit_fract (value_mul hw hcount hu) fun n hn => hintegers n (hn.trans ?_)
  exact abs_le.mpr ⟨hulow, huhigh⟩

theorem cycle_keepsUnit : KeepsUnit (eval cycle #[count]) := by
  intro x hx
  exact ⟨_, rfl, fract_mul_keepsUnit hcount hintegers hx⟩

theorem mirror_keepsUnit : KeepsUnit (eval mirror #[count]) := by
  intro x hx
  obtain ⟨w, hw, hlow, hhigh⟩ := fract_mul_keepsUnit hcount hintegers hx
  refine ⟨reflected count x, rfl, ?_⟩
  unfold reflected
  simp only
  split
  next hleft =>
    have hleft : w < 1 / 2 := (lt_iff hw Scalar.value_half).mp hleft
    obtain ⟨u, hu, hulow, huhigh⟩ := Scalar.exists_roundsTo_unit α (show 0 ≤ 2 * w by linarith)
      (by linarith)
    exact ⟨u, value_mul Scalar.value_two hw hu, hulow, huhigh⟩
  next hright =>
    have hright : ¬ w < 1 / 2 := mt (lt_iff hw Scalar.value_half).mpr hright
    have hhalf : RoundsTo α (1 / 2) (1 / 2) := Scalar.roundsTo_half
    obtain ⟨d, hd, hdlow, hdhigh⟩ := Scalar.exists_roundsTo_nonneg hhalf
      (show 0 ≤ 1 - w by linarith) (by linarith)
    obtain ⟨u, hu, hulow, huhigh⟩ := Scalar.exists_roundsTo_unit α (show 0 ≤ d * 2 by linarith)
      (by linarith)
    exact ⟨u, value_mul (value_sub value_one hw hd) Scalar.value_two hu, hulow, huhigh⟩

end Copies

/-! ## Transforms -/

/-- Parameters with which a transform takes the unit interval to itself. -/
inductive Contained : Transform → Array α → Prop
  | none {t : Transform} (ht : t ∈ [identity, invert, sin, fullSin, cos, fullCos]) :
      Contained t #[]
  | constant {p : α} (hp : InUnit p) : Contained constant #[p]
  | narrow {low high : α} {v w d : ℚ} (hlow : Value low v) (hhigh : Value high w) (hne : v ≠ w)
      (hwidth : RoundsTo α (w - v) d) : Contained narrow #[low, high]
  | bend {t : Transform} (ht : t ∈ [exp, outward, inward]) {e : α} {v : ℚ} (he : Value e v)
      (hne : v ≠ 0) : Contained t #[e]
  | inside {t : Transform} (ht : t ∈ [peak, triangle]) {p : α} {v : ℚ} (hp : Value p v)
      (hpos : 0 < v) (hlt : v < 1) : Contained t #[p]
  | trapez {low high : α} {v w : ℚ} (hlow : Value low v) (hhigh : Value high w) :
      Contained trapez #[low, high]
  | random {n : ℕ} {points : Array α} (hn : n ≤ maxBreakPoints) (hsize : points.size = n + 2)
      (hdrawn : ∀ p ∈ points, Drawn p) : Contained random points
  | squareRandom {n : ℕ} {points : Array α} (hn : n ≤ maxBreakPoints)
      (hsize : points.size = n + 1) (hdrawn : ∀ p ∈ points, Drawn p) :
      Contained squareRandom points
  | copies {t : Transform} (ht : t ∈ [cycle, mirror]) {count : α} {v : ℚ}
      (hcount : Value count v) (hintegers : IntegersUpTo α v) : Contained t #[count]

theorem Contained.ne_weight {t : Transform} {parameters : Array α} (h : t.Contained parameters) :
    t ≠ weight := by
  rintro rfl
  cases h <;> simp_all

theorem Contained.keepsUnit (hrange : InRange α) {t : Transform} {parameters : Array α}
    (h : t.Contained parameters) : KeepsUnit (t.eval parameters) := by
  cases h with
  | none ht =>
      simp only [List.mem_cons, List.not_mem_nil, or_false] at ht
      rcases ht with rfl | rfl | rfl | rfl | rfl | rfl
      · exact fun x hx => ⟨x, rfl, hx⟩
      · exact fun x hx => ⟨1 - x, rfl, hx.one_sub⟩
      · exact sin_keepsUnit hrange
      · exact fullSin_keepsUnit hrange
      · exact cos_keepsUnit hrange
      · exact fullCos_keepsUnit hrange
  | constant hp => exact fun _ _ => ⟨_, rfl, hp⟩
  | narrow hlow hhigh hne hwidth => exact narrow_keepsUnit hlow hhigh hne hwidth
  | bend ht he hne =>
      simp only [List.mem_cons, List.not_mem_nil, or_false] at ht
      rcases ht with rfl | rfl | rfl
      · exact power_keepsUnit hrange he hne
      · exact bent_keepsUnit hrange he hne
      · exact bent_keepsUnit hrange he hne
  | inside ht hp hpos hlt =>
      simp only [List.mem_cons, List.not_mem_nil, or_false] at ht
      rcases ht with rfl | rfl
      · exact peaked_keepsUnit hp hpos hlt
      · exact pointed_keepsUnit hp hpos hlt
  | trapez hlow hhigh => exact trapez_keepsUnit hlow hhigh
  | random hn hsize hdrawn => exact segments_keepsUnit hn hsize hdrawn
  | squareRandom hn hsize hdrawn => exact plateaus_keepsUnit hn hsize hdrawn
  | copies ht hcount hintegers =>
      simp only [List.mem_cons, List.not_mem_nil, or_false] at ht
      rcases ht with rfl | rfl
      · exact cycle_keepsUnit hcount hintegers
      · exact mirror_keepsUnit hcount hintegers

end Transform

end Easing
