import Easing.Proofs.Definition.Consumption
import Easing.Proofs.Number.Guards

/-! # Why a curve has no value

A step that was read has parameters of which its transform can make something: their
number is right, and no divisor among them is zero. What is left are the faults of powers,
of angles and of an undefined place among break points, and each of them belongs to a few
transforms alone. Positions are never counted from the end.
-/

namespace Easing

variable {α : Type}

/-! ## Readers of positions -/

/-- The number at a position that is counted from the start. -/
def Samples.forward (samples : Array α) (position : Int) : Except EvalFault α :=
  if position < 0 then .error .positionOutOfRange else get samples position

theorem Samples.forward_of_nonneg {position : Int} (h : 0 ≤ position) (samples : Array α) :
    forward samples position = get samples position :=
  if_neg h.not_gt

section Values

variable [Scalar α]

open Scalar (divide half two)

/-- The line through two neighbouring numbers, with any way of reading them. -/
def Samples.lineBy (read : Array α → Int → Except EvalFault α) (samples : Array α)
    (position : Int) (along : α) : Except EvalFault α := do
  let left ← read samples position
  let right ← read samples (position + 1)
  return left + (along - (position : α)) * (right - left)

theorem Samples.lineBy_forward {position : Int} (h : 0 ≤ position) (samples : Array α)
    (along : α) : lineBy forward samples position along = line samples position along := by
  unfold lineBy line
  rw [forward_of_nonneg h, forward_of_nonneg (by omega)]

namespace Transform

/-- The value of a transform, with any way of reading its parameters. -/
def evalBy (read : Array α → Int → Except EvalFault α) (t : Transform) (parameters : Array α)
    (x : α) : Except EvalFault α :=
  match t with
  | identity => return x
  | invert => return 1 - x
  | constant => read parameters 0
  | narrow => do
    let low ← read parameters 0
    if x < low then return 0
    else
      let high ← read parameters 1
      if high < x then return 1 else divide (x - low) (high - low)
  | exp => do power (← read parameters 0) x
  | outward | inward => do bent (← read parameters 0) x
  | peak => do peaked (← read parameters 0) x
  | triangle => do pointed (← read parameters 0) x
  | trapez => do
    let low ← read parameters 0
    if x < low then if low == 0 then return 0 else divide x low
    else
      let high ← read parameters 1
      if high < x then if high == 1 then return 0 else divide (1 - x) (1 - high)
      else return 1
  | sin => Scalar.sin (Scalar.pi * x)
  | fullSin => return half + (← Scalar.sin (two * Scalar.pi * x)) / two
  | cos => return half + (← Scalar.cos (Scalar.pi * x)) / two
  | fullCos => return half + (← Scalar.cos (two * Scalar.pi * x)) / two
  | random => do
    let along := Scalar.clampUnit x * (((parameters.size : Int) - 2 : Int) : α)
    Samples.lineBy read parameters (← Scalar.truncate along) along
  | squareRandom => do
    let along := Scalar.clampUnit x * (((parameters.size : Int) - 1 : Int) : α)
    read parameters (← Scalar.truncate along)
  | cycle => return Scalar.fract (x * (← read parameters 0))
  | mirror => return reflected (← read parameters 0) x
  | weight => return x * (← read parameters 0)

/-- Evaluation reads as sequences are indexed, where negative positions count from the end. -/
theorem evalBy_get (t : Transform) (parameters : Array α) (x : α) :
    t.evalBy Samples.get parameters x = t.eval parameters x := by
  cases t <;> rfl

/-! ## Parameters that fit -/

/-- Parameters that a transform can compute with. -/
inductive Fits : Transform → Array α → Prop
  | none {t : Transform} (ht : t ∈ [identity, invert, sin, fullSin, cos, fullCos]) : Fits t #[]
  | one {t : Transform} (ht : t ∈ [constant, exp, outward, inward, cycle, mirror, weight])
      (p : α) : Fits t #[p]
  /-- The two ends differ. -/
  | narrow {low high : α} (h : (low == high) = false) : Fits narrow #[low, high]
  | trapez (low high : α) : Fits trapez #[low, high]
  /-- The peak is inside the unit interval. -/
  | inside {t : Transform} (ht : t ∈ [peak, triangle]) {p : α} (hpos : 0 < p) (hlt : p < 1) :
      Fits t #[p]
  /-- There are two points more than segments. -/
  | random {n : Nat} {points : Array α} (hpos : 0 < n) (hle : n ≤ maxBreakPoints)
      (hsize : points.size = n + 2) : Fits random points
  /-- There is one height more than plateaus. -/
  | squareRandom {n : Nat} {points : Array α} (hpos : 0 < n) (hle : n ≤ maxBreakPoints)
      (hsize : points.size = n + 1) : Fits squareRandom points

/-- The one reason for which a transform can have no value. -/
def fault? : Transform → Option EvalFault
  | exp | outward | inward => some .powerTooLarge
  | sin | fullSin | cos | fullCos => some .infiniteAngle
  | random | squareRandom => some .integerOfNaN
  | _ => none

end Transform

/-! ## Divisions -/

section Guarded

variable [Scalar.Guarded α] {p x y : α} {f : EvalFault}

omit [Scalar.Guarded α] in
theorem Scalar.divide_eq_ok (h : (y == 0) = false) (x : α) : divide x y = .ok (x / y) := by
  unfold divide
  rw [h]
  rfl

theorem Scalar.sub_beq_zero (h : (x == y) = false) : (x - y == 0) = false := by
  by_contra hzero
  rw [Bool.not_eq_false] at hzero
  rw [Guarded.beq_of_sub hzero] at h
  cases h

theorem Scalar.beq_zero_of_pos (h : 0 < x) : (x == 0) = false := by
  rw [Guarded.beq_comm]
  exact Guarded.beq_of_lt h

/-- What is below one is not as far as one away from zero. -/
theorem Scalar.one_sub_beq_zero (h : x < 1) : (1 - x == 0) = false := by
  apply sub_beq_zero
  rw [Guarded.beq_comm]
  exact Guarded.beq_of_lt h

namespace Transform

theorem peaked_eq_ok (hpos : 0 < p) (hlt : p < 1) (x : α) : ∃ y, peaked p x = .ok y := by
  unfold peaked
  by_cases h : p < half
  · rw [if_pos h, Scalar.divide_eq_ok (Scalar.one_sub_beq_zero hlt)]
    exact ⟨_, rfl⟩
  · rw [if_neg h, Scalar.divide_eq_ok (Scalar.beq_zero_of_pos hpos)]
    exact ⟨_, rfl⟩

theorem pointed_eq_ok (hpos : 0 < p) (hlt : p < 1) (x : α) : ∃ y, pointed p x = .ok y := by
  unfold pointed
  by_cases h : x < p
  · rw [if_pos h, Scalar.divide_eq_ok (Scalar.beq_zero_of_pos hpos)]
    exact ⟨_, rfl⟩
  · rw [if_neg h, Scalar.divide_eq_ok (Scalar.one_sub_beq_zero hlt)]
    exact ⟨_, rfl⟩

/-- The width of the part that is stretched is not zero. -/
theorem eval_narrow_eq_ok {low high : α} (h : (low == high) = false) (x : α) :
    ∃ y, eval narrow #[low, high] x = .ok y := by
  have hwidth : (high - low == 0) = false := by
    apply Scalar.sub_beq_zero
    rwa [Scalar.Guarded.beq_comm]
  change ∃ y, (if x < low then pure 0 else
    if high < x then pure 1 else divide (x - low) (high - low)) = Except.ok y
  rw [Scalar.divide_eq_ok hwidth]
  split
  · exact ⟨_, rfl⟩
  · split <;> exact ⟨_, rfl⟩

/-- The rise and the fall are divided by only if they have a width. -/
theorem eval_trapez_eq_ok (low high x : α) : ∃ y, eval trapez #[low, high] x = .ok y := by
  change ∃ y, (if x < low then if low == 0 then pure 0 else divide x low else
    if high < x then if high == 1 then pure 0 else divide (1 - x) (1 - high)
    else pure 1) = Except.ok y
  by_cases hrise : x < low
  · rw [if_pos hrise]
    cases hlow : low == 0 with
    | true => exact ⟨_, rfl⟩
    | false =>
        rw [if_neg Bool.false_ne_true, Scalar.divide_eq_ok hlow]
        exact ⟨_, rfl⟩
  · rw [if_neg hrise]
    by_cases hfall : high < x
    · rw [if_pos hfall]
      cases hhigh : high == 1 with
      | true => exact ⟨_, rfl⟩
      | false =>
          rw [Scalar.Guarded.beq_comm] at hhigh
          rw [if_neg Bool.false_ne_true, Scalar.divide_eq_ok (Scalar.sub_beq_zero hhigh)]
          exact ⟨_, rfl⟩
    · rw [if_neg hfall]
      exact ⟨_, rfl⟩

/-! ## Powers -/

theorem power_eq_error {e : α} (h : power e x = .error f) : f = .powerTooLarge := by
  unfold power at h
  simp only at h
  split at h
  · cases h
  · exact Scalar.Guarded.pow_error (Except.eq_error_of_bind_pure h)

theorem bent_eq_error {e : α} (h : bent e x = .error f) : f = .powerTooLarge := by
  unfold bent at h
  exact power_eq_error (Except.eq_error_of_bind_pure h)

/-! ## Break points -/

/-- The position of a break point: it is undefined, or a natural number up to the count. -/
theorem exists_position {n size : Nat} {k : Int} (hpos : 0 < n) (hle : n ≤ maxBreakPoints)
    (hsize : size - k = (n : Int)) (x : α) :
    Scalar.truncate (Scalar.clampUnit x * (((size : Int) - k : Int) : α)) =
        .error .integerOfNaN ∨
      ∃ i : Nat, i ≤ n ∧
        Scalar.truncate (Scalar.clampUnit x * (((size : Int) - k : Int) : α)) = .ok (i : Int) := by
  rw [hsize]
  exact Scalar.Guarded.truncate_share hpos hle x

theorem segments_eq_error {n : Nat} {points : Array α} (hpos : 0 < n) (hle : n ≤ maxBreakPoints)
    (hsize : points.size = n + 2) (h : segments points x = .error f) : f = .integerOfNaN := by
  unfold segments at h
  simp only at h
  rcases exists_position hpos hle (show (points.size : Int) - 2 = n by omega) x with
    hnan | ⟨i, hi, hposition⟩
  · rw [hnan] at h
    cases h
    rfl
  · rw [hposition] at h
    change Samples.line points i _ = _ at h
    unfold Samples.line at h
    have hnext : Samples.get points ((i : Int) + 1) = .ok points[i + 1] :=
      Samples.get_natCast (i := i + 1) (by omega)
    rw [Samples.get_natCast (by omega), hnext] at h
    cases h

theorem plateaus_eq_error {n : Nat} {points : Array α} (hpos : 0 < n) (hle : n ≤ maxBreakPoints)
    (hsize : points.size = n + 1) (h : plateaus points x = .error f) : f = .integerOfNaN := by
  unfold plateaus at h
  simp only at h
  rcases exists_position hpos hle (show (points.size : Int) - 1 = n by omega) x with
    hnan | ⟨i, hi, hposition⟩
  · rw [hnan] at h
    cases h
    rfl
  · rw [hposition] at h
    change Samples.get points i = _ at h
    rw [Samples.get_natCast (by omega)] at h
    cases h

/-- With parameters that fit, a transform has no value for one reason at most. -/
theorem Fits.eval_eq_error {t : Transform} {parameters : Array α} (hfits : t.Fits parameters)
    (h : t.eval parameters x = .error f) : t.fault? = some f := by
  cases hfits with
  | none ht =>
      simp only [List.mem_cons, List.not_mem_nil, or_false] at ht
      rcases ht with rfl | rfl | rfl | rfl | rfl | rfl
      · cases h
      · cases h
      · exact congrArg some (Scalar.Guarded.sin_error h).symm
      · exact congrArg some (Scalar.Guarded.sin_error (Except.eq_error_of_bind_pure h)).symm
      · exact congrArg some (Scalar.Guarded.cos_error (Except.eq_error_of_bind_pure h)).symm
      · exact congrArg some (Scalar.Guarded.cos_error (Except.eq_error_of_bind_pure h)).symm
  | one ht p =>
      simp only [List.mem_cons, List.not_mem_nil, or_false] at ht
      rcases ht with rfl | rfl | rfl | rfl | rfl | rfl | rfl
      · cases h
      · exact congrArg some (power_eq_error h).symm
      · exact congrArg some (bent_eq_error h).symm
      · exact congrArg some (bent_eq_error h).symm
      · cases h
      · cases h
      · cases h
  | narrow hne =>
      obtain ⟨y, hy⟩ := eval_narrow_eq_ok hne x
      cases hy.symm.trans h
  | trapez low high =>
      obtain ⟨y, hy⟩ := eval_trapez_eq_ok low high x
      cases hy.symm.trans h
  | @inside _ ht p hpos hlt =>
      simp only [List.mem_cons, List.not_mem_nil, or_false] at ht
      rcases ht with rfl | rfl
      · obtain ⟨y, hy⟩ := peaked_eq_ok hpos hlt x
        cases hy.symm.trans h
      · obtain ⟨y, hy⟩ := pointed_eq_ok hpos hlt x
        cases hy.symm.trans h
  | random hpos hle hsize =>
      rw [segments_eq_error hpos hle hsize h]
      rfl
  | squareRandom hpos hle hsize =>
      rw [plateaus_eq_error hpos hle hsize h]
      rfl

/-- With parameters that fit, no position is counted from the end. -/
theorem Fits.evalBy_forward {t : Transform} {parameters : Array α} (hfits : t.Fits parameters)
    (x : α) : t.evalBy Samples.forward parameters x = t.eval parameters x := by
  cases hfits with
  | random hpos hle hsize =>
      change (Scalar.truncate _ >>= fun position =>
        Samples.lineBy Samples.forward parameters position _) =
          Scalar.truncate _ >>= fun position => Samples.line parameters position _
      rcases exists_position hpos hle (show (parameters.size : Int) - 2 = _ by omega) x with
        hnan | ⟨i, _, hposition⟩
      · rw [hnan]
        rfl
      · rw [hposition]
        exact Samples.lineBy_forward (Int.natCast_nonneg i) parameters _
  | squareRandom hpos hle hsize =>
      change (Scalar.truncate _ >>= fun position => Samples.forward parameters position) =
          Scalar.truncate _ >>= fun position => Samples.get parameters position
      rcases exists_position hpos hle (show (parameters.size : Int) - 1 = _ by omega) x with
        hnan | ⟨i, _, hposition⟩
      · rw [hnan]
        rfl
      · rw [hposition]
        exact Samples.forward_of_nonneg (Int.natCast_nonneg i) parameters
  -- The other parameters are read at the positions zero and one.
  | none ht | one ht p | inside ht hpos hlt =>
      cases t <;> first | rfl | simp at ht
  | narrow h => rfl
  | trapez low high => rfl

end Transform

end Guarded

end Values

/-! ## Expressions that were read -/

section Reading

variable [Scalar α] [Scalar.Guarded α] [Scalar.HasIntegerPart α]

omit [Scalar.HasIntegerPart α] in
/-- The number of break points is the count that was accepted. -/
theorem Transform.exists_wholePart {count : α}
    (h : (Scalar.isFinite count && decide (1 ≤ count)
      && decide (count ≤ (maxBreakPoints : α))) = true) :
    0 < Scalar.wholePart count ∧ Scalar.wholePart count ≤ maxBreakPoints := by
  simp only [Bool.and_eq_true, decide_eq_true_eq] at h
  obtain ⟨⟨hfinite, hone⟩, hle⟩ := h
  obtain ⟨n, hpos, hn, htruncate⟩ := Scalar.Guarded.truncate_count hfinite hone hle
  have hpart : Scalar.wholePart count = n := by
    rw [Scalar.wholePart, htruncate]
    exact Int.toNat_natCast n
  rw [hpart]
  exact ⟨hpos, hn⟩

/-- What accepted arguments resolve to fits. -/
theorem Transform.fits_of_resolveAccepted {t : Transform} {argument : Nat → α}
    (haccepts : t.accepts argument = true) {g g' : Generator} {notices : List (Notice α)}
    {parameters : Array α} (h : t.resolveAccepted ((List.range t.parameterCount).map argument) g =
      (⟨notices, .ok parameters⟩, g')) : t.Fits parameters := by
  cases t with
  | random =>
      obtain ⟨hpos, hle⟩ := exists_wholePart haccepts
      obtain ⟨_, happly, hdrawn⟩ := resolveAccepted_apply haccepts g
      cases happly.symm.trans h
      change parameters = (Generator.units (Scalar.wholePart (argument 0) + 2) g).1.toArray
        at hdrawn
      exact .random hpos hle (by rw [hdrawn, List.size_toArray, Generator.length_units])
  | squareRandom =>
      obtain ⟨hpos, hle⟩ := exists_wholePart haccepts
      obtain ⟨_, happly, hdrawn⟩ := resolveAccepted_apply haccepts g
      cases happly.symm.trans h
      change parameters = ((Generator.units (Scalar.wholePart (argument 0)) g).1 ++
        (Generator.units (Scalar.wholePart (argument 0)) g).1.getLast?.toList).toArray at hdrawn
      have hlength := Generator.length_units (α := α) (Scalar.wholePart (argument 0)) g
      generalize (Generator.units (Scalar.wholePart (argument 0)) g : List α × Generator).1 =
        heights at hdrawn hlength
      -- There is a last height to be taken twice.
      have hne : heights ≠ [] := List.ne_nil_of_length_pos (hlength ▸ hpos)
      refine .squareRandom hpos hle ?_
      rw [hdrawn, List.size_toArray, List.length_append, hlength, List.getLast?_eq_some_getLast hne]
      rfl
  | narrow =>
      cases h
      exact .narrow ((Bool.not_eq_true' _).mp haccepts)
  | trapez =>
      cases h
      exact .trapez _ _
  | peak | triangle =>
      cases h
      simp only [accepts, Bool.and_eq_true, decide_eq_true_eq] at haccepts
      exact .inside (by simp) haccepts.1 haccepts.2
  | identity | invert | sin | fullSin | cos | fullCos =>
      cases h
      exact .none (by simp)
  | constant | exp | outward | inward | cycle | mirror | weight =>
      cases h
      exact .one (by simp) _

variable [Numeral α]

theorem Step.fits_of_parse {text : List Char} {step : Step α} {g g' : Generator}
    {notices : List (Notice α)} (h : parse text g = (⟨notices, .ok step⟩, g')) :
    step.transform.Fits step.parameters := by
  obtain ⟨argument, hargument, haccepts, hresolve⟩ := accepted_of_parse h
  rw [hargument] at hresolve
  exact Transform.fits_of_resolveAccepted haccepts hresolve

theorem Chain.fits_of_parse {text : List Char} {chain : Chain α} {g g' : Generator}
    {notices : List (Notice α)} (h : parse text g = (⟨notices, .ok chain⟩, g')) :
    ∀ step ∈ chain.steps, step.transform.Fits step.parameters := by
  obtain ⟨_, steps, hsteps, hcollect⟩ := Build.collect_eq_ok h
  obtain ⟨rfl, _⟩ := Chain.ofSteps_eq_ok hcollect
  exact Build.forall_of_mapM (fun _ _ _ _ _ hread => Step.fits_of_parse hread) hsteps

/-- An expression whose steps fit, and which is an average of something. -/
structure Expression.Fits (e : Expression α) : Prop where
  steps : ∀ step ∈ e.steps, step.transform.Fits step.parameters
  totalWeight : (e.totalWeight == 0) = false

omit [Scalar.Guarded α] [Scalar.HasIntegerPart α] in
theorem Expression.totalWeight_of_ofChains {chains : List (Chain α)} {e : Expression α}
    (h : ofChains chains = .ok e) : (e.totalWeight == 0) = false := by
  unfold ofChains at h
  split at h
  · cases h
  · simp only at h
    split at h
    · cases h
    next hweight =>
      cases h
      exact Bool.not_eq_true _ ▸ hweight

theorem Expression.fits_of_parse {text : String} {e : Expression α} {g : Generator}
    (h : (parse text g).1.result = .ok e) : e.Fits := by
  rcases hparse : (parse text : Build α _) g with ⟨⟨notices, result⟩, g'⟩
  rw [hparse] at h
  subst h
  obtain ⟨_, chains, hchains, hcollect⟩ := Build.collect_eq_ok hparse
  refine ⟨?_, totalWeight_of_ofChains hcollect⟩
  obtain ⟨rfl, _⟩ := Expression.ofChains_eq_ok hcollect
  intro step hstep
  obtain ⟨chain, hchain, hstep⟩ := List.mem_flatMap.mp hstep
  have hfits : ∀ chain ∈ chains, ∀ step ∈ chain.steps, step.transform.Fits step.parameters :=
    Build.forall_of_mapM (fun _ _ _ _ _ hread => Chain.fits_of_parse hread) hchains
  exact hfits chain hchain step hstep

end Reading

section Evaluation

variable [Scalar α] [Scalar.Guarded α] {x : α} {f : EvalFault}

theorem Chain.exists_of_eval_eq_error {chain : Chain α}
    (hfits : ∀ step ∈ chain.steps, step.transform.Fits step.parameters)
    (h : chain.eval x = .error f) : ∃ step ∈ chain.steps, step.transform.fault? = some f := by
  obtain ⟨step, hstep, y, hy⟩ := Except.exists_of_foldlM_eq_error h
  exact ⟨step, hstep, (hfits step hstep).eval_eq_error hy⟩

/-- An expression has no value for the reasons of its steps alone. -/
theorem Expression.Fits.exists_of_eval_eq_error {e : Expression α} (hfits : e.Fits)
    (h : e.eval x = .error f) : ∃ step ∈ e.steps, step.transform.fault? = some f := by
  unfold eval at h
  rcases Except.bind_eq_error_iff.mp h with h | ⟨_, _, h⟩
  · obtain ⟨chain, hchain, hvalue⟩ := Except.exists_of_mapM_eq_error h
    have hsteps : ∀ step ∈ chain.steps, step ∈ e.steps :=
      fun step hstep => List.mem_flatMap.mpr ⟨chain, hchain, hstep⟩
    obtain ⟨step, hstep, hfault⟩ := Chain.exists_of_eval_eq_error
      (fun step hstep => hfits.steps step (hsteps step hstep)) hvalue
    exact ⟨step, hsteps step hstep, hfault⟩
  · rw [Scalar.divide_eq_ok hfits.totalWeight] at h
    cases h

end Evaluation

end Easing
