import Easing.Proofs.Expression.Composition
import Easing.Proofs.Transform.UnitInterval

/-! # Averages in the unit interval

A weight scales the value of its chain by as much as the chain counts in the average.
Added up from left to right, the values therefore never get ahead of the weights, even
if both sums are rounded at every chain, and the average is a number of the unit
interval as soon as all steps keep to it.
-/

namespace Easing

open Generator (unitCount)
open Scalar (InUnit KeepsUnit InRange)
open Scalar.Rounded

variable {α : Type} [Scalar α] [Scalar.Rounded α] {x : α} {s t u w : ℚ}

/-! ## Parameters of steps that were read -/

instance : Scalar.HasIntegerPart α where
  truncate_of_isFinite h := by
    obtain ⟨v, hv⟩ := isFinite_iff.mp h
    exact ⟨_, truncate_eq hv⟩

/-- What is drawn between zero and one is a multiple of the smallest such number. -/
theorem Generator.drawn_of_mem_units {count : ℕ} {g : Generator}
    (h : x ∈ (Generator.units count g).1) : Transform.Drawn x := by
  induction count generalizing g with
  | zero => cases h
  | succ count ih =>
      rcases List.mem_cons.mp h with rfl | htail
      · have hlt : g.next53.1 < unitCount := by
          change g.next64.1.toNat >>> 11 < 2 ^ 53
          have hbits := g.next64.1.isLt
          rw [Nat.shiftRight_eq_div_pow]
          omega
        have hself : RoundsTo α _ _ := roundsTo_unit (g.next53.1 : ℤ) (by rw [Nat.abs_cast]; omega)
        push_cast at hself
        exact ⟨g.next53.1, hlt, value_div (value_natCast hlt.le) (value_natCast le_rfl)
          Transform.unitCount_pos.ne' hself⟩
      · exact ih htail

namespace Transform

/-- Arguments that, if they are accepted, lead to moderate parameters. -/
def Mild (t : Transform) (argument : ℕ → α) : Prop :=
  match t with
  | constant => InUnit (argument 0)
  | narrow => ∃ v w d, Value (argument 0) v ∧ Value (argument 1) w ∧ RoundsTo α (w - v) d
  | cycle | mirror => ∃ v, Value (argument 0) v ∧ Scalar.IntegersUpTo α v
  | weight => False
  | _ => ∀ i, ∃ v, Value (argument i) v

theorem exists_wholePart_le {count : α} (hone : 1 ≤ count) (hle : count ≤ (maxBreakPoints : α))
    (hfinite : Scalar.isFinite count = true) :
    0 < Scalar.wholePart count ∧ Scalar.wholePart count ≤ maxBreakPoints := by
  obtain ⟨v, hv⟩ := isFinite_iff.mp hfinite
  have hone : 1 ≤ v := (le_iff value_one hv).mp hone
  have hle : v ≤ maxBreakPoints := (le_iff hv (value_natCast (by decide))).mp hle
  have hpart : Scalar.wholePart count = ⌊v⌋.toNat := by
    rw [Scalar.wholePart, truncate_eq hv, if_pos (by linarith)]
  have hfloor : 1 ≤ ⌊v⌋ := Int.le_floor.mpr (by exact_mod_cast hone)
  have hfloorLe : ⌊v⌋ ≤ maxBreakPoints := by
    have hcast : (⌊v⌋ : ℚ) ≤ maxBreakPoints := (Int.floor_le v).trans hle
    exact_mod_cast hcast
  omega

/-- What accepted arguments resolve to is moderate. -/
theorem contained_of_resolveAccepted {t : Transform} {argument : ℕ → α}
    (haccepts : t.accepts argument = true) (hmild : t.Mild argument) {g g' : Generator}
    {notices : List (Notice α)} {parameters : Array α}
    (h : t.resolveAccepted ((List.range t.parameterCount).map argument) g =
      (⟨notices, .ok parameters⟩, g')) : t.Contained parameters := by
  obtain ⟨_, happly, hdrawn⟩ := resolveAccepted_apply haccepts g
  cases happly.symm.trans h
  cases t with
  | random =>
      simp only [accepts, Bool.and_eq_true, decide_eq_true_eq] at haccepts
      obtain ⟨_, hle⟩ := exists_wholePart_le haccepts.1.2 haccepts.2 haccepts.1.1
      change parameters = (Generator.units (Scalar.wholePart (argument 0) + 2) g).1.toArray
        at hdrawn
      subst hdrawn
      refine .random hle ?_ fun p hp => Generator.drawn_of_mem_units (List.mem_toArray.mp hp)
      rw [List.size_toArray, Generator.length_units]
  | squareRandom =>
      simp only [accepts, Bool.and_eq_true, decide_eq_true_eq] at haccepts
      obtain ⟨hpos, hle⟩ := exists_wholePart_le haccepts.1.2 haccepts.2 haccepts.1.1
      change parameters = ((Generator.units (Scalar.wholePart (argument 0)) g).1 ++
        (Generator.units (Scalar.wholePart (argument 0)) g).1.getLast?.toList).toArray at hdrawn
      have hlength := Generator.length_units (α := α) (Scalar.wholePart (argument 0)) g
      have hheights (p : α) (hp : p ∈ (Generator.units (Scalar.wholePart (argument 0)) g).1) :
          Drawn p := Generator.drawn_of_mem_units hp
      generalize (Generator.units (Scalar.wholePart (argument 0)) g : List α × Generator).1 =
        heights at hdrawn hlength hheights
      have hne : heights ≠ [] := List.ne_nil_of_length_pos (hlength ▸ hpos)
      subst hdrawn
      -- The height that is taken twice is one of those that were drawn.
      refine .squareRandom hle ?_ fun p hp => hheights p ?_
      · rw [List.size_toArray, List.length_append, hlength,
          List.getLast?_eq_some_getLast hne]
        rfl
      · rcases List.mem_append.mp (List.mem_toArray.mp hp) with hp | hp
        · exact hp
        · exact List.mem_of_getLast? (Option.mem_toList.mp hp)
  | narrow =>
      cases h
      obtain ⟨v, w, d, hv, hw, hd⟩ := hmild
      refine .narrow hv hw ?_ hd
      have hdiffer := (Bool.not_eq_true' _).mp haccepts
      rw [← Bool.not_eq_true, beq_iff hv hw] at hdiffer
      exact hdiffer
  | trapez =>
      cases h
      obtain ⟨v, hv⟩ := hmild 0
      obtain ⟨w, hw⟩ := hmild 1
      exact .trapez hv hw
  | peak | triangle =>
      cases h
      obtain ⟨v, hv⟩ := hmild 0
      simp only [accepts, Bool.and_eq_true, decide_eq_true_eq] at haccepts
      exact .inside (by simp) hv ((lt_iff value_zero hv).mp haccepts.1)
        ((lt_iff hv value_one).mp haccepts.2)
  | exp | outward | inward =>
      cases h
      obtain ⟨v, hv⟩ := hmild 0
      have hne : v ≠ 0 := by
        have hzero := (Bool.not_eq_true' _).mp haccepts
        rwa [← Bool.not_eq_true, beq_iff hv value_zero] at hzero
      first
      | exact .bend (by simp) hv hne
      | exact .bend (by simp) (value_neg hv) (neg_ne_zero.mpr hne)
  | identity | invert | sin | fullSin | cos | fullCos =>
      cases h
      exact .none (by simp)
  | constant =>
      cases h
      exact .constant hmild
  | cycle | mirror =>
      cases h
      obtain ⟨v, hv, hintegers⟩ := hmild
      exact .copies (by simp) hv hintegers
  | weight => exact hmild.elim

end Transform

/-! ## Sums -/

variable (α) in
/-- A sum from left to right that is rounded at every number. -/
inductive SumsTo : ℚ → List ℚ → ℚ → Prop
  | nil (s : ℚ) : SumsTo s [] s
  | cons {s w t u : ℚ} {ws : List ℚ} (h : RoundsTo α (s + w) t) (hrest : SumsTo t ws u) :
      SumsTo s (w :: ws) u

namespace SumsTo

variable {ws : List ℚ}

theorem value (hsum : SumsTo α s ws u) {xs : List α} (hx : Value x s)
    (h : List.Forall₂ Value xs ws) : Value (xs.foldl (· + ·) x) u := by
  induction hsum generalizing x xs with
  | nil s =>
      cases h
      exact hx
  | cons hround _ ih =>
      cases h with
      | cons hhead htail =>
          rw [List.foldl_cons]
          exact ih (value_add hx hhead hround) htail

/-- Smaller numbers have a smaller sum. -/
theorem exists_le (hsum : SumsTo α s ws u) {ys : List α} (hx : Value x t) (hlow : 0 ≤ t)
    (hle : t ≤ s) (h : List.Forall₂ (fun y w => ∃ v, Value y v ∧ 0 ≤ v ∧ v ≤ w) ys ws) :
    ∃ v, Value (ys.foldl (· + ·) x) v ∧ 0 ≤ v ∧ v ≤ u := by
  induction hsum generalizing t x ys with
  | nil s =>
      cases h
      exact ⟨t, hx, hlow, hle⟩
  | cons hround _ ih =>
      cases h with
      | cons hhead htail =>
          obtain ⟨v, hv, hvlow, hvle⟩ := hhead
          obtain ⟨z, hz, hzlow, hzle⟩ := Scalar.exists_roundsTo_nonneg hround
            (add_nonneg hlow hvlow) (add_le_add hle hvle)
          rw [List.foldl_cons]
          exact ih (value_add hx hv hz) hzlow hzle htail

end SumsTo

/-! ## Chains -/

namespace Chain

/-- A chain of steps that keep to the unit interval, and its weight. -/
inductive Contained : Chain α → ℚ → Prop
  | plain {steps : List (Step α)}
      (hsteps : ∀ step ∈ steps, step.transform.Contained step.parameters) : Contained ⟨steps⟩ 1
  | weighted {steps : List (Step α)}
      (hsteps : ∀ step ∈ steps, step.transform.Contained step.parameters)
      {arguments : List α} {p : α} {w : ℚ} (hp : Value p w) (hw : 0 ≤ w) :
      Contained ⟨steps ++ [⟨.weight, arguments, #[p]⟩]⟩ w

theorem foldlM_keepsUnit (hrange : InRange α) {steps : List (Step α)}
    (hsteps : ∀ step ∈ steps, step.transform.Contained step.parameters) :
    KeepsUnit fun x => steps.foldlM (fun x step => step.eval x) x := by
  induction steps with
  | nil => exact fun x hx => ⟨x, rfl, hx⟩
  | cons step steps ih =>
      intro x hx
      obtain ⟨y, hy, hunit⟩ := (hsteps step List.mem_cons_self).keepsUnit hrange x hx
      obtain ⟨z, hz, hresult⟩ :=
        ih (fun step hstep => hsteps step (List.mem_cons_of_mem _ hstep)) y hunit
      refine ⟨z, ?_, hresult⟩
      have hstep : step.eval x = .ok y := hy
      simp only [List.foldlM_cons, hstep]
      exact hz

variable {chain : Chain α}

/-- The values of a chain are in the unit interval, scaled by the weight. -/
theorem Contained.exists_eval (hrange : InRange α) (h : chain.Contained w) (hx : InUnit x) :
    ∃ y, chain.eval x = .ok y ∧ ∃ v, Value y v ∧ 0 ≤ v ∧ v ≤ w := by
  cases h with
  | plain hsteps => exact foldlM_keepsUnit hrange hsteps x hx
  | @weighted steps hsteps arguments p _ hp hw =>
      obtain ⟨y, hy, v, hv, hlow, hhigh⟩ := foldlM_keepsUnit hrange hsteps x hx
      obtain ⟨u, hu, hulow, huhigh⟩ := Scalar.exists_roundsTo_nonneg (roundsTo_self hp)
        (mul_nonneg hlow hw) (mul_le_of_le_one_left hw hhigh)
      refine ⟨y * p, ?_, u, value_mul hv hp hu, hulow, huhigh⟩
      simp only at hy
      rw [eval, List.foldlM_append, hy]
      rfl

theorem Contained.value_weight (h : chain.Contained w) : Value chain.weight w := by
  cases h with
  | plain hsteps =>
      rw [weight_of_clear fun step hstep => (hsteps step hstep).ne_weight]
      exact value_one
  | weighted hsteps hp hw =>
      rw [weight, List.getLast?_concat]
      exact hp

end Chain

/-! ## Averages -/

namespace Expression

/-- An average of chains whose steps keep to the unit interval, where something counts. -/
structure Contained (e : Expression α) : Prop where
  exists_weights : ∃ ws u, List.Forall₂ Chain.Contained e.chains ws ∧ SumsTo α 0 ws u ∧ u ≠ 0

variable {e : Expression α}

theorem exists_mapM_eval (hrange : InRange α) (hx : InUnit x) {chains : List (Chain α)}
    {ws : List ℚ} (h : List.Forall₂ Chain.Contained chains ws) :
    ∃ ys, chains.mapM (·.eval x) = .ok ys ∧
      List.Forall₂ (fun y w => ∃ v, Value y v ∧ 0 ≤ v ∧ v ≤ w) ys ws := by
  induction h with
  | nil => exact ⟨[], rfl, .nil⟩
  | cons hhead _ ih =>
      obtain ⟨y, hy, hvalue⟩ := hhead.exists_eval hrange hx
      obtain ⟨ys, hys, hvalues⟩ := ih
      refine ⟨y :: ys, ?_, .cons hvalue hvalues⟩
      rw [List.mapM_cons, hy, hys]
      rfl

/-- Curves of the unit interval, evaluated there, have values, and these are there. -/
theorem Contained.keepsUnit (hrange : InRange α) (h : e.Contained) : KeepsUnit e.eval := by
  intro x hx
  obtain ⟨ws, u, hchains, hsum, hne⟩ := h.exists_weights
  obtain ⟨ys, hys, hvalues⟩ := exists_mapM_eval hrange hx hchains
  obtain ⟨v, hv, hlow, hle⟩ := hsum.exists_le value_zero le_rfl le_rfl hvalues
  have hweights : List.Forall₂ Value (e.chains.map Chain.weight) ws := by
    rw [List.forall₂_map_left_iff]
    exact hchains.imp fun _ _ hchain => hchain.value_weight
  obtain ⟨y, hy, hunit⟩ := Scalar.exists_ratio hv (hsum.value value_zero hweights) hlow hle hne
  refine ⟨y, ?_, hunit⟩
  rw [eval, hys]
  exact hy

end Expression

end Easing
