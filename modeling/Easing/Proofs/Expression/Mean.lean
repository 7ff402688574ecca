import Easing.Proofs.Expression.UnitInterval

/-! # The mean of parallel chains

The weight of a chain is used twice: as the last step it scales the value of the steps
before it, and among parallel chains it says how much that value counts. In exact
arithmetic both uses together make an expression the weighted mean of its chains without
their weights. It does not matter in which order the chains stand, nor in which unit all
their weights are given.
-/

namespace Easing

variable {α : Type}

namespace Chain

/-- The steps in front of a weight, or all steps of a chain without one. -/
def body (chain : Chain α) : Chain α :=
  match chain.steps.getLast? with
  | some ⟨.weight, _, _⟩ => ⟨chain.steps.dropLast⟩
  | _ => chain

/-- The chain with its weight multiplied by a factor, if it has one. -/
def scaled [Mul α] (factor : α) (chain : Chain α) : Chain α :=
  match chain.steps.getLast? with
  | some ⟨.weight, arguments, parameters⟩ =>
    ⟨chain.steps.dropLast ++
      [⟨.weight, arguments.map (factor * ·), parameters.map (factor * ·)⟩]⟩
  | _ => chain

/-- A chain that is weighted by a step of its own. -/
def HasWeight (chain : Chain α) : Prop :=
  ∃ step, chain.steps.getLast? = some step ∧ step.transform = .weight

/-- Steps without a weight, and what they are weighted by as a chain: by one, or by the
weight behind them. -/
inductive Weighs [One α] : Chain α → List (Step α) → α → Prop
  | plain {steps : List (Step α)} (hclear : ∀ step ∈ steps, step.transform ≠ .weight) :
      Weighs ⟨steps⟩ steps 1
  | weighted {steps : List (Step α)} (hclear : ∀ step ∈ steps, step.transform ≠ .weight)
      {arguments : List α} {parameters : Array α} {p : α} (hp : parameters[0]? = some p) :
      Weighs ⟨steps ++ [⟨.weight, arguments, parameters⟩]⟩ steps p

end Chain

/-- An expression that can be made of its steps and chains. A weight has a number to
weight by. -/
structure Expression.Accepted [Scalar α] [Numeral α] (e : Expression α) : Prop where
  ofSteps : ∀ chain ∈ e.chains, Chain.ofSteps chain.steps = .ok chain
  parameters : ∀ step ∈ e.steps, step.transform = .weight → 0 < step.parameters.size
  ofChains : Expression.ofChains e.chains = .ok e

/-! ## Chains and their weights -/

namespace Chain

/-- A chain that ends with a step that is no weight is all body. -/
theorem body_of_clear {steps : List (Step α)} (h : ∀ step ∈ steps, step.transform ≠ .weight) :
    (⟨steps⟩ : Chain α).body = ⟨steps⟩ := by
  unfold body
  split
  next heq => exact absurd rfl (h _ (List.mem_of_getLast? heq))
  next => rfl

theorem body_concat (steps : List (Step α)) (arguments : List α) (parameters : Array α) :
    (⟨steps ++ [⟨.weight, arguments, parameters⟩]⟩ : Chain α).body = ⟨steps⟩ := by
  simp only [body, List.getLast?_concat, List.dropLast_concat]

theorem scaled_concat [Mul α] (factor : α) (steps : List (Step α)) (arguments : List α)
    (parameters : Array α) :
    (⟨steps ++ [⟨.weight, arguments, parameters⟩]⟩ : Chain α).scaled factor =
      ⟨steps ++ [⟨.weight, arguments.map (factor * ·), parameters.map (factor * ·)⟩]⟩ := by
  simp only [scaled, List.getLast?_concat, List.dropLast_concat]

variable [Scalar α] {chain : Chain α} {steps : List (Step α)} {w : α}

theorem Weighs.weight_eq (h : chain.Weighs steps w) : chain.weight = w := by
  cases h with
  | plain hclear => exact weight_of_clear hclear
  | weighted hclear hp =>
      simp only [weight, List.getLast?_concat]
      rw [Array.getD_eq_getD_getElem?, hp, Option.getD_some]

theorem Weighs.body_eq (h : chain.Weighs steps w) : chain.body = ⟨steps⟩ := by
  cases h with
  | plain hclear => exact body_of_clear hclear
  | weighted hclear hp => exact body_concat _ _ _

theorem Weighs.clear (h : chain.Weighs steps w) : ∀ step ∈ steps, step.transform ≠ .weight := by
  cases h with
  | plain hclear => exact hclear
  | weighted hclear hp => exact hclear

variable [Numeral α]

theorem exists_weighs (h : ofSteps chain.steps = .ok chain)
    (hparameters : ∀ step ∈ chain.steps, step.transform = .weight → 0 < step.parameters.size) :
    ∃ steps w, chain.Weighs steps w := by
  obtain ⟨steps⟩ := chain
  have hne := (ofSteps_eq_ok h).2
  rcases List.eq_nil_or_concat' steps with rfl | ⟨front, last, rfl⟩
  · exact absurd rfl hne
  · have hclear := clear_of_ofSteps h
    by_cases hweight : last.transform = .weight
    · have hsize := hparameters last (by simp) hweight
      obtain ⟨t, arguments, parameters⟩ := last
      subst hweight
      exact ⟨front, _, .weighted hclear (Array.getElem?_eq_getElem hsize)⟩
    · refine ⟨_, 1, .plain ?_⟩
      intro step hstep
      rcases List.mem_append.mp hstep with hstep | hstep
      · exact hclear step hstep
      · rwa [List.mem_singleton.mp hstep]

/-- Steps with a weight behind them make a chain. -/
theorem Weighs.ofSteps_eq (h : chain.Weighs steps w) (hweight : chain.HasWeight) :
    ofSteps chain.steps = .ok chain := by
  cases h with
  | plain hclear =>
      obtain ⟨step, hlast, hstep⟩ := hweight
      exact absurd hstep (hclear step (List.mem_of_getLast? hlast))
  | @weighted _ hclear arguments parameters _ _ =>
      have hlast : ofSteps [⟨.weight, arguments, parameters⟩] =
          .ok ⟨[⟨.weight, arguments, parameters⟩]⟩ := rfl
      exact ofSteps_append hlast hclear

omit [Numeral α] in
theorem Weighs.parameters_size (h : chain.Weighs steps w) :
    ∀ step ∈ chain.steps, step.transform = .weight → 0 < step.parameters.size := by
  intro step hmem hstep
  cases h with
  | plain hclear => exact absurd hstep (hclear step hmem)
  | weighted hclear hp =>
      rcases List.mem_append.mp hmem with hmem | hmem
      · exact absurd hstep (hclear step hmem)
      · rw [List.mem_singleton.mp hmem]
        exact (Array.getElem?_eq_some_iff.mp hp).1

/-- A weight multiplied by a factor is a weight of the same steps. -/
theorem Weighs.scaled [Elementary ℚ] {chain : Chain ℚ} {steps : List (Step ℚ)} {w : ℚ}
    (h : chain.Weighs steps w) (hweight : chain.HasWeight) (factor : ℚ) :
    (chain.scaled factor).Weighs steps (factor * w) ∧ (chain.scaled factor).HasWeight := by
  cases h with
  | plain hclear =>
      obtain ⟨step, hlast, hstep⟩ := hweight
      exact absurd hstep (hclear step (List.mem_of_getLast? hlast))
  | weighted hclear hp =>
      rw [scaled_concat]
      refine ⟨.weighted hclear ?_, _, List.getLast?_concat, rfl⟩
      rw [Array.getElem?_map, hp, Option.map_some]

end Chain

section Accepted

variable [Scalar α] [Numeral α]

theorem Expression.Accepted.exists_weighs {e : Expression α} (h : e.Accepted) {chain : Chain α}
    (hchain : chain ∈ e.chains) : ∃ steps w, chain.Weighs steps w :=
  Chain.exists_weighs (h.ofSteps chain hchain) fun step hstep =>
    h.parameters step (List.mem_flatMap.mpr ⟨chain, hchain, hstep⟩)

/-- A weight that was read weights by its argument. -/
theorem Step.size_of_parse [Scalar.HasIntegerPart α] {text : List Char} {step : Step α}
    {g g' : Generator} {notices : List (Notice α)}
    (h : parse text g = (⟨notices, .ok step⟩, g')) (hweight : step.transform = .weight) :
    0 < step.parameters.size := by
  obtain ⟨argument, hargument, _, hresolve⟩ := accepted_of_parse h
  obtain ⟨t, arguments, parameters⟩ := step
  dsimp only at *
  subst hweight hargument
  cases hresolve
  exact Nat.one_pos

/-- What was read is accepted. -/
theorem Expression.accepted_of_parse [Scalar.HasIntegerPart α] {text : String} {g : Generator}
    {e : Expression α} (h : (parse text g).1.result = .ok e) : e.Accepted := by
  rcases hparse : (parse text : Build α _) g with ⟨⟨notices, result⟩, g'⟩
  rw [hparse] at h
  subst h
  obtain ⟨_, chains, hchains, hcollect⟩ := Build.collect_eq_ok hparse
  obtain ⟨rfl, _⟩ := ofChains_eq_ok hcollect
  have hread : ∀ chain ∈ chains, Chain.ofSteps chain.steps = .ok chain ∧
      ∀ step ∈ chain.steps, step.transform = .weight → 0 < step.parameters.size := by
    refine Build.forall_of_mapM (fun _ _ _ chain _ hchain => ?_) hchains
    obtain ⟨_, steps, hsteps, hof⟩ := Build.collect_eq_ok hchain
    obtain ⟨rfl, _⟩ := Chain.ofSteps_eq_ok hof
    exact ⟨hof, Build.forall_of_mapM (fun _ _ _ _ _ h => Step.size_of_parse h) hsteps⟩
  refine ⟨fun chain hchain => (hread chain hchain).1, ?_, hcollect⟩
  intro step hstep
  obtain ⟨chain, hchain, hstep⟩ := List.mem_flatMap.mp hstep
  exact (hread chain hchain).2 step hstep

end Accepted

/-! ## Weighted sums -/

namespace Rational

/-- The sum of numbers, each as often as its weight says. -/
def weightedSum (ws bs : List ℚ) : ℚ := (List.zipWith (· * ·) ws bs).sum

section Sums

variable {ws bs : List ℚ} {c : ℚ}

theorem weightedSum_cons (w b : ℚ) (ws bs : List ℚ) :
    weightedSum (w :: ws) (b :: bs) = w * b + weightedSum ws bs := by
  simp only [weightedSum, List.zipWith_cons_cons, List.sum_cons]

/-- Weights that are not negative and numbers up to a bound. -/
theorem weightedSum_le (h : List.Forall₂ (fun w b => 0 ≤ w ∧ b ≤ c) ws bs) :
    weightedSum ws bs ≤ ws.sum * c := by
  induction h with
  | nil => simp [weightedSum]
  | cons hhead _ ih =>
      rw [weightedSum_cons, List.sum_cons, add_mul]
      exact add_le_add (mul_le_mul_of_nonneg_left hhead.2 hhead.1) ih

theorem le_weightedSum (h : List.Forall₂ (fun w b => 0 ≤ w ∧ c ≤ b) ws bs) :
    ws.sum * c ≤ weightedSum ws bs := by
  induction h with
  | nil => simp [weightedSum]
  | cons hhead _ ih =>
      rw [weightedSum_cons, List.sum_cons, add_mul]
      exact add_le_add (mul_le_mul_of_nonneg_left hhead.2 hhead.1) ih

theorem weightedSum_scaled (factor : ℚ) (ws bs : List ℚ) :
    weightedSum (ws.map (factor * ·)) bs = factor * weightedSum ws bs := by
  induction ws generalizing bs with
  | nil => simp [weightedSum]
  | cons w ws ih =>
      cases bs with
      | nil => simp [weightedSum]
      | cons b bs => rw [List.map_cons, weightedSum_cons, weightedSum_cons, ih, mul_add, mul_assoc]

/-- A weighted mean lies between the least and the greatest of its numbers. -/
theorem between_of_weightedSum (hlength : ws.length = bs.length) (hweights : ∀ w ∈ ws, 0 ≤ w)
    (hsum : ws.sum ≠ 0) :
    ∃ low high, bs.min? = some low ∧ bs.max? = some high ∧
      low ≤ weightedSum ws bs / ws.sum ∧ weightedSum ws bs / ws.sum ≤ high := by
  have hpos : 0 < ws.sum := lt_of_le_of_ne (List.sum_nonneg hweights) hsum.symm
  have hne : bs ≠ [] := by
    rintro rfl
    rw [List.length_nil, List.length_eq_zero_iff] at hlength
    exact hsum (by rw [hlength, List.sum_nil])
  have hpairs {P : ℚ → Prop} (hP : ∀ b ∈ bs, P b) :
      List.Forall₂ (fun w b => 0 ≤ w ∧ P b) ws bs := by
    rw [List.forall₂_iff_zip]
    refine ⟨hlength, fun {w b} hmem => ?_⟩
    obtain ⟨hw, hb⟩ := List.of_mem_zip hmem
    exact ⟨hweights w hw, hP b hb⟩
  obtain ⟨low, hlow⟩ := Option.isSome_iff_exists.mp (List.isSome_min?_of_ne_nil hne)
  obtain ⟨high, hhigh⟩ := Option.isSome_iff_exists.mp (List.isSome_max?_of_ne_nil hne)
  refine ⟨low, high, hlow, hhigh, ?_, ?_⟩
  · rw [le_div_iff₀' hpos]
    exact le_weightedSum (hpairs (List.min?_eq_some_iff.mp hlow).2)
  · rw [div_le_iff₀' hpos]
    exact weightedSum_le (hpairs (List.max?_eq_some_iff.mp hhigh).2)

end Sums

variable [Elementary ℚ]

/-- A weight scales the value of the steps before it. -/
theorem eval_chain {chain : Chain ℚ} {steps : List (Step ℚ)} {w : ℚ} (h : chain.Weighs steps w)
    (x : ℚ) : chain.eval x = (chain.weight * ·) <$> chain.body.eval x := by
  rw [h.weight_eq, h.body_eq]
  cases h with
  | plain hclear =>
      simp only [one_mul]
      exact (id_map' _).symm
  | @weighted _ _ arguments parameters _ hp =>
      obtain ⟨hsize, hget⟩ := Array.getElem?_eq_some_iff.mp hp
      unfold Chain.eval
      rw [List.foldlM_append, map_eq_pure_bind]
      congr 1
      funext y
      have hread : Samples.get parameters 0 = .ok w := by
        rw [← Int.natCast_zero, Samples.get_natCast hsize, hget]
      change (Samples.get parameters 0 >>= fun p => pure (y * p)) >>= pure = _
      rw [hread, mul_comm w y]
      rfl

/-- Chains have the values of their bodies, by their weights. -/
theorem mapM_eval {chains : List (Chain ℚ)} (h : ∀ chain ∈ chains, ∃ steps w, chain.Weighs steps w)
    (x : ℚ) :
    chains.mapM (·.eval x) =
      List.zipWith (· * ·) (chains.map Chain.weight) <$> chains.mapM (·.body.eval x) := by
  induction chains with
  | nil => rfl
  | cons chain chains ih =>
      obtain ⟨⟨steps, w, hhead⟩, hrest⟩ := List.forall_mem_cons.mp h
      rw [List.mapM_cons, List.mapM_cons, eval_chain hhead, ih hrest]
      simp only [map_eq_pure_bind, bind_assoc, pure_bind, List.map_cons, List.zipWith_cons_cons]

theorem totalWeight_eq (e : Expression ℚ) : e.totalWeight = (e.chains.map Chain.weight).sum :=
  sum_eq _

variable {e e' : Expression ℚ}

/-- An expression has a value if all of its chains do, and it is their sum by their weight. -/
theorem eval_eq_ok_iff {x y : ℚ} (h : (e.chains.map Chain.weight).sum ≠ 0) :
    e.eval x = .ok y ↔
      ∃ values, List.Forall₂ (fun chain v => chain.eval x = .ok v) e.chains values ∧
        values.sum / (e.chains.map Chain.weight).sum = y := by
  rw [eval_eq (by rwa [totalWeight_eq]), totalWeight_eq, map_eq_pure_bind, Except.bind_eq_ok_iff]
  simp only [Except.mapM_eq_ok_iff]
  constructor
  · rintro ⟨values, hvalues, hy⟩
    exact ⟨values, hvalues, Except.ok.inj hy⟩
  · rintro ⟨values, hvalues, rfl⟩
    exact ⟨values, hvalues, rfl⟩

theorem sum_weights_perm (hperm : e'.chains.Perm e.chains) :
    (e'.chains.map Chain.weight).sum = (e.chains.map Chain.weight).sum :=
  (hperm.map Chain.weight).sum_eq

theorem eval_of_perm (hperm : e'.chains.Perm e.chains)
    (hsum : (e.chains.map Chain.weight).sum ≠ 0) {x y : ℚ} (hy : e.eval x = .ok y) :
    e'.eval x = .ok y := by
  obtain ⟨values, hvalues, rfl⟩ := (eval_eq_ok_iff hsum).mp hy
  obtain ⟨values', hvalues', hperm'⟩ := List.perm_comp_forall₂ hperm hvalues
  rw [eval_eq_ok_iff (by rwa [sum_weights_perm hperm]), sum_weights_perm hperm]
  exact ⟨values', hvalues', by rw [hperm'.sum_eq]⟩

section Accepted

variable [Numeral ℚ]

theorem sum_weights_ne_zero (h : e.Accepted) : (e.chains.map Chain.weight).sum ≠ 0 := by
  have hweight := Expression.totalWeight_of_ofChains h.ofChains
  rwa [totalWeight_eq, beq_eq_false_iff_ne] at hweight

/-- An accepted expression is the mean of the bodies of its chains. -/
theorem eval_accepted (h : e.Accepted) (x : ℚ) :
    e.eval x = (fun bs => weightedSum (e.chains.map Chain.weight) bs /
      (e.chains.map Chain.weight).sum) <$> e.chains.mapM (·.body.eval x) := by
  rw [eval_eq (by rw [totalWeight_eq]; exact sum_weights_ne_zero h),
    mapM_eval (fun chain hchain => h.exists_weighs hchain), totalWeight_eq, Functor.map_map]
  rfl

/-- Without its weight a chain counts once. -/
theorem eval_singleton_body {chain : Chain ℚ} (h : e.Accepted) (hchains : e.chains = [chain])
    (x : ℚ) : e.eval x = (⟨[chain.body]⟩ : Expression ℚ).eval x := by
  have hmem : chain ∈ e.chains := by rw [hchains]; exact List.mem_singleton_self chain
  obtain ⟨steps, w, hweighs⟩ := h.exists_weighs hmem
  have hsum := sum_weights_ne_zero h
  have hone : chain.body.weight = 1 := by
    rw [hweighs.body_eq]
    exact Chain.weight_of_clear hweighs.clear
  obtain ⟨chains⟩ := e
  subst hchains
  rw [List.map_singleton, List.sum_singleton] at hsum
  rw [eval_singleton hsum, eval_singleton (by rw [hone]; exact one_ne_zero), hone,
    eval_chain hweighs, Functor.map_map]
  congr 1
  funext y
  rw [mul_div_cancel_left₀ y hsum, div_one]

/-- The chains of an accepted expression are accepted in any order. -/
theorem accepted_of_perm (h : e.Accepted) (hperm : e'.chains.Perm e.chains) :
    e'.Accepted where
  ofSteps chain hchain := h.ofSteps chain (hperm.mem_iff.mp hchain)
  parameters step hstep := by
    obtain ⟨chain, hchain, hstep⟩ := List.mem_flatMap.mp hstep
    exact h.parameters step (List.mem_flatMap.mpr ⟨chain, hperm.mem_iff.mp hchain, hstep⟩)
  ofChains := by
    have hne := (Expression.ofChains_eq_ok h.ofChains).2
    apply Expression.ofChains_eq_of_ok
    · intro hnil
      rw [hnil, List.nil_perm] at hperm
      exact hne hperm
    · rw [beq_eq_false_iff_ne, totalWeight_eq, sum_weights_perm hperm]
      exact sum_weights_ne_zero h

/-- The expression with all of its weights multiplied by a factor. -/
def scaled (factor : ℚ) (e : Expression ℚ) : Expression ℚ := ⟨e.chains.map (·.scaled factor)⟩

theorem weights_scaled (h : e.Accepted) (hweights : ∀ chain ∈ e.chains, chain.HasWeight)
    (factor : ℚ) :
    (scaled factor e).chains.map Chain.weight =
      (e.chains.map Chain.weight).map (factor * ·) := by
  simp only [scaled, List.map_map]
  apply List.map_congr_left
  intro chain hchain
  obtain ⟨steps, w, hweighs⟩ := h.exists_weighs hchain
  simp only [Function.comp_apply, hweighs.weight_eq,
    (hweighs.scaled (hweights chain hchain) factor).1.weight_eq]

theorem sum_weights_scaled (h : e.Accepted) (hweights : ∀ chain ∈ e.chains, chain.HasWeight)
    (factor : ℚ) :
    ((scaled factor e).chains.map Chain.weight).sum =
      factor * (e.chains.map Chain.weight).sum := by
  rw [weights_scaled h hweights, List.sum_map_mul_left, List.map_id']

theorem accepted_scaled (h : e.Accepted) (hweights : ∀ chain ∈ e.chains, chain.HasWeight)
    {factor : ℚ} (hfactor : factor ≠ 0) : (scaled factor e).Accepted := by
  have hchain : ∀ chain ∈ (scaled factor e).chains,
      (∃ steps w, chain.Weighs steps w) ∧ chain.HasWeight := by
    intro chain hchain
    obtain ⟨earlier, hearlier, rfl⟩ := List.mem_map.mp hchain
    obtain ⟨steps, w, hweighs⟩ := h.exists_weighs hearlier
    have hscaled := hweighs.scaled (hweights earlier hearlier) factor
    exact ⟨⟨_, _, hscaled.1⟩, hscaled.2⟩
  constructor
  case ofSteps =>
    intro chain hmem
    obtain ⟨⟨steps, w, hweighs⟩, hweight⟩ := hchain chain hmem
    exact hweighs.ofSteps_eq hweight
  case parameters =>
    intro step hstep
    obtain ⟨chain, hmem, hstep⟩ := List.mem_flatMap.mp hstep
    obtain ⟨⟨steps, w, hweighs⟩, _⟩ := hchain chain hmem
    exact hweighs.parameters_size step hstep
  case ofChains =>
    apply Expression.ofChains_eq_of_ok
    · have hne := (Expression.ofChains_eq_ok h.ofChains).2
      simpa [scaled] using hne
    · rw [beq_eq_false_iff_ne, totalWeight_eq, sum_weights_scaled h hweights]
      exact mul_ne_zero hfactor (sum_weights_ne_zero h)

theorem bodies_scaled (h : e.Accepted) (hweights : ∀ chain ∈ e.chains, chain.HasWeight)
    (factor : ℚ) : (scaled factor e).chains.map Chain.body = e.chains.map Chain.body := by
  simp only [scaled, List.map_map]
  apply List.map_congr_left
  intro chain hchain
  obtain ⟨steps, w, hweighs⟩ := h.exists_weighs hchain
  rw [Function.comp_apply, hweighs.body_eq,
    (hweighs.scaled (hweights chain hchain) factor).1.body_eq]

/-- The unit of the weights cancels. -/
theorem eval_scaled (h : e.Accepted) (hweights : ∀ chain ∈ e.chains, chain.HasWeight)
    {factor : ℚ} (hfactor : factor ≠ 0) (x : ℚ) : (scaled factor e).eval x = e.eval x := by
  have hbodies : (scaled factor e).chains.mapM (·.body.eval x) =
      e.chains.mapM (·.body.eval x) := by
    calc (scaled factor e).chains.mapM (·.body.eval x)
        = ((scaled factor e).chains.map Chain.body).mapM (·.eval x) := by rw [List.mapM_map]; rfl
      _ = (e.chains.map Chain.body).mapM (·.eval x) := by rw [bodies_scaled h hweights]
      _ = e.chains.mapM (·.body.eval x) := by rw [List.mapM_map]; rfl
  rw [eval_accepted (accepted_scaled h hweights hfactor), eval_accepted h, hbodies,
    weights_scaled h hweights]
  congr 1
  funext bs
  rw [weightedSum_scaled, List.sum_map_mul_left, List.map_id',
    mul_div_mul_left _ _ hfactor]

/-- The value lies between the values of the bodies, by weights that are not negative. -/
theorem eval_between (h : e.Accepted) (hweights : ∀ chain ∈ e.chains, 0 ≤ chain.weight) {x y : ℚ}
    (hy : e.eval x = .ok y) :
    ∃ bs low high, e.chains.mapM (·.body.eval x) = .ok bs ∧ bs.min? = some low ∧
      bs.max? = some high ∧ low ≤ y ∧ y ≤ high := by
  rw [eval_accepted h, map_eq_pure_bind, Except.bind_eq_ok_iff] at hy
  obtain ⟨bs, hbs, hmean⟩ := hy
  obtain rfl := Except.ok.inj hmean
  have hlength : (e.chains.map Chain.weight).length = bs.length := by
    rw [List.length_map, (Except.mapM_eq_ok_iff.mp hbs).length_eq]
  obtain ⟨low, high, hlow, hhigh, hle, hge⟩ := between_of_weightedSum hlength
    (List.forall_mem_map.mpr hweights) (sum_weights_ne_zero h)
  exact ⟨bs, low, high, hbs, hlow, hhigh, hle, hge⟩

end Accepted

end Rational

/-- An expression is the mean of its chains without their weights, by their weights:
between the least and the greatest of them if no weight is negative, the same whatever a
single chain weighs, whichever way the chains are ordered, and in whatever unit all
weights are given. -/
theorem Expression.is_weighted_mean [Elementary ℚ] [Numeral ℚ] :
    (∀ (text : String) (g : Generator) (e : Expression ℚ),
      (parse text g).1.result = .ok e → e.Accepted) ∧
    ∀ e : Expression ℚ, e.Accepted →
      (∀ x, (· * (e.chains.map Chain.weight).sum) <$> e.eval x =
        Rational.weightedSum (e.chains.map Chain.weight) <$>
          e.chains.mapM (·.body.eval x)) ∧
      ((∀ chain ∈ e.chains, 0 ≤ chain.weight) → ∀ x y, e.eval x = .ok y →
        ∃ bs low high, e.chains.mapM (·.body.eval x) = .ok bs ∧ bs.min? = some low ∧
          bs.max? = some high ∧ low ≤ y ∧ y ≤ high) ∧
      (∀ chain, e.chains = [chain] → ∀ x, e.eval x = (⟨[chain.body]⟩ : Expression ℚ).eval x) ∧
      (∀ e' : Expression ℚ, e'.chains.Perm e.chains → e'.Accepted ∧
        ∀ x y, e'.eval x = .ok y ↔ e.eval x = .ok y) ∧
      (∀ factor ≠ 0, (∀ chain ∈ e.chains, chain.HasWeight) →
        (Rational.scaled factor e).Accepted ∧
          ∀ x, (Rational.scaled factor e).eval x = e.eval x) := by
  refine ⟨fun _ _ _ h => accepted_of_parse h, fun e h => ⟨?_, ?_, ?_, ?_, ?_⟩⟩
  case refine_1 =>
    intro x
    rw [Rational.eval_accepted h, Functor.map_map]
    congr 1
    funext bs
    exact div_mul_cancel₀ _ (Rational.sum_weights_ne_zero h)
  case refine_2 => exact fun hweights _ _ hy => Rational.eval_between h hweights hy
  case refine_3 => exact fun chain hchains x => Rational.eval_singleton_body h hchains x
  case refine_4 =>
    intro e' hperm
    have hsum := Rational.sum_weights_ne_zero h
    refine ⟨Rational.accepted_of_perm h hperm, fun x y => ⟨fun hy => ?_, fun hy => ?_⟩⟩
    · refine Rational.eval_of_perm hperm.symm ?_ hy
      rwa [Rational.sum_weights_perm hperm]
    · exact Rational.eval_of_perm hperm hsum hy
  case refine_5 =>
    intro factor hfactor hweights
    exact ⟨Rational.accepted_scaled h hweights hfactor, Rational.eval_scaled h hweights hfactor⟩

theorem Expression.is_weighted_mean_triangle :
    let _ := Session.linear
    let _ := Session.fractions
    (∃ e : Expression ℚ,
      (parse "triangle 0.25 > weight 3 & weight 2 & invert > weight 1" (.ofSeed 0)).1.result =
        .ok e ∧
      e.Accepted ∧ e.eval (1 / 2) = .ok (7 / 12) ∧
      (· * 6) <$> e.eval (1 / 2) = .ok (3 * (2 / 3) + 2 * (1 / 2) + 1 * (1 / 2)) ∧
      (∃ bs low high, e.chains.mapM (·.body.eval (1 / 2)) = .ok bs ∧ bs.min? = some low ∧
        bs.max? = some high ∧ low ≤ 7 / 12 ∧ 7 / 12 ≤ high) ∧
      (⟨e.chains.reverse⟩ : Expression ℚ).eval (1 / 2) = .ok (7 / 12) ∧
      (Rational.scaled (-2) e).eval (1 / 2) = .ok (7 / 12)) ∧
    ∃ (e : Expression ℚ) (chain : Chain ℚ),
      (parse "invert > weight -4" (.ofSeed 0)).1.result = .ok e ∧ e.chains = [chain] ∧
      e.eval (1 / 3) = (⟨[chain.body]⟩ : Expression ℚ).eval (1 / 3) := by
  let _ := Session.linear
  let _ := Session.fractions
  constructor
  · obtain ⟨haccepted, hmean⟩ := Expression.is_weighted_mean
    have hfacts : (parse "triangle 0.25 > weight 3 & weight 2 & invert > weight 1"
        (.ofSeed 0)).1.result.map (fun e : Expression ℚ =>
          (e.chains.map Chain.weight, e.eval (1 / 2), e.chains.mapM (·.body.eval (1 / 2)),
            e.chains.all (·.steps.getLast?.any (·.transform == .weight)))) =
        .ok ([3, 2, 1], .ok (7 / 12), .ok [2 / 3, 1 / 2, 1 / 2], true) := by
      decide +kernel
    obtain ⟨e, hparse, hfacts⟩ := Except.eq_ok_of_map hfacts
    simp only [Prod.mk.injEq, List.all_eq_true, Option.any_eq_true, beq_iff_eq] at hfacts
    obtain ⟨hweights, hvalue, hbodies, hhas⟩ := hfacts
    have h := haccepted _ _ e hparse
    obtain ⟨hsum, hbetween, _, hperm, hscaled⟩ := hmean e h
    have hnonneg : ∀ chain ∈ e.chains, 0 ≤ chain.weight := by
      rw [← List.forall_mem_map (P := fun w => 0 ≤ w), hweights]
      decide +kernel
    refine ⟨e, hparse, h, hvalue, ?_, hbetween hnonneg _ _ hvalue, ?_, ?_⟩
    · have hsum := hsum (1 / 2)
      rw [hweights, hbodies] at hsum
      have htotal : ([3, 2, 1] : List ℚ).sum = 6 := by norm_num
      rw [htotal] at hsum
      rw [hsum]
      decide +kernel
    · exact ((hperm ⟨e.chains.reverse⟩ (List.reverse_perm _)).2 _ _).mpr hvalue
    · rw [(hscaled (-2) (by norm_num) hhas).2, hvalue]
  · obtain ⟨haccepted, hmean⟩ := Expression.is_weighted_mean
    have hfacts : (parse "invert > weight -4" (.ofSeed 0)).1.result.map
        (fun e : Expression ℚ => e.chains.length) = .ok 1 := by
      decide +kernel
    obtain ⟨e, hparse, hlength⟩ := Except.eq_ok_of_map hfacts
    obtain ⟨chain, hchain⟩ := List.length_eq_one_iff.mp hlength
    exact ⟨e, chain, hparse, hchain, (hmean e (haccepted _ _ e hparse)).2.2.1 chain hchain _⟩

end Easing
