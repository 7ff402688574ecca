import Easing.Proofs.Definition.Joining
import Easing.Proofs.Expression.Faults
import Easing.Proofs.Range.Coordinates
import Easing.Proofs.Session.Tables

/-! # Definitions that are put together

A definition made of two is read like the first and then the second, from where the
first has left the generator. Side by side their chains are averaged, each definition
counting as much as its weights; in a row the first gives its value to the second.
-/

namespace Easing

theorem Except.eq_ok_of_map {ε β γ : Type} {x : Except ε β} {f : β → γ} {c : γ}
    (h : x.map f = .ok c) : ∃ b, x = .ok b ∧ f b = c := by
  cases x with
  | error e => cases h
  | ok b => exact ⟨b, rfl, Except.ok.inj h⟩

namespace Build

variable {α β γ ι : Type} {read : ι → Build α β} {g g' : Generator} {notices : List (Notice α)}

/-- Reading along two lists, one after the other. -/
theorem mapM_append_ok {xs xs' : List ι} {ys ys' : List β} {middle : Generator}
    {notices' : List (Notice α)} (h : xs.mapM read g = (⟨notices, .ok ys⟩, middle))
    (h' : xs'.mapM read middle = (⟨notices', .ok ys'⟩, g')) :
    (xs ++ xs').mapM read g = (⟨notices ++ notices', .ok (ys ++ ys')⟩, g') := by
  rw [List.mapM_append, bind_apply_ok h, bind_apply_ok h']
  simp

theorem mapM_singleton_eq_ok_iff {x : ι} {ys : List β} :
    [x].mapM read g = (⟨notices, .ok ys⟩, g') ↔
      ∃ y, read x g = (⟨notices, .ok y⟩, g') ∧ ys = [y] := by
  rw [List.mapM_cons, List.mapM_nil]
  simp only [pure_bind, bind_eq_ok_iff, pure_apply]
  constructor
  · rintro ⟨_, y, _, _, hy, hpure, rfl⟩
    cases hpure
    rw [List.append_nil]
    exact ⟨y, hy, rfl⟩
  · rintro ⟨y, hy, rfl⟩
    exact ⟨notices, y, g', [], hy, rfl, (List.append_nil _).symm⟩

/-- Putting parts together in the end draws nothing and gives no notice. -/
theorem collect_eq_ok_iff {collect : List β → Except (Fault α) γ} {xs : List ι} {c : γ} :
    (xs.mapM read >>= fun ys => ofOutcome (.ofResult (collect ys))) g = (⟨notices, .ok c⟩, g') ↔
      ∃ ys, xs.mapM read g = (⟨notices, .ok ys⟩, g') ∧ collect ys = .ok c := by
  rw [bind_eq_ok_iff]
  constructor
  · rintro ⟨before, ys, _, after, hys, hc, rfl⟩
    obtain ⟨hcollect, rfl⟩ := ofResult_apply_eq_ok hc
    obtain rfl : after = [] := (congrArg (fun made => made.1.notices) hc).symm
    rw [List.append_nil]
    exact ⟨ys, hys, hcollect⟩
  · rintro ⟨ys, hys, hcollect⟩
    exact ⟨notices, ys, g', [], hys, by rw [hcollect]; rfl, (List.append_nil _).symm⟩

end Build

/-! ## Reading definitions that are put together -/

section Reading

variable {α : Type}

/-- Expressions side by side. -/
def Expression.beside (e other : Expression α) : Expression α := ⟨e.chains ++ other.chains⟩

/-- The steps of an expression and then those of another, in one chain. -/
def Expression.followedBy (e other : Expression α) : Expression α := ⟨[⟨e.steps ++ other.steps⟩]⟩

/-- An expression of a single chain. -/
theorem Expression.steps_singleton (chain : Chain α) :
    (⟨[chain]⟩ : Expression α).steps = chain.steps :=
  List.flatMap_singleton Chain.steps chain

variable [Numeral α]

theorem Expression.definition_beside {e other : Expression α} (h : e.chains ≠ [])
    (h' : other.chains ≠ []) :
    (e.beside other).definition = e.definition ++ " & " ++ other.definition := by
  unfold definition beside
  rw [List.map_append]
  apply String.intercalate_append_of_ne_nil
  · simpa using h
  · simpa using h'

/-- Steps that make a chain after others, none of which is a weight. -/
theorem Chain.ofSteps_append {steps steps' : List (Step α)} {chain : Chain α}
    (h : ofSteps steps' = .ok chain) (hclear : ∀ step ∈ steps, step.transform ≠ .weight) :
    ofSteps (steps ++ steps') = .ok ⟨steps ++ steps'⟩ := by
  unfold ofSteps at h ⊢
  split at h
  next => cases h
  next hne =>
    rw [List.isEmpty_iff] at hne
    split at h
    next => cases h
    next hlast =>
      have hweight : (steps ++ steps').dropLast.any (·.transform == .weight) = false := by
        rw [List.dropLast_append_of_ne_nil hne, List.any_append, Bool.or_eq_false_iff]
        refine ⟨?_, Bool.not_eq_true _ ▸ hlast⟩
        rw [List.any_eq_false]
        intro step hstep
        simpa using hclear step hstep
      rw [if_neg (by simp [hne]), if_neg (by simp [hweight])]

variable [Scalar α]

omit [Numeral α] in
/-- Steps before the last one do not weight a chain. -/
theorem Chain.weight_append (steps : List (Step α)) {steps' : List (Step α)} (hne : steps' ≠ []) :
    (⟨steps ++ steps'⟩ : Chain α).weight = (⟨steps'⟩ : Chain α).weight := by
  unfold weight
  rw [List.getLast?_append_of_ne_nil _ hne]

omit [Numeral α] in
/-- A chain without a weight counts once. -/
theorem Chain.weight_of_clear {steps : List (Step α)}
    (h : ∀ step ∈ steps, step.transform ≠ .weight) : (⟨steps⟩ : Chain α).weight = 1 := by
  unfold weight
  split
  next heq => exact absurd rfl (h _ (List.mem_of_getLast? heq))
  next => rfl

theorem Expression.ofChains_eq_of_ok {e : Expression α} (hne : e.chains ≠ [])
    (hweight : (e.totalWeight == 0) = false) : ofChains e.chains = .ok e := by
  unfold ofChains
  simp [hne, hweight]

namespace Expression

/-- An expression is read from the parts of its definition. -/
theorem parse_eq (text : String) :
    (parse text : Build α (Expression α)) =
      ofTexts (Chain.ofTexts Step.parse) (Definition.parts text.toList) := by
  unfold parse ofTexts Definition.parts
  rw [List.mapM_map]
  rfl

theorem parse_eq_ok_iff {text : String} {e : Expression α} {g g' : Generator}
    {notices : List (Notice α)} :
    parse text g = (⟨notices, .ok e⟩, g') ↔
      ∃ chains, (Definition.parts text.toList).mapM (Chain.ofTexts Step.parse) g =
        (⟨notices, .ok chains⟩, g') ∧ ofChains chains = .ok e := by
  rw [parse_eq, ofTexts, Build.collect_eq_ok_iff]

variable {a b : String} {g middle g' : Generator} {notices notices' : List (Notice α)}
  {e other : Expression α}

theorem parse_beside (ha : ∃ c ∈ a.toList, Definition.isMargin c = false)
    (hb : ∃ c ∈ b.toList, Definition.isMargin c = false)
    (h : parse a g = (⟨notices, .ok e⟩, middle))
    (h' : parse b middle = (⟨notices', .ok other⟩, g'))
    (hweight : ((e.beside other).totalWeight == 0) = false) :
    parse (a ++ "&" ++ b) g = (⟨notices ++ notices', .ok (e.beside other)⟩, g') ∧
      (e.beside other).definition = e.definition ++ " & " ++ other.definition := by
  obtain ⟨chains, hchains, he⟩ := parse_eq_ok_iff.mp h
  obtain ⟨chains', hchains', he'⟩ := parse_eq_ok_iff.mp h'
  obtain ⟨rfl, hne⟩ := ofChains_eq_ok he
  obtain ⟨rfl, hne'⟩ := ofChains_eq_ok he'
  refine ⟨?_, definition_beside hne hne'⟩
  have hparts : Definition.parts (a ++ "&" ++ b).toList =
      Definition.parts a.toList ++ Definition.parts b.toList := by
    have hjoined : (a ++ "&" ++ b).toList = a.toList ++ Definition.chainSeparator :: b.toList := by
      simp [Definition.chainSeparator]
    rw [hjoined, Definition.parts_append_chains ha hb]
  refine parse_eq_ok_iff.mpr ⟨chains ++ chains', ?_, ?_⟩
  · rw [hparts]
    exact Build.mapM_append_ok hchains hchains'
  · exact ofChains_eq_of_ok (List.append_ne_nil_of_left_ne_nil hne _) hweight

/-- A definition of one chain is read like the steps of that chain. -/
theorem exists_steps_of_parse {text : String} (h : parse text g = (⟨notices, .ok e⟩, g'))
    {texts : List (List Char)} (hparts : Definition.parts text.toList = [texts]) :
    texts.mapM Step.parse g = (⟨notices, .ok e.steps⟩, g') ∧
      Chain.ofSteps e.steps = .ok ⟨e.steps⟩ ∧ e = ⟨[⟨e.steps⟩]⟩ := by
  obtain ⟨chains, hchains, he⟩ := parse_eq_ok_iff.mp h
  rw [hparts, Build.mapM_singleton_eq_ok_iff] at hchains
  obtain ⟨chain, hchain, rfl⟩ := hchains
  obtain ⟨steps, hsteps, hof⟩ := Build.collect_eq_ok_iff.mp hchain
  obtain ⟨rfl, _⟩ := Chain.ofSteps_eq_ok hof
  obtain ⟨rfl, _⟩ := ofChains_eq_ok he
  rw [steps_singleton]
  exact ⟨hsteps, hof, rfl⟩

theorem parse_followedBy (ha : ∃ c ∈ a.toList, Definition.isMargin c = false)
    (hb : ∃ c ∈ b.toList, Definition.isMargin c = false)
    (h : parse a g = (⟨notices, .ok e⟩, middle))
    (h' : parse b middle = (⟨notices', .ok other⟩, g')) (hclear : '&' ∉ a.toList)
    (hclear' : '&' ∉ b.toList) (hweight : ∀ step ∈ e.steps, step.transform ≠ .weight) :
    parse (a ++ ">" ++ b) g = (⟨notices ++ notices', .ok (e.followedBy other)⟩, g') ∧
      e = ⟨[⟨e.steps⟩]⟩ ∧ other = ⟨[⟨other.steps⟩]⟩ ∧ other.steps ≠ [] := by
  obtain ⟨texts, texts', hparts, hparts', hjoint⟩ :=
    Definition.parts_append_steps ha hb hclear hclear'
  obtain ⟨hsteps, _, he⟩ := exists_steps_of_parse h hparts
  obtain ⟨hsteps', hof', he'⟩ := exists_steps_of_parse h' hparts'
  have hne := (Chain.ofSteps_eq_ok hof').2
  refine ⟨parse_eq_ok_iff.mpr ⟨[⟨e.steps ++ other.steps⟩], ?_, ?_⟩, he, he', hne⟩
  · have hjoined : (a ++ ">" ++ b).toList = a.toList ++ Definition.stepSeparator :: b.toList := by
      simp [Definition.stepSeparator]
    rw [hjoined, hjoint, Build.mapM_singleton_eq_ok_iff]
    exact ⟨_, Build.collect_eq_ok_iff.mpr
      ⟨_, Build.mapM_append_ok hsteps hsteps', Chain.ofSteps_append hof' hweight⟩, rfl⟩
  · -- The chain has the weight of the second one.
    refine ofChains_eq_of_ok (List.cons_ne_nil _ _) ?_
    obtain ⟨_, _, hother⟩ := parse_eq_ok_iff.mp h'
    have htotal := totalWeight_of_ofChains hother
    rw [he'] at htotal
    rwa [totalWeight, List.map_singleton, ← Chain.weight_append e.steps hne] at htotal

end Expression

end Reading

/-! ## Values in exact arithmetic -/

namespace Rational

variable [Elementary ℚ]

theorem sum_eq (xs : List ℚ) : Scalar.sum xs = xs.sum := List.sum_eq_foldl.symm

theorem totalWeight_beside (e other : Expression ℚ) :
    (e.beside other).totalWeight = e.totalWeight + other.totalWeight := by
  simp only [Expression.totalWeight, Expression.beside, sum_eq, List.map_append, List.sum_append]

/-- The value of an expression is the sum of the values of its chains by their weight. -/
theorem eval_eq {e : Expression ℚ} (h : e.totalWeight ≠ 0) (x : ℚ) :
    e.eval x = (fun values => values.sum / e.totalWeight) <$> e.chains.mapM (·.eval x) := by
  unfold Expression.eval
  rw [map_eq_pure_bind]
  congr 1
  funext values
  rw [divide_eq h, sum_eq]
  rfl

/-- Side by side, expressions count as much as their weights. -/
theorem eval_beside {e other : Expression ℚ} (h : e.totalWeight ≠ 0) (h' : other.totalWeight ≠ 0)
    (hsum : e.totalWeight + other.totalWeight ≠ 0) (x : ℚ) :
    (e.beside other).eval x = do
      let y ← e.eval x
      let z ← other.eval x
      return (e.totalWeight * y + other.totalWeight * z) / (e.totalWeight + other.totalWeight) := by
  rw [eval_eq (by rwa [totalWeight_beside]), eval_eq h, eval_eq h', totalWeight_beside]
  unfold Expression.beside
  rw [List.mapM_append]
  simp only [map_eq_pure_bind, bind_assoc, pure_bind, List.sum_append, mul_div_cancel₀ _ h,
    mul_div_cancel₀ _ h']

/-- An expression of one chain has the value of its steps, by their weight. -/
theorem eval_singleton {chain : Chain ℚ} (h : chain.weight ≠ 0) (x : ℚ) :
    (⟨[chain]⟩ : Expression ℚ).eval x = (· / chain.weight) <$> chain.eval x := by
  have htotal : (⟨[chain]⟩ : Expression ℚ).totalWeight = chain.weight := by
    rw [Expression.totalWeight, sum_eq, List.map_singleton, List.sum_singleton]
  rw [eval_eq (by rwa [htotal]), htotal, List.mapM_cons, List.mapM_nil]
  simp only [map_eq_pure_bind, bind_assoc, pure_bind, List.sum_singleton]

/-- In a row, an expression gives its value to the next one. -/
theorem eval_followedBy {steps steps' : List (Step ℚ)} (hne : steps' ≠ [])
    (hclear : ∀ step ∈ steps, step.transform ≠ .weight)
    (hweight : (⟨[⟨steps'⟩]⟩ : Expression ℚ).totalWeight ≠ 0) (x : ℚ) :
    (⟨[⟨steps ++ steps'⟩]⟩ : Expression ℚ).eval x =
      (⟨[⟨steps⟩]⟩ : Expression ℚ).eval x >>= (⟨[⟨steps'⟩]⟩ : Expression ℚ).eval := by
  have hlast : (⟨steps'⟩ : Chain ℚ).weight ≠ 0 := by
    rwa [Expression.totalWeight, sum_eq, List.map_singleton, List.sum_singleton] at hweight
  have hone := Chain.weight_of_clear hclear
  have hjoint := Chain.weight_append steps hne
  have hthen : (⟨[⟨steps'⟩]⟩ : Expression ℚ).eval = fun y =>
      (· / (⟨steps'⟩ : Chain ℚ).weight) <$> (⟨steps'⟩ : Chain ℚ).eval y :=
    funext (eval_singleton hlast)
  rw [eval_singleton (by rwa [hjoint]), eval_singleton (by rw [hone]; exact one_ne_zero), hjoint,
    hone, hthen]
  simp only [Chain.eval, List.foldlM_append, map_eq_pure_bind, bind_assoc, pure_bind, div_one]

end Rational

/-- Two definitions with something in them, the second read from where the first has
left the generator. With a chain separator between them they are read as both side by
side, and in exact arithmetic have the average of both values, each by its total weight.
With a step separator between them, if both have a single chain and the first no weight,
they are read as one chain, and the second expression is evaluated at the value of the
first. -/
theorem Expression.definitions_compose {a b : String}
    (ha : ∃ c ∈ a.toList, Definition.isMargin c = false)
    (hb : ∃ c ∈ b.toList, Definition.isMargin c = false) :
    (∀ (α : Type) [Scalar α] [Numeral α] (g middle g' : Generator)
        (notices notices' : List (Notice α)) (e other : Expression α),
      parse a g = (⟨notices, .ok e⟩, middle) → parse b middle = (⟨notices', .ok other⟩, g') →
        (((e.beside other).totalWeight == 0) = false →
          parse (a ++ "&" ++ b) g = (⟨notices ++ notices', .ok (e.beside other)⟩, g') ∧
            (e.beside other).definition = e.definition ++ " & " ++ other.definition) ∧
        ('&' ∉ a.toList → '&' ∉ b.toList → (∀ step ∈ e.steps, step.transform ≠ .weight) →
          parse (a ++ ">" ++ b) g = (⟨notices ++ notices', .ok (e.followedBy other)⟩, g'))) ∧
    ∀ [Elementary ℚ] [Numeral ℚ] (g middle g' : Generator)
        (notices notices' : List (Notice ℚ)) (e other : Expression ℚ),
      parse a g = (⟨notices, .ok e⟩, middle) → parse b middle = (⟨notices', .ok other⟩, g') →
        ((e.beside other).totalWeight ≠ 0 → ∀ x, (e.beside other).eval x = do
          let y ← e.eval x
          let z ← other.eval x
          return (e.totalWeight * y + other.totalWeight * z) /
            (e.totalWeight + other.totalWeight)) ∧
        ('&' ∉ a.toList → '&' ∉ b.toList → (∀ step ∈ e.steps, step.transform ≠ .weight) →
          ∀ x, (e.followedBy other).eval x = e.eval x >>= other.eval) := by
  constructor
  · intro α _ _ g middle g' notices notices' e other h h'
    exact ⟨parse_beside ha hb h h', fun hclear hclear' hweight =>
      (parse_followedBy ha hb h h' hclear hclear' hweight).1⟩
  · intro _ _ g middle g' notices notices' e other h h'
    obtain ⟨_, _, he⟩ := parse_eq_ok_iff.mp h
    obtain ⟨_, _, hother⟩ := parse_eq_ok_iff.mp h'
    have hweight : e.totalWeight ≠ 0 := beq_eq_false_iff_ne.mp (totalWeight_of_ofChains he)
    have hweight' : other.totalWeight ≠ 0 :=
      beq_eq_false_iff_ne.mp (totalWeight_of_ofChains hother)
    constructor
    · intro hsum x
      rw [Rational.totalWeight_beside] at hsum
      exact Rational.eval_beside hweight hweight' hsum x
    · intro hclear hclear' hnone x
      obtain ⟨_, hsingle, hsingle', hne⟩ := parse_followedBy ha hb h h' hclear hclear' hnone
      have hrow := Rational.eval_followedBy hne hnone (by rwa [← hsingle']) x
      rwa [← hsingle, ← hsingle'] at hrow

set_option synthInstance.maxSize 512 in
/-- Definitions whose margins meet at the joint: chains between chain separators, both
with break points of their own, and steps between step separators. -/
theorem Expression.definitions_compose_margins :
    let _ := Session.linear
    let _ := Session.fractions
    (∃ (e other : Expression ℚ) (notices : List (Notice ℚ)) (g' : Generator),
      parse (" Random 1 > weight 3 & >" ++ "&" ++ "> &\tRandom 1, &") (.ofSeed 0) =
        (⟨notices, .ok (e.beside other)⟩, g') ∧
      (e.beside other).definition = "random 1 > weight 3" ++ " & " ++ "random 1" ∧
      ∀ x, (e.beside other).eval x = do
        let y ← e.eval x
        let z ← other.eval x
        return (3 * y + 1 * z) / (3 + 1)) ∧
    ∃ (e other : Expression ℚ) (notices : List (Notice ℚ)) (g' : Generator),
      parse ("Triangle 0.25 > >" ++ ">" ++ "\t> invert > weight 3 ") (.ofSeed 0) =
        (⟨notices, .ok (e.followedBy other)⟩, g') ∧
      e.eval (1 / 2) = .ok (2 / 3) ∧ (e.followedBy other).eval (1 / 2) = other.eval (2 / 3) := by
  let _ := Session.linear
  let _ := Session.fractions
  have hread : ∀ {text : String} {g : Generator} {e : Expression ℚ},
      (parse text g).1.result = .ok e →
        parse text g = (⟨(parse text g : Outcome ℚ _ × _).1.notices, .ok e⟩,
          (parse text g : Outcome ℚ (Expression ℚ) × _).2) := by
    intro text g e h
    rw [← h]
  let g : Generator := .ofSeed 0
  constructor
  · obtain ⟨hparse, hvalues⟩ := definitions_compose (a := " Random 1 > weight 3 & >")
      (b := "> &\tRandom 1, &") ⟨'R', by decide +kernel, by decide +kernel⟩
      ⟨'R', by decide +kernel, by decide +kernel⟩
    have hfirst : (parse " Random 1 > weight 3 & >" g).1.result.map
        (fun e : Expression ℚ => (e.definition, e.totalWeight)) = .ok ("random 1 > weight 3", 3) := by
      decide +kernel
    have hsecond : (parse "> &\tRandom 1, &"
        (parse " Random 1 > weight 3 & >" g : Outcome ℚ (Expression ℚ) × _).2).1.result.map
          (fun e : Expression ℚ => (e.definition, e.totalWeight)) = .ok ("random 1", 1) := by
      decide +kernel
    obtain ⟨e, he, hfacts⟩ := Except.eq_ok_of_map hfirst
    obtain ⟨other, hother, hfacts'⟩ := Except.eq_ok_of_map hsecond
    rw [Prod.mk.injEq] at hfacts hfacts'
    have hsum : (e.beside other).totalWeight ≠ 0 := by
      rw [Rational.totalWeight_beside, hfacts.2, hfacts'.2]
      norm_num
    obtain ⟨hjoint, hdefinition⟩ := (hparse ℚ g _ _ _ _ e other (hread he) (hread hother)).1
      (beq_eq_false_iff_ne.mpr hsum)
    have hvalue := (hvalues g _ _ _ _ e other (hread he) (hread hother)).1 hsum
    rw [hfacts.1, hfacts'.1] at hdefinition
    rw [hfacts.2, hfacts'.2] at hvalue
    exact ⟨e, other, _, _, hjoint, hdefinition, hvalue⟩
  · obtain ⟨hparse, hvalues⟩ := definitions_compose (a := "Triangle 0.25 > >")
      (b := "\t> invert > weight 3 ") ⟨'T', by decide +kernel, by decide +kernel⟩
      ⟨'i', by decide +kernel, by decide +kernel⟩
    have hfirst : (parse "Triangle 0.25 > >" g).1.result.map
        (fun e : Expression ℚ => (e.steps.all (·.transform != .weight), e.eval (1 / 2))) =
          .ok (true, .ok (2 / 3)) := by
      decide +kernel
    have hsecond : (parse "\t> invert > weight 3 "
        (parse "Triangle 0.25 > >" g : Outcome ℚ (Expression ℚ) × _).2).1.result.map
          (fun _ : Expression ℚ => ()) = .ok () := by
      decide +kernel
    obtain ⟨e, he, hfacts⟩ := Except.eq_ok_of_map hfirst
    obtain ⟨other, hother, _⟩ := Except.eq_ok_of_map hsecond
    rw [Prod.mk.injEq, List.all_eq_true] at hfacts
    have hclear : ∀ step ∈ e.steps, step.transform ≠ .weight := by
      intro step hstep
      simpa using hfacts.1 step hstep
    have hjoint := (hparse ℚ g _ _ _ _ e other (hread he) (hread hother)).2 (by decide +kernel)
      (by decide +kernel) hclear
    have hvalue := (hvalues g _ _ _ _ e other (hread he) (hread hother)).2 (by decide +kernel)
      (by decide +kernel) hclear (1 / 2)
    rw [hfacts.2] at hvalue
    exact ⟨e, other, _, _, hjoint, hfacts.2, hvalue⟩

end Easing
