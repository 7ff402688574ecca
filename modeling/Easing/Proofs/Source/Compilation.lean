import Easing.Proofs.Definition.RoundTrip
import Easing.Proofs.Number.Arithmetic
import Easing.Proofs.Session.Independence
import Easing.Proofs.Session.UnitInterval
import Easing.Proofs.Source.Drawing
import Easing.Proofs.Transform.Defaults

/-! # Drawn definitions compile

Without a weight, a line of names is read as an average of chains that all count once
and whose steps, with their default arguments, keep to the unit interval. The average then
has a value at every place of a table, so that compiling succeeds at every precision and
without a warning. Whatever a source draws is such a line. All of this holds of numbers that
compute up to rounding, and so of doubles as well as of exact numbers.
-/

namespace Easing

open Scalar (InUnit KeepsUnit InRange)
open Scalar.Rounded

section Sequences

variable {α β ι : Type}

/-- What can be read without a notice from any generator can be read one after another. -/
theorem Build.exists_mapM {read : ι → Build α β} {P : ι → β → Prop} {xs : List ι}
    (h : ∀ x ∈ xs, ∀ g, ∃ y g', read x g = (⟨[], .ok y⟩, g') ∧ P x y) (g : Generator) :
    ∃ ys g', xs.mapM read g = (⟨[], .ok ys⟩, g') ∧ List.Forall₂ P xs ys := by
  induction xs generalizing g with
  | nil => exact ⟨[], g, rfl, .nil⟩
  | cons x xs ih =>
      obtain ⟨hhead, hrest⟩ := List.forall_mem_cons.mp h
      obtain ⟨y, middle, hy, hvalue⟩ := hhead g
      obtain ⟨ys, g', hys, hvalues⟩ := ih hrest middle
      refine ⟨y :: ys, g', ?_, .cons hvalue hvalues⟩
      rw [List.mapM_cons, Build.bind_apply_ok hy, Build.bind_apply_ok hys]
      rfl

end Sequences

variable {α : Type} [Scalar α] [Scalar.Rounded α]

/-! ## Reading drawn definitions -/

section Reading

variable [Numeral α]

omit [Scalar α] [Scalar.Rounded α] in
theorem Step.readArguments_nil (t : Transform) (defaults : List α) :
    readArguments t defaults [] = .ok defaults := by
  cases defaults <;> rfl

/-- The name of a transform is read as the transform with its default arguments. -/
theorem Step.exists_parse_name {t : Transform} (ht : t ≠ .weight) (g : Generator) :
    ∃ (step : Step α) (g' : Generator), parse t.name.toList g = (⟨[], .ok step⟩, g') ∧
      step.transform.Contained step.parameters ∧ step.transform = t := by
  obtain ⟨parameters, hresolve, _⟩ :=
    Transform.resolveAccepted_apply (Transform.accepts_default (α := α) t) g
  have hcontained := Transform.contained_of_resolveAccepted (Transform.accepts_default t)
    (Transform.mild_default ht) hresolve
  rw [← Transform.resolve_of_accepts (Transform.accepts_default t), ← Transform.defaults_eq]
    at hresolve
  refine ⟨⟨t, t.defaults, parameters⟩, Generator.step^[t.draws (t.defaults : List α)] g, ?_,
    hcontained, rfl⟩
  have htokens : Definition.tokens (Definition.stepLine t.name.toList []) = [t.name.toList] :=
    Definition.tokens_stepLine (word_name t) (by simp)
  change Definition.tokens t.name.toList = _ at htokens
  have hcount : ¬ t.parameterCount < ([] : List String).length := Nat.not_lt_zero _
  have hok : (Build.ofOutcome (.ofResult (.ok t.defaults)) : Build α (List α)) g =
      (⟨[], .ok t.defaults⟩, g) := rfl
  unfold parse
  rw [htokens, List.map_singleton, String.ofList_toList]
  unfold ofTokens
  simp only [Transform.ofName?_name, if_neg hcount, readArguments_nil]
  rw [Build.bind_apply_ok hok, Build.bind_apply_ok hresolve]
  rfl

/-- The names of a chain are read as its steps, which count once. -/
theorem Chain.exists_ofTexts_names {ts : List Transform} (hne : ts ≠ [])
    (hts : ∀ t ∈ ts, t ≠ .weight) (g : Generator) :
    ∃ (chain : Chain α) (g' : Generator),
      ofTexts Step.parse (ts.map fun t => t.name.toList) g = (⟨[], .ok chain⟩, g') ∧
        chain.steps.map Step.transform = ts ∧ chain.Contained 1 := by
  obtain ⟨steps, g', hread, hsteps⟩ := Build.exists_mapM
    (fun t ht => Step.exists_parse_name (α := α) (hts t ht)) g
  obtain ⟨hcontained, hnamed⟩ := (List.forall₂_and_left _ _).mp hsteps.flip
  have htransforms : steps.map Step.transform = ts := by
    rw [← List.forall₂_eq_eq_eq, List.forall₂_map_left_iff]
    exact hnamed
  have hsteps : steps ≠ [] := by
    rintro rfl
    exact hne htransforms.symm
  refine ⟨⟨steps⟩, g', ?_, htransforms, .plain hcontained⟩
  rw [ofTexts, Build.collect_eq_ok_iff, List.mapM_map]
  refine ⟨steps, hread, ?_⟩
  have hclear : steps.dropLast.any (·.transform == .weight) = false := by
    rw [List.any_eq_false]
    intro step hstep
    simpa using (hcontained step (List.mem_of_mem_dropLast hstep)).ne_weight
  unfold ofSteps
  rw [if_neg (by simpa using hsteps), if_neg (by simp [hclear])]

end Reading

/-! ## Weights -/

variable {x : α} {s u : ℚ}

/-- Counting never ends, and what is counted is at least one. -/
theorem exists_sumsTo_ones (hx : Value x s) (hs : 0 ≤ s) (n : ℕ) :
    ∃ u, SumsTo α s (List.replicate n 1) u ∧ s ≤ u ∧ (n ≠ 0 → 1 ≤ u) := by
  induction n generalizing x s with
  | zero => exact ⟨s, .nil s, le_rfl, fun h => absurd rfl h⟩
  | succ n ih =>
      obtain ⟨t, ht⟩ := exists_roundsTo_add_one hx
      have hst : s ≤ t := roundsTo_mono (roundsTo_self hx) ht (by linarith)
      have hone : 1 ≤ t := roundsTo_mono Scalar.roundsTo_one ht (by linarith)
      obtain ⟨u, hu, hle, _⟩ := ih (value_add hx value_one ht) (by linarith)
      exact ⟨u, .cons ht hu, hst.trans hle, fun _ => hone.trans hle⟩

/-- As far as natural numbers are not rounded, counting is exact. -/
theorem SumsTo.eq_of_ones {j n : ℕ} (h : SumsTo α (j : ℚ) (List.replicate n 1) u)
    (hexact : ∀ k ≤ j + n, Value (k : α) k) : u = ((j + n : ℕ) : ℚ) := by
  induction n generalizing j with
  | zero =>
      cases h
      rfl
  | succ n ih =>
      cases h with
      | cons hround hrest =>
          have hself : RoundsTo α ((j : ℚ) + 1) (j + 1) := by
            exact_mod_cast roundsTo_self (hexact (j + 1) (by omega))
          rw [Scalar.eq_of_roundsTo_self hself hround] at hrest
          have hnext := ih (j := j + 1) (by exact_mod_cast hrest) fun k hk => hexact k (by omega)
          rw [hnext, Nat.add_right_comm, Nat.add_assoc]

/-- Chains that count once make an average of chains. -/
theorem Expression.exists_totalWeight {e : Expression α} {n : ℕ} (hn : n ≠ 0)
    (h : List.Forall₂ Chain.Contained e.chains (List.replicate n 1)) :
    e.Contained ∧ (e.totalWeight == 0) = false ∧
      ((∀ k ≤ n, Value (k : α) k) → Value e.totalWeight n) := by
  obtain ⟨u, hu, _, hone⟩ := exists_sumsTo_ones (value_zero (α := α)) le_rfl n
  have hpos : u ≠ 0 := (lt_of_lt_of_le one_pos (hone hn)).ne'
  have hweights : List.Forall₂ Value (e.chains.map Chain.weight) (List.replicate n 1) := by
    rw [List.forall₂_map_left_iff]
    exact h.imp fun _ _ hchain => hchain.value_weight
  have htotal : Value e.totalWeight u := hu.value value_zero hweights
  refine ⟨⟨_, u, h, hu, hpos⟩, ?_, ?_⟩
  · rw [← Bool.not_eq_true, beq_iff htotal value_zero]
    exact hpos
  · intro hexact
    have hcount : u = ((0 + n : ℕ) : ℚ) :=
      SumsTo.eq_of_ones (by exact_mod_cast hu) fun k hk => hexact k (by omega)
    rwa [hcount, Nat.zero_add] at htotal

/-! ## Tables of curves in the unit interval -/

/-- The places of a table are in the unit interval, so that there is a table of every
function that keeps to it. -/
theorem Table.exists_ofFunction {f : α → Except EvalFault α} (hf : KeepsUnit f) {resolution : ℕ}
    (hpos : 1 ≤ resolution) (hle : resolution ≤ Generator.unitCount) (output : Option (Range α)) :
    ∃ table, ofFunction f resolution output = .ok table := by
  refine exists_ofFunction_iff.mpr fun k hk => ?_
  obtain ⟨z, hz, hunit⟩ := Scalar.exists_ratio (value_natCast (α := α) (hk.trans hle))
    (value_natCast hle) k.cast_nonneg (Nat.cast_le.mpr hk) (Nat.cast_ne_zero.mpr (by omega))
  have hdivide := Scalar.Rounded.divide_eq_ok (value_natCast (α := α) hle)
    (Nat.cast_ne_zero.mpr (by omega)) (k : α)
  obtain rfl : (k : α) / (resolution : α) = z := Except.ok.inj (hdivide.symm.trans hz)
  obtain ⟨y, hy, _⟩ := hf _ hunit
  exact ⟨y, hy⟩

/-- The link of a curve in the unit interval, whatever its precision is. -/
theorem Link.exists_make {e : Expression α} (h : KeepsUnit e.eval) (precision : Precision)
    (onExceed : ExceedAction) :
    ∃ link, Link.make e precision onExceed = ⟨[], .ok link⟩ ∧ link.expression = e := by
  unfold make
  cases hexact : precision.isExact with
  | true => exact ⟨_, rfl, rfl⟩
  | false =>
      obtain ⟨hlow, hcapacity⟩ := Precision.resolution_fits hexact
      have hle : precision.resolution ≤ Generator.unitCount := by
        cases precision <;> decide
      obtain ⟨table, htable⟩ :=
        Table.exists_ofFunction h hlow hle (some (.unit .none onExceed))
      have hpositive : ¬ ((precision.resolution : ℤ) < 1) := by omega
      simp only [Bool.false_eq_true, ↓reduceIte, Table.make, hpositive, Int.toNat_natCast,
        hcapacity, htable]
      exact ⟨_, rfl, rfl⟩

/-! ## Whole definitions -/

variable [Numeral α]

/-- A line of names is read as the chains of their transforms, which count once each. -/
theorem Expression.exists_parse_line {chains : List (List Transform)} (hne : chains ≠ [])
    (hchains : ∀ ts ∈ chains, ts ≠ []) (hclear : ∀ t ∈ chains.flatten, t ≠ .weight)
    {text : String} (htext : text.toList = Definition.line chains) (g : Generator) :
    ∃ (e : Expression α) (g' : Generator), parse text g = (⟨[], .ok e⟩, g') ∧
      e.chains.map (·.steps.map Step.transform) = chains ∧
        List.Forall₂ Chain.Contained e.chains (List.replicate chains.length 1) := by
  have hread (ts : List Transform) (hts : ts ∈ chains) := Chain.exists_ofTexts_names (α := α)
    (hchains ts hts) fun t ht => hclear t (List.mem_flatten_of_mem hts ht)
  obtain ⟨made, g', hmade, hall⟩ := Build.exists_mapM hread g
  have hnames : made.map (·.steps.map Step.transform) = chains := by
    rw [← List.forall₂_eq_eq_eq, List.forall₂_map_left_iff]
    exact hall.flip.imp fun _ _ h => h.1
  have hweights : List.Forall₂ Chain.Contained made (List.replicate chains.length 1) := by
    rw [← List.map_const', List.forall₂_map_right_iff]
    exact hall.flip.imp fun _ _ h => h.2
  obtain ⟨_, hcounts, _⟩ := exists_totalWeight (e := ⟨made⟩) (by simpa using hne) hweights
  refine ⟨⟨made⟩, g', ?_, hnames, hweights⟩
  have hnonempty : made ≠ [] := by
    rintro rfl
    exact hne hnames.symm
  rw [parse_eq_ok_iff, htext, (Definition.parts_line hne hchains).2, List.mapM_map]
  exact ⟨made, hmade, ofChains_eq_of_ok (e := ⟨made⟩) hnonempty hcounts⟩

omit [Scalar.Rounded α] [Numeral α] in
/-- Chains without a weight count once each. -/
theorem Expression.weights_eq {e : Expression α} {chains : List (List Transform)}
    (h : e.chains.map (·.steps.map Step.transform) = chains)
    (hclear : ∀ t ∈ chains.flatten, t ≠ .weight) :
    e.chains.map Chain.weight = List.replicate chains.length 1 := by
  subst h
  rw [List.eq_replicate_iff, List.length_map, List.length_map]
  refine ⟨rfl, ?_⟩
  intro weight hweight
  obtain ⟨chain, hchain, rfl⟩ := List.mem_map.mp hweight
  apply Chain.weight_of_clear
  intro step hstep
  apply hclear
  exact List.mem_flatten_of_mem (List.mem_map_of_mem hchain) (List.mem_map_of_mem hstep)

/-- A text that is read as an average in the unit interval compiles, and all that is told
is what was compiled. -/
theorem Compiler.Config.exists_compile (hrange : InRange α) {text : String} {e : Expression α}
    {g g' : Generator} (hread : Expression.parse text g = (⟨[], .ok e⟩, g')) (he : e.Contained)
    (config : Compiler.Config) (requested : Option Precision) :
    ∃ link, config.compile text requested g =
        (⟨[.compiled e.definition e.stepCount e.cheapStepCount
          (e.selectPrecision requested config.precision)], .ok link⟩, g') ∧
      link.expression = e := by
  obtain ⟨link, hlink, hexpression⟩ := Link.exists_make (he.keepsUnit hrange)
    (e.selectPrecision requested config.precision) config.onExceed
  refine ⟨link, ?_, hexpression⟩
  rw [config.compile_of_parse requested hread]
  simp only [Compiler.Config.link, hlink, Outcome.notify, Outcome.bind_mk_ok, List.nil_append,
    List.append_nil]

namespace RandomSource

/-- There is a source unless its limits are not positive, every transform is excluded or
the seed is negative. -/
theorem exists_make {maxSteps chainOdds : ℤ} (hsteps : 1 ≤ maxSteps) (hodds : 1 ≤ chainOdds)
    {excluded : List String} (hleft : ∃ t : Transform, t.name ∉ excluded) {seed : Option ℤ}
    (hseed : ∀ n ∈ seed, 0 ≤ n) (unseeded : Generator) :
    ∃ s, make maxSteps chainOdds excluded seed unseeded = .ok s ∧ s.Filled ∧
      (s.maxSteps : ℤ) = maxSteps ∧ (s.chainOdds : ℤ) = chainOdds ∧
        ∀ t ∈ s.transforms, t.name ∉ excluded := by
  obtain ⟨g, hg⟩ : ∃ g, Generator.make seed unseeded = .ok g := by
    cases seed with
    | none => exact ⟨_, rfl⟩
    | some n =>
        obtain ⟨n, rfl⟩ := Int.eq_ofNat_of_zero_le (hseed n rfl)
        exact ⟨_, rfl⟩
  obtain ⟨t, ht⟩ := hleft
  let transforms := Transform.all.filter fun t => !excluded.contains t.name
  have hmem : t ∈ transforms := by
    have hall : t ∈ Transform.all := by
      cases t <;> decide
    exact List.mem_filter.mpr ⟨hall, by simpa using ht⟩
  have hnonempty : transforms.isEmpty = false :=
    List.isEmpty_eq_false_iff.mpr (List.ne_nil_of_mem hmem)
  refine ⟨⟨transforms, maxSteps.toNat, chainOdds.toNat, g⟩, ?_, ⟨List.ne_nil_of_mem hmem, ?_⟩, ?_, ?_, ?_⟩
  · rw [make, if_neg (not_lt.mpr hsteps), if_neg (not_lt.mpr hodds), hnonempty, hg]
    rfl
  · exact (Int.le_toNat (by omega)).mpr hsteps
  · exact Int.toNat_of_nonneg (by omega)
  · exact Int.toNat_of_nonneg (by omega)
  · intro t ht
    simpa using (List.mem_filter.mp ht).2

variable (α) in
/-- A definition with so many steps at most, without the excluded names, that every
compiler compiles at every precision and without a warning. -/
structure Compiles (maxSteps : ℤ) (excluded pieces : List String) : Prop where
  normalize_eq : Definition.normalize (String.join pieces).toList = (String.join pieces).toList
  parts_eq : Definition.parts (String.join pieces).toList = (cut pieces).map (·.map String.toList)
  one_le_length : 1 ≤ (cut pieces).flatten.length
  length_le : ((cut pieces).flatten.length : ℤ) ≤ maxSteps
  not_mem_excluded : ∀ name ∈ (cut pieces).flatten, name ∉ excluded
  /-- What is compiled has the steps that were drawn, and its chains count once each. Adding
  them up is exact as far as natural numbers are not rounded, which for doubles is up to
  `2 ^ 53`. -/
  exists_link (config : Compiler.Config) (requested : Option Precision) (g : Generator) :
    ∃ (notices : List (Notice α)) (link : Link α) (g' : Generator),
      config.compile (String.join pieces) requested g = (⟨notices, .ok link⟩, g') ∧
        (∀ notice ∈ notices, notice.level ≠ .warning) ∧
        link.expression.chains.map (·.steps.map (·.transform.name)) = cut pieces ∧
        link.expression.chains.map Chain.weight = List.replicate (cut pieces).length 1 ∧
        ((∀ k ≤ (cut pieces).length, Value (k : α) k) →
          Value link.expression.totalWeight (cut pieces).length)

theorem Strung.compiles (hrange : InRange α) {transforms : List Transform} {n : ℕ}
    {pieces : List String} (h : Strung transforms n pieces) {maxSteps : ℤ} (hpos : 1 ≤ n)
    (hle : n ≤ maxSteps) {excluded : List String} (hweight : Transform.weight.name ∈ excluded)
    (htransforms : ∀ t ∈ transforms, t.name ∉ excluded) : Compiles α maxSteps excluded pieces := by
  obtain ⟨chains, hne, hchains, hmem, hlength, hcut, hline⟩ := h.exists_chains
  obtain ⟨hnormal, hparts⟩ := Definition.parts_line hne hchains
  have hflatten : (cut pieces).flatten = chains.flatten.map Transform.name := by
    rw [hcut, List.map_flatten]
  have hclear : ∀ t ∈ chains.flatten, t ≠ .weight := by
    rintro t ht rfl
    exact htransforms _ (hmem _ ht) hweight
  constructor
  · rw [hline, hnormal]
  · rw [hline, hparts, hcut, List.map_map]
    simp
  · rwa [hflatten, List.length_map, hlength]
  · rwa [hflatten, List.length_map, hlength]
  · intro name hname
    rw [hflatten] at hname
    obtain ⟨t, ht, rfl⟩ := List.mem_map.mp hname
    exact htransforms t (hmem t ht)
  · intro config requested g
    obtain ⟨e, g', hread, hnames, hweights⟩ :=
      Expression.exists_parse_line (α := α) hne hchains hclear hline g
    obtain ⟨hcontained, _, htotal⟩ :=
      Expression.exists_totalWeight (List.length_pos_of_ne_nil hne).ne' hweights
    obtain ⟨link, hcompile, rfl⟩ := config.exists_compile hrange hread hcontained requested
    refine ⟨_, link, g', hcompile, ?_, ?_, ?_, ?_⟩
    · intro notice hnotice
      obtain rfl := List.mem_singleton.mp hnotice
      change Level.debug ≠ Level.warning
      decide
    · rw [hcut, ← hnames, List.map_map]
      simp
    · rw [hcut, List.length_map]
      exact Expression.weights_eq hnames hclear
    · rwa [hcut, List.length_map]

/-- A source gives out definitions as long as the number of their steps and the odds can
be drawn with. Each of them is the text of its names and separators, of one to so many
steps, and it compiles, if angles and powers keep to their intervals. -/
theorem definitions_compile (hrange : InRange α) {maxSteps chainOdds : ℤ} (hsteps : 1 ≤ maxSteps)
    (hodds : 1 ≤ chainOdds) {excluded : List String} (hweight : Transform.weight.name ∈ excluded)
    (hleft : ∃ t : Transform, t.name ∉ excluded) {seed : Option ℤ} (hseed : ∀ n ∈ seed, 0 ≤ n)
    (unseeded : Generator) :
    ∃ s, make maxSteps chainOdds excluded seed unseeded = .ok s ∧
      (maxSteps ≤ stepLimit → chainOdds < Binary64.tooLarge →
        ∀ count, ∃ texts, s.take count = .ok texts) ∧
      ∀ count texts, s.take count = .ok texts →
        ∃ drawn, s.drawAll count = .ok drawn ∧ texts = drawn.map String.join ∧
          drawn.length = count ∧ ∀ pieces ∈ drawn, Compiles α maxSteps excluded pieces := by
  obtain ⟨s, hmake, hfilled, rfl, rfl, htransforms⟩ := exists_make hsteps hodds hleft hseed unseeded
  refine ⟨s, hmake, ?_, ?_⟩
  · intro hlimit htooLarge count
    obtain ⟨drawn, hdrawn⟩ :=
      exists_drawAll (Int.ofNat_le.mp hlimit) (Int.ofNat_lt.mp htooLarge) count
    rw [take_eq, hdrawn]
    exact ⟨_, rfl⟩
  · intro count texts htake
    rw [take_eq] at htake
    obtain ⟨drawn, hdrawn, rfl⟩ := Except.eq_ok_of_map htake
    obtain ⟨hlength, hall⟩ := strung_drawAll hfilled hdrawn
    refine ⟨drawn, hdrawn, rfl, hlength, ?_⟩
    intro pieces hpieces
    obtain ⟨n, hpos, hle, hstrung⟩ := hall pieces hpieces
    exact hstrung.compiles hrange hpos (Int.ofNat_le.mpr hle) hweight htransforms

set_option synthInstance.maxSize 512 in
/-- A single step, and two chains of two steps, one of them with a power. The angles are
excluded as well, because powers are all that these numbers have. -/
theorem definitions_compile_without_angles :
    let _ := Session.powers
    let _ := Session.fractions
    let angles : List Transform := [.sin, .fullSin, .cos, .fullCos]
    let excluded := (defaultExcluded ++ angles).map Transform.name
    ∃ s, make 5 4 excluded (some 42) = .ok s ∧
      s.take 2 = .ok ["trapez", "inward > invert & triangle > trapez"] ∧
      Compiles ℚ 5 excluded ["trapez"] ∧
      Compiles ℚ 5 excluded ["inward", " > ", "invert", " & ", "triangle", " > ", "trapez"] := by
  let _ := Session.powers
  let _ := Session.fractions
  let angles : List Transform := [.sin, .fullSin, .cos, .fullCos]
  let excluded := (defaultExcluded ++ angles).map Transform.name
  have hleft : Transform.invert.name ∉ excluded := by decide
  obtain ⟨s, hmake, _, hall⟩ := definitions_compile Session.inRange_powers
    (show (1 : ℤ) ≤ 5 by decide) (show (1 : ℤ) ≤ 4 by decide)
    (show Transform.weight.name ∈ excluded by decide) ⟨.invert, hleft⟩
    (show ∀ n ∈ some (42 : ℤ), 0 ≤ n by decide) (.ofSeed 0)
  have hkernel : (make 5 4 excluded (some 42)).map (·.drawAll 2) = .ok
      (.ok [["trapez"], ["inward", " > ", "invert", " & ", "triangle", " > ", "trapez"]]) := by
    decide +kernel
  rw [hmake] at hkernel
  have hdrawn : s.drawAll 2 = _ := Except.ok.inj hkernel
  have htake : s.take 2 = .ok ["trapez", "inward > invert & triangle > trapez"] := by
    rw [take_eq, hdrawn]
    rfl
  obtain ⟨drawn, hagain, _, _, hcompiles⟩ := hall 2 _ htake
  obtain rfl := Except.ok.inj (hdrawn.symm.trans hagain)
  obtain ⟨hfirst, hsecond, _⟩ := List.forall_mem_cons.mp hcompiles |>.imp_right
    fun h => List.forall_mem_cons.mp h
  exact ⟨s, hmake, htake, hfirst, hsecond⟩

end RandomSource

end Easing
