import Easing.Proofs.Definition.Joining
import Easing.Proofs.Definition.Replay
import Easing.Source.Random

/-! # Definitions as they are drawn

A random definition is a text of names and of separators between them, in the order in
which they are drawn. Whatever is drawn, the text is in normal form, and reading takes
it apart into the names, cut at the separators: what follows a chain separator belongs
to another chain. The names are those of transforms that are not excluded, at least one
and no more than were asked for.
-/

namespace Easing

/-- A natural below a positive bound. -/
theorem Generator.scaled_lt {width : ℕ} (draw : Generator → BitVec width × Generator)
    {bound : ℕ} (hpos : 0 < bound) (retries : ℕ) (g : Generator) :
    (scaled draw bound retries g).1 < bound := by
  have hword (word : BitVec width) : word.toNat * bound / (1 <<< width) < bound := by
    rw [Nat.shiftLeft_eq, Nat.one_mul, Nat.div_lt_iff_lt_mul (Nat.two_pow_pos width),
      Nat.mul_comm bound]
    exact Nat.mul_lt_mul_of_pos_right word.isLt hpos
  induction retries generalizing g with
  | zero => exact hword _
  | succ retries ih =>
      unfold scaled
      simp only
      split
      · exact ih _
      · exact hword _

theorem Generator.below_lt {bound : ℕ} (hpos : 0 < bound) (g : Generator) :
    (g.below bound).1 < bound := by
  unfold below
  split
  · exact hpos
  · split
    · exact scaled_lt next32 hpos _ g
    · exact scaled_lt next64 hpos _ g

namespace RandomSource

/-! ## Names and separators -/

/-- The names and separators of the next definition. -/
def draw (s : RandomSource) : Except SourceFault (List String × RandomSource) :=
  if stepLimit < s.maxSteps then .error .tooManySteps
  else do
    let (more, g) := s.generator.below s.maxSteps
    let (name, g) := drawName s.transforms g
    let (tail, g) ← s.drawTail more g
    return (name :: tail, { s with generator := g })

theorem next_eq (s : RandomSource) :
    s.next = (fun drawn => (String.join drawn.1, drawn.2)) <$> s.draw := by
  unfold next draw
  split
  · rfl
  · simp only [map_eq_pure_bind, bind_assoc, pure_bind]

/-- The names and separators of so many definitions, one after another. -/
def drawAll (s : RandomSource) : ℕ → Except SourceFault (List (List String))
  | 0 => .ok []
  | count + 1 => do
    let (drawn, s) ← s.draw
    let more ← s.drawAll count
    return drawn :: more

/-- Each definition is the text of what was drawn for it. -/
theorem take_eq (s : RandomSource) (count : ℕ) :
    s.take count = (·.map String.join) <$> s.drawAll count := by
  induction count generalizing s with
  | zero => rfl
  | succ count ih =>
      simp only [take, drawAll, next_eq, ih, map_eq_pure_bind, bind_assoc, pure_bind,
        List.map_cons]

/-- Names of transforms, so many, with a separator before each but the first. -/
inductive Strung (transforms : List Transform) : ℕ → List String → Prop
  | last {t : Transform} (ht : t ∈ transforms) : Strung transforms 1 [t.name]
  | chain {t : Transform} {n : ℕ} {rest : List String} (ht : t ∈ transforms)
      (hrest : Strung transforms n rest) : Strung transforms (n + 1) (t.name :: " & " :: rest)
  | step {t : Transform} {n : ℕ} {rest : List String} (ht : t ∈ transforms)
      (hrest : Strung transforms n rest) : Strung transforms (n + 1) (t.name :: " > " :: rest)

theorem drawName_eq {transforms : List Transform} (hne : transforms ≠ []) (g : Generator) :
    ∃ t ∈ transforms, (drawName transforms g).1 = t.name := by
  have hlt := g.below_lt (List.length_pos_of_ne_nil hne)
  refine ⟨transforms[(g.below transforms.length).1], List.getElem_mem hlt, ?_⟩
  change ((transforms[(g.below transforms.length).1]?).map Transform.name).getD "" = _
  rw [List.getElem?_eq_getElem hlt]
  rfl

theorem drawSeparator_eq_ok {chainOdds : ℕ} {g g' : Generator} {separator : String}
    (h : drawSeparator chainOdds g = .ok (separator, g')) :
    separator = " & " ∨ separator = " > " := by
  unfold drawSeparator at h
  split at h
  · cases h
  · cases h
    split
    · exact .inl rfl
    · exact .inr rfl

theorem drawTail_succ (s : RandomSource) (more : ℕ) (g : Generator) :
    s.drawTail (more + 1) g = do
      let (separator, g) ← drawSeparator s.chainOdds g
      let (tail, g') ← s.drawTail more (drawName s.transforms g).2
      return (separator :: (drawName s.transforms g).1 :: tail, g') := rfl

theorem draw_of_le {s : RandomSource} (h : s.maxSteps ≤ stepLimit) :
    s.draw = do
      let first := drawName s.transforms (s.generator.below s.maxSteps).2
      let (tail, g) ← s.drawTail (s.generator.below s.maxSteps).1 first.2
      return (first.1 :: tail, { s with generator := g }) :=
  if_neg (Nat.not_lt.mpr h)

theorem strung_drawTail {s : RandomSource} (hne : s.transforms ≠ []) {more : ℕ}
    {tail : List String} {g g' : Generator} (h : s.drawTail more g = .ok (tail, g'))
    {t : Transform} (ht : t ∈ s.transforms) :
    Strung s.transforms (more + 1) (t.name :: tail) := by
  induction more generalizing t tail g with
  | zero =>
      cases h
      exact .last ht
  | succ more ih =>
      rw [drawTail_succ] at h
      obtain ⟨⟨separator, g₁⟩, hseparator, h⟩ := Except.bind_eq_ok_iff.mp h
      obtain ⟨⟨rest, g₂⟩, hrest, h⟩ := Except.bind_eq_ok_iff.mp h
      obtain ⟨next, hnext, hname⟩ := drawName_eq hne g₁
      simp only [hname] at h
      obtain ⟨rfl, rfl⟩ := Prod.mk.inj (Except.ok.inj h)
      have hstrung := ih hrest hnext
      rcases drawSeparator_eq_ok hseparator with rfl | rfl
      · exact .chain ht hstrung
      · exact .step ht hstrung

/-- A source of at least one transform and at least one step. -/
structure Filled (s : RandomSource) : Prop where
  transforms : s.transforms ≠ []
  maxSteps : 1 ≤ s.maxSteps

/-- Drawing takes the generator along and changes nothing else. -/
theorem draw_eq_ok {s s' : RandomSource} {drawn : List String} (h : s.draw = .ok (drawn, s')) :
    s'.transforms = s.transforms ∧ s'.maxSteps = s.maxSteps ∧ s'.chainOdds = s.chainOdds := by
  by_cases hlimit : s.maxSteps ≤ stepLimit
  · rw [draw_of_le hlimit] at h
    obtain ⟨⟨tail, g⟩, _, h⟩ := Except.bind_eq_ok_iff.mp h
    obtain ⟨_, rfl⟩ := Prod.mk.inj (Except.ok.inj h)
    exact ⟨rfl, rfl, rfl⟩
  · rw [draw, if_pos (Nat.not_le.mp hlimit)] at h
    cases h

theorem strung_draw {s s' : RandomSource} (hs : s.Filled) {drawn : List String}
    (h : s.draw = .ok (drawn, s')) : ∃ n, 1 ≤ n ∧ n ≤ s.maxSteps ∧ Strung s.transforms n drawn := by
  by_cases hlimit : s.maxSteps ≤ stepLimit
  · rw [draw_of_le hlimit] at h
    obtain ⟨⟨tail, g⟩, htail, h⟩ := Except.bind_eq_ok_iff.mp h
    obtain ⟨t, ht, hname⟩ := drawName_eq hs.transforms (s.generator.below s.maxSteps).2
    simp only [hname] at h
    obtain ⟨rfl, _⟩ := Prod.mk.inj (Except.ok.inj h)
    have hlt := s.generator.below_lt hs.maxSteps
    exact ⟨_, Nat.le_add_left 1 _, hlt, strung_drawTail hs.transforms htail ht⟩
  · rw [draw, if_pos (Nat.not_le.mp hlimit)] at h
    cases h

/-- What is drawn in a run of any length. -/
theorem strung_drawAll {s : RandomSource} (hs : s.Filled) {count : ℕ}
    {drawn : List (List String)} (h : s.drawAll count = .ok drawn) :
    drawn.length = count ∧ ∀ pieces ∈ drawn,
      ∃ n, 1 ≤ n ∧ n ≤ s.maxSteps ∧ Strung s.transforms n pieces := by
  induction count generalizing s drawn with
  | zero =>
      cases h
      simp
  | succ count ih =>
      unfold drawAll at h
      obtain ⟨⟨first, s'⟩, hfirst, h⟩ := Except.bind_eq_ok_iff.mp h
      obtain ⟨rest, hrest, h⟩ := Except.bind_eq_ok_iff.mp h
      cases h
      obtain ⟨htransforms, hmax, _⟩ := draw_eq_ok hfirst
      have hs' : s'.Filled := ⟨htransforms ▸ hs.transforms, hmax ▸ hs.maxSteps⟩
      obtain ⟨hlength, hall⟩ := ih hs' hrest
      rw [htransforms, hmax] at hall
      exact ⟨congrArg (· + 1) hlength, List.forall_mem_cons.mpr ⟨strung_draw hs hfirst, hall⟩⟩

theorem exists_drawTail {s : RandomSource} (hodds : s.chainOdds < Binary64.tooLarge) (more : ℕ)
    (g : Generator) : ∃ tail, s.drawTail more g = .ok tail := by
  induction more generalizing g with
  | zero => exact ⟨_, rfl⟩
  | succ more ih =>
      have hseparator : drawSeparator s.chainOdds g = .ok _ := if_neg (Nat.not_le.mpr hodds)
      obtain ⟨tail, htail⟩ := ih _
      exact ⟨_, Except.bind_eq_ok_iff.mpr
        ⟨_, hseparator, Except.bind_eq_ok_iff.mpr ⟨tail, htail, rfl⟩⟩⟩

/-- Within the limits of what can be drawn, every run goes on. -/
theorem exists_drawAll {s : RandomSource} (hsteps : s.maxSteps ≤ stepLimit)
    (hodds : s.chainOdds < Binary64.tooLarge) (count : ℕ) : ∃ drawn, s.drawAll count = .ok drawn := by
  induction count generalizing s with
  | zero => exact ⟨_, rfl⟩
  | succ count ih =>
      obtain ⟨⟨drawn, s'⟩, hdraw⟩ : ∃ drawn, s.draw = .ok drawn := by
        obtain ⟨tail, htail⟩ := exists_drawTail hodds (s.generator.below s.maxSteps).1
          (drawName s.transforms (s.generator.below s.maxSteps).2).2
        rw [draw_of_le hsteps]
        exact ⟨_, Except.bind_eq_ok_iff.mpr ⟨tail, htail, rfl⟩⟩
      obtain ⟨_, hmax, hchain⟩ := draw_eq_ok hdraw
      obtain ⟨more, hmore⟩ := ih (hmax ▸ hsteps) (hchain ▸ hodds)
      exact ⟨_, Except.bind_eq_ok_iff.mpr
        ⟨_, hdraw, Except.bind_eq_ok_iff.mpr ⟨more, hmore, rfl⟩⟩⟩

/-! ## Chains of names -/

/-- The names, cut at the separators: what stands behind a chain separator is in another
chain. -/
def cut : List String → List (List String)
  | [] => []
  | [name] => [[name]]
  | name :: separator :: rest =>
    if separator = " & " then [name] :: cut rest
    else
      match cut rest with
      | [] => [[name]]
      | chain :: chains => (name :: chain) :: chains

end RandomSource

namespace Definition

/-- The line of a chain of names. -/
def chainLine (ts : List Transform) : List Char :=
  (spaced stepSeparator).intercalate (ts.map fun t => t.name.toList)

/-- The line of a definition of such chains. -/
def line (chains : List (List Transform)) : List Char :=
  (spaced chainSeparator).intercalate (chains.map chainLine)

theorem names_line (ts : List Transform) :
    ∀ word ∈ ts.map fun t => t.name.toList, Line [] word := by
  intro word hword
  obtain ⟨t, _, rfl⟩ := List.mem_map.mp hword
  have hstep : Line [] (stepLine t.name.toList []) :=
    .stepLine (Step.word_name t) fun word hword => by cases hword
  exact hstep

variable {chains : List (List Transform)}

theorem chainLine_line {ts : List Transform} (h : ts ≠ []) : Line [stepSeparator] (chainLine ts) :=
  .intercalate rfl (by simpa using h) (names_line ts)

theorem chainLines_line (h : ∀ ts ∈ chains, ts ≠ []) :
    ∀ text ∈ chains.map chainLine, Line [stepSeparator] text := by
  intro text htext
  obtain ⟨ts, hts, rfl⟩ := List.mem_map.mp htext
  exact chainLine_line (h ts hts)

/-- Such a definition is in normal form, and it is taken apart into its names. -/
theorem parts_line (hne : chains ≠ []) (h : ∀ ts ∈ chains, ts ≠ []) :
    normalize (line chains) = line chains ∧
      parts (line chains) = chains.map (·.map fun t => t.name.toList) := by
  have hline : Line [chainSeparator, stepSeparator] (line chains) :=
    .intercalate rfl (by simpa using hne) (chainLines_line h)
  refine ⟨hline.normalize, ?_⟩
  have hchains : Definition.chains (line chains) = chains.map chainLine :=
    Line.split_spaced rfl (by decide) (by simpa using hne) (chainLines_line h)
  rw [parts, hline.normalize, hchains, List.map_map]
  apply List.map_congr_left
  intro ts hts
  exact Line.split_spaced rfl List.not_mem_nil (by simpa using h ts hts) (names_line ts)

/-- A chain of one name before others. -/
theorem line_cons_singleton (h : chains ≠ []) (t : Transform) :
    line ([t] :: chains) = t.name.toList ++ (spaced chainSeparator ++ line chains) := by
  obtain ⟨next, chains, rfl⟩ := List.exists_cons_of_ne_nil h
  have hchain : chainLine [t] = t.name.toList := List.intercalate_singleton
  rw [line, List.map_cons, List.map_cons, List.intercalate_cons_cons, hchain, List.append_assoc]
  rfl

/-- One more name at the beginning of the first chain. -/
theorem line_cons_cons {ts : List Transform} (h : ts ≠ []) (t : Transform) :
    line ((t :: ts) :: chains) = t.name.toList ++ (spaced stepSeparator ++ line (ts :: chains)) := by
  obtain ⟨next, ts, rfl⟩ := List.exists_cons_of_ne_nil h
  have hchain : chainLine (t :: next :: ts) =
      t.name.toList ++ spaced stepSeparator ++ chainLine (next :: ts) :=
    List.intercalate_cons_cons
  cases chains with
  | nil => simp only [line, List.map_cons, List.map_nil, List.intercalate_singleton, hchain,
      List.append_assoc]
  | cons following chains =>
      simp only [line, List.map_cons, List.intercalate_cons_cons, hchain, List.append_assoc]

end Definition

namespace RandomSource

/-- A drawn definition is the line of its chains. -/
theorem Strung.exists_chains {transforms : List Transform} {n : ℕ} {pieces : List String}
    (h : Strung transforms n pieces) :
    ∃ chains : List (List Transform), chains ≠ [] ∧ (∀ ts ∈ chains, ts ≠ []) ∧
      (∀ t ∈ chains.flatten, t ∈ transforms) ∧ chains.flatten.length = n ∧
      cut pieces = chains.map (·.map Transform.name) ∧
      (String.join pieces).toList = Definition.line chains := by
  induction h with
  | @last t ht =>
      refine ⟨[[t]], by simp, by simp, by simpa using ht, rfl, rfl, ?_⟩
      simp [Definition.line, Definition.chainLine, String.join]
  | @chain t n rest ht _ ih =>
      obtain ⟨chains, hne, hsteps, hmem, hlength, hcut, hline⟩ := ih
      refine ⟨[t] :: chains, List.cons_ne_nil _ _, List.forall_mem_cons.mpr ⟨by simp, hsteps⟩,
        List.forall_mem_cons.mpr ⟨ht, hmem⟩, congrArg (· + 1) hlength, ?_, ?_⟩
      · rw [cut, if_pos rfl, hcut]
        rfl
      · rw [Definition.line_cons_singleton hne, String.join_cons, String.join_cons,
          String.toList_append, String.toList_append, hline]
        rfl
  | @step t n rest ht _ ih =>
      obtain ⟨chains, hne, hsteps, hmem, hlength, hcut, hline⟩ := ih
      obtain ⟨ts, chains, rfl⟩ := List.exists_cons_of_ne_nil hne
      obtain ⟨hts, hsteps⟩ := List.forall_mem_cons.mp hsteps
      refine ⟨(t :: ts) :: chains, List.cons_ne_nil _ _,
        List.forall_mem_cons.mpr ⟨List.cons_ne_nil _ _, hsteps⟩,
        List.forall_mem_cons.mpr ⟨ht, hmem⟩, congrArg (· + 1) hlength, ?_, ?_⟩
      · rw [cut, if_neg (by decide), hcut]
        rfl
      · rw [Definition.line_cons_cons hts, String.join_cons, String.join_cons,
          String.toList_append, String.toList_append, hline]
        rfl

end RandomSource

end Easing
