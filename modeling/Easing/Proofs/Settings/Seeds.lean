import Easing.Proofs.Decimal.Integers
import Easing.Proofs.Settings.Words

/-! # Seeds in settings

A seed is any whole number that can be read, of either sign, but a generator takes no negative
one. So there are settings that load and that no compiler can be made from: exactly those whose
seed is written with a minus sign and some digit other than zero.
-/

namespace Easing

/-- A generator refuses the negative seeds and no others. -/
theorem Generator.make_iff (seed : Option ℤ) (unseeded : Generator) :
    ((∃ g, make seed unseeded = .ok g) ↔ ¬ ∃ n ∈ seed, n < 0) ∧
      (make seed unseeded = .error .negative ↔ ∃ n ∈ seed, n < 0) := by
  rcases seed with _ | n | n
  · simp [make]
  · simp [make]
  · simp [make, Int.negSucc_lt_zero]

/-- A compiler is made for a configuration exactly if a generator is made for its seed. -/
theorem Compiler.make_iff (config : Config) (unseeded : Generator) :
    ((∃ compiler, make config unseeded = .ok compiler ∧ compiler.config = config) ↔
        ¬ ∃ n ∈ config.seed, n < 0) ∧
      (make config unseeded = .error .negative ↔ ∃ n ∈ config.seed, n < 0) := by
  obtain ⟨hmakes, hrefuses⟩ := Generator.make_iff config.seed unseeded
  rw [← hmakes, ← hrefuses]
  unfold make
  cases hg : Generator.make config.seed unseeded with
  | ok g => exact ⟨iff_of_true ⟨_, rfl, rfl⟩ ⟨g, rfl⟩, iff_of_false nofun nofun⟩
  | error f =>
      refine ⟨iff_of_false (fun ⟨_, h, _⟩ => nomatch h) nofun, ?_⟩
      change Except.error f = _ ↔ _
      rw [Except.error.injEq, Except.error.injEq]

namespace Settings

open Spelling Text

/-- The seed that a variable stands for: none if it is unset or blank, and otherwise the whole
number that it writes. -/
inductive SelectsSeed : Option String → Option ℤ → Prop
  | unset : SelectsSeed none none
  | blank {value : String} (h : ∀ c ∈ value.toList, isBlank c = true) :
      SelectsSeed (some value) none
  | written {value : String} {n : ℤ} (h : Writes value.toList n) :
      SelectsSeed (some value) (some n)

/-- A variable writes a negative number: between blanks a minus sign, and digits that are not
all zero. -/
def WritesNegative (setting : Option String) : Prop :=
  ∃ value digits run, setting = some value ∧ Padded isPadding ('-' :: digits) value.toList ∧
    Digits digits run ∧ run.length ≤ 4300 ∧ ∃ d ∈ run, d ≠ 0

variable {setting : Option String} {s : Option ℤ}

theorem seed_eq_ok_iff : seed setting = .ok s ↔ SelectsSeed setting s := by
  cases setting with
  | none =>
      rw [seed, Except.ok.injEq]
      constructor
      · rintro rfl
        exact .unset
      · rintro ⟨⟩
        rfl
  | some value =>
      unfold seed
      by_cases hblank : value.toList.all isBlank = true
      · simp only [if_pos hblank, Except.ok.injEq]
        rw [List.all_eq_true] at hblank
        constructor
        · rintro rfl
          exact .blank hblank
        · intro h
          cases h with
          | blank => rfl
          | written h =>
              obtain ⟨c, hc, hsolid⟩ := h.exists_solid
              rw [hblank c hc] at hsolid
              cases hsolid
      · simp only [if_neg hblank]
        constructor
        · intro h
          cases hn : integer? value.toList with
          | none =>
              rw [hn] at h
              cases h
          | some n =>
              rw [hn] at h
              cases h
              exact .written (integer?_eq_some_iff.mp hn)
        · intro h
          cases h with
          | blank h => exact absurd (List.all_eq_true.mpr h) hblank
          | written h => rw [integer?_eq_some_iff.mpr h]

/-- A variable that selects no seed is set to a value that is refused. -/
theorem exists_of_not_selectsSeed (h : ¬ ∃ s, SelectsSeed setting s) :
    ∃ value, setting = some value ∧ seed setting = .error (.seedNotInteger value) := by
  cases setting with
  | none => exact absurd ⟨_, .unset⟩ h
  | some value =>
      refine ⟨value, rfl, ?_⟩
      cases hs : seed (some value) with
      | ok s => exact absurd ⟨s, seed_eq_ok_iff.mp hs⟩ h
      | error f =>
          unfold seed at hs
          dsimp only at hs
          split at hs
          next => cases hs
          next =>
            split at hs
            next => cases hs
            next => exact hs.symm

/-- The seed that is selected is negative exactly if a negative number is written. -/
theorem SelectsSeed.exists_neg_iff (h : SelectsSeed setting s) :
    (∃ n ∈ s, n < 0) ↔ WritesNegative setting := by
  have hwrites {value : String} : WritesNegative (some value) ↔
      ∃ n, Writes value.toList n ∧ n < 0 := by
    rw [Writes.exists_neg_iff]
    constructor
    · rintro ⟨_, digits, run, h, hnegative⟩
      cases h
      exact ⟨digits, run, hnegative⟩
    · rintro ⟨digits, run, hnegative⟩
      exact ⟨value, digits, run, rfl, hnegative⟩
  cases h with
  | unset => exact iff_of_false nofun fun ⟨_, _, _, h, _⟩ => nomatch h
  | blank hblank =>
      rw [hwrites]
      refine iff_of_false nofun ?_
      rintro ⟨n, hn, -⟩
      obtain ⟨c, hc, hsolid⟩ := hn.exists_solid
      rw [hblank c hc] at hsolid
      cases hsolid
  | @written value n hn =>
      rw [hwrites]
      constructor
      · rintro ⟨_, ⟨⟩, hneg⟩
        exact ⟨n, hn, hneg⟩
      · rintro ⟨m, hm, hneg⟩
        exact ⟨n, rfl, hm.unique hn ▸ hneg⟩

/-- Settings load as the precision, the action and the seed that their variables select, and a
seed that is no whole number is refused by name. Unless a negative seed is written, what loads
makes a compiler of that configuration, with whichever generator serves without a seed; a
negative seed loads like any other, and then no compiler is made. -/
theorem loads_seeds (env : Environment) (unseeded : Generator) :
    (¬ WritesNegative env.seed → (∃ f, load env = .error f) ∨ ∃ config compiler,
        load env = .ok config ∧ Compiler.make config unseeded = .ok compiler ∧
          compiler.config = config) ∧
      (∀ config, load env = .ok config ↔ SelectsPrecision env.precision config.precision ∧
        NamesAction env.onExceed config.onExceed ∧ SelectsSeed env.seed config.seed) ∧
      (∀ p a, SelectsPrecision env.precision p → NamesAction env.onExceed a →
        (¬ ∃ s, SelectsSeed env.seed s) → ∃ value f, env.seed = some value ∧
          load env = .error f ∧
          f.message = "COMPLEX_MAPPING_SEED must be an integer, got: " ++ value) ∧
      (∀ config, load env = .ok config →
        (WritesNegative env.seed ↔ Compiler.make config unseeded = .error .negative)) := by
  have hloads (config : Compiler.Config) : load env = .ok config ↔
      SelectsPrecision env.precision config.precision ∧
        NamesAction env.onExceed config.onExceed ∧ SelectsSeed env.seed config.seed := by
    rw [load_eq_ok_iff, seed_eq_ok_iff]
  refine ⟨fun hnot => ?usable, hloads, fun p a hp ha hnone => ?refused, fun config h => ?negative⟩
  case usable =>
    cases h : load env with
    | error f => exact .inl ⟨f, rfl⟩
    | ok config =>
        obtain ⟨-, -, hseed⟩ := (hloads config).mp h
        obtain ⟨compiler, hmake, hconfig⟩ :=
          (Compiler.make_iff config unseeded).1.mpr (mt hseed.exists_neg_iff.mp hnot)
        exact .inr ⟨config, compiler, rfl, hmake, hconfig⟩
  case refused =>
    obtain ⟨value, hvalue, hread⟩ := exists_of_not_selectsSeed hnone
    refine ⟨value, .seedNotInteger value, hvalue, ?_, rfl⟩
    rw [load, selectsPrecision_iff.mpr hp, namesAction_iff.mpr ha, hread]
    rfl
  case negative =>
    obtain ⟨-, -, hseed⟩ := (hloads config).mp h
    rw [(Compiler.make_iff config unseeded).2, hseed.exists_neg_iff]

/-- A negative seed loads, and no compiler can be made from what is loaded. -/
theorem negative_seed_loads :
    load ⟨none, none, some "-1", none⟩ = .ok ⟨.high, .silent, some (-1)⟩ ∧
      Compiler.make ⟨.high, .silent, some (-1)⟩ = .error .negative ∧
      ¬ ∀ env, (∃ f, load env = .error f) ∨
        ∃ config compiler, load env = .ok config ∧ Compiler.make config = .ok compiler := by
  have hload : load ⟨none, none, some "-1", none⟩ = .ok ⟨.high, .silent, some (-1)⟩ := by
    decide +kernel
  have hmake : Compiler.make ⟨.high, .silent, some (-1)⟩ = .error .negative := rfl
  refine ⟨hload, hmake, fun h => ?_⟩
  rcases h ⟨none, none, some "-1", none⟩ with ⟨f, hf⟩ | ⟨config, compiler, hconfig, hcompiler⟩
  · rw [hload] at hf
    cases hf
  · rw [hload] at hconfig
    cases hconfig
    rw [hmake] at hcompiler
    cases hcompiler

end Settings

end Easing
