import Easing.Proofs.Sequence
import Easing.Proofs.Text.Letters
import Easing.Settings
import Mathlib.Data.Bool.AllAny

/-! # Words in settings

The words for actions are found by their small letters, which no character beyond ASCII has,
so they are accepted in ASCII letters of either case and in no other way. The words for
precisions are found by their capitals, which some characters beyond ASCII have, so a word is
accepted also if it only resembles one. All else is refused, a precision before an action.
-/

namespace Easing

theorem Precision.ofName?_eq_some_iff {name : String} {p : Precision} :
    Precision.ofName? name = some p ↔ name = p.name := by
  constructor
  · intro h
    have hname := List.find?_some (p := fun q : Precision => q.name == name) h
    exact (beq_iff_eq.mp hname).symm
  · rintro rfl
    exact ofName?_name p

theorem ExceedAction.ofWord?_eq_some_iff {word : String} {a : ExceedAction} :
    ExceedAction.ofWord? word = some a ↔ word = a.word := by
  constructor
  · intro h
    have hword := List.find?_some (p := fun b : ExceedAction => b.word == word) h
    exact (beq_iff_eq.mp hword).symm
  · rintro rfl
    exact ofWord?_word a

namespace Settings

open Text

/-! ## Spellings -/

/-- What a variable stands for: a default if it is unset or empty, and otherwise what its value
spells. -/
inductive Selects {β : Type} (spells : List Char → β → Prop) (fallback : β) :
    Option String → β → Prop
  | unset : Selects spells fallback none fallback
  | empty : Selects spells fallback (some "") fallback
  | spelled {value : String} {b : β} (h : spells value.toList b) :
      Selects spells fallback (some value) b

/-- A value is a word between blanks, up to the case of ASCII letters. -/
def Spells (word : String) (value : List Char) : Prop :=
  ∃ text, Padded isBlank text value ∧ text.map Char.toLower = word.toList.map Char.toLower

/-- A value is a word between blanks, up to the case of ASCII letters and to characters that
resemble them. -/
def Resembles (word : String) (value : List Char) : Prop :=
  ∃ text, Padded isBlank text value ∧
    (text.flatMap resembled).map Char.toLower = word.toList.map Char.toLower

/-- A value without characters that resemble others resembles only what it spells. -/
theorem resembles_iff_spells {word : String} {value : List Char}
    (h : ∀ c ∈ value, resembled c = [c]) : Resembles word value ↔ Spells word value := by
  have hsame {text : List Char} (hpadded : Padded isBlank text value) :
      text.flatMap resembled = text := by
    obtain ⟨front, back, rfl, -, -⟩ := hpadded
    have htext : ∀ c ∈ text, resembled c = [c] := fun c hc =>
      h c (List.mem_append_right _ (List.mem_append_left _ hc))
    rw [List.flatMap_congr htext, List.flatMap_singleton']
  constructor
  · rintro ⟨text, hpadded, heq⟩
    rw [hsame hpadded] at heq
    exact ⟨text, hpadded, heq⟩
  · rintro ⟨text, hpadded, heq⟩
    refine ⟨text, hpadded, ?_⟩
    rwa [hsame hpadded]

section

variable {word : String} (hword : ∀ c ∈ word.toList.map Char.toLower, isBlank c = false)
include hword

theorem resembles_iff_trim {value : List Char} : Resembles word value ↔
    ((trim isBlank value).flatMap resembled).map Char.toLower = word.toList.map Char.toLower := by
  refine Iff.symm (trim_iff (P := fun text => (text.flatMap resembled).map Char.toLower = _)
    fun text h c hc => ?_)
  by_contra hblank
  rw [Bool.not_eq_false] at hblank
  have hmem : c.toLower ∈ (text.flatMap resembled).map Char.toLower :=
    List.mem_map_of_mem (List.mem_flatMap.mpr
      ⟨c, hc, resembled_of_isBlank hblank ▸ List.mem_cons_self⟩)
  rw [h, toLower_of_isBlank hblank] at hmem
  rw [hword c hmem] at hblank
  cases hblank

theorem spells_iff_trim {value : List Char} : Spells word value ↔
    (trim isBlank value).map Char.toLower = word.toList.map Char.toLower := by
  refine Iff.symm (trim_iff (P := fun text => text.map Char.toLower = _) fun text h c hc => ?_)
  by_contra hblank
  rw [Bool.not_eq_false] at hblank
  have hmem := List.mem_map_of_mem (f := Char.toLower) hc
  rw [h, toLower_of_isBlank hblank] at hmem
  rw [hword c hmem] at hblank
  cases hblank

end

/-- The names of precisions are in ASCII capitals, without blanks. -/
theorem name_spelling (p : Precision) :
    (∀ c ∈ p.name.toList, c.toNat < 128) ∧ p.name.toList.map Char.toUpper = p.name.toList ∧
      ∀ c ∈ p.name.toList.map Char.toLower, isBlank c = false := by
  rw [← List.all_iff_forall_prop, ← List.all_iff_forall_prop]
  cases p <;> decide +kernel

/-- The words for actions are in small ASCII letters other than `k`, without blanks. -/
theorem word_spelling (a : ExceedAction) :
    (∀ c ∈ a.word.toList, c.toNat < 128 ∧ c ≠ 'k') ∧
      a.word.toList.map Char.toLower = a.word.toList ∧
      ∀ c ∈ a.word.toList.map Char.toLower, isBlank c = false := by
  rw [← List.all_iff_forall_prop, ← List.all_iff_forall_prop]
  cases a <;> decide +kernel

/-- Precisions are found by what their names resemble. -/
theorem precision_eq_ok_iff (value : String) (p : Precision) :
    precision value = .ok p ↔ Resembles p.name value.toList := by
  obtain ⟨hascii, hcapitals, hsolid⟩ := name_spelling p
  calc precision value = .ok p ↔ Precision.ofName? (capitals value) = some p := by
        unfold precision
        cases Precision.ofName? (capitals value) <;> simp
    _ ↔ upper (trim isBlank value.toList) = p.name.toList := by
        rw [Precision.ofName?_eq_some_iff, capitals, ← String.toList_inj, String.toList_ofList]
    _ ↔ ((trim isBlank value.toList).flatMap resembled).map Char.toLower =
          p.name.toList.map Char.toLower := by
        rw [upper_eq_iff hascii, ← map_toUpper_eq_iff, hcapitals]
    _ ↔ Resembles p.name value.toList := (resembles_iff_trim hsolid).symm

/-- Actions are found by what their words spell. -/
theorem onExceed_eq_ok_iff (value : String) (a : ExceedAction) :
    onExceed value = .ok a ↔ Spells a.word value.toList := by
  obtain ⟨hascii, hsmall, hsolid⟩ := word_spelling a
  calc onExceed value = .ok a ↔ ExceedAction.ofWord? (smallLetters value) = some a := by
        unfold onExceed
        cases ExceedAction.ofWord? (smallLetters value) <;> simp
    _ ↔ lower (trim isBlank value.toList) = a.word.toList := by
        rw [ExceedAction.ofWord?_eq_some_iff, smallLetters, ← String.toList_inj,
          String.toList_ofList]
    _ ↔ (trim isBlank value.toList).map Char.toLower = a.word.toList.map Char.toLower := by
        rw [lower_eq_iff hascii, hsmall]
    _ ↔ Spells a.word value.toList := (spells_iff_trim hsolid).symm

/-! ## Variables -/

section

variable {β : Type} {read : String → Except SettingsFault β} {spells : List Char → β → Prop}
  {text : String} {fallback : β} {setting : Option String}

/-- A variable is read as what it stands for, if values are read as what they spell and the
text for the default as the default. -/
theorem read_valueOr_iff (hread : ∀ value b, read value = .ok b ↔ spells value.toList b)
    (hfallback : read text = .ok fallback) (hempty : ∀ b, ¬ spells [] b) {b : β} :
    read (valueOr text setting) = .ok b ↔ Selects spells fallback setting b := by
  have hdefault : read text = .ok b ↔ b = fallback := by
    rw [hfallback, Except.ok.injEq, eq_comm]
  cases setting with
  | none =>
      rw [valueOr, hdefault]
      constructor
      · rintro rfl
        exact .unset
      · rintro ⟨⟩
        rfl
  | some value =>
      by_cases hvalue : value = ""
      · subst hvalue
        change read text = .ok b ↔ _
        rw [hdefault]
        constructor
        · rintro rfl
          exact .empty
        · intro h
          cases h with
          | empty => rfl
          | spelled h => exact absurd h (hempty b)
      · rw [valueOr, if_neg (by simpa using hvalue), hread]
        constructor
        · exact .spelled
        · intro h
          cases h with
          | empty => exact absurd rfl hvalue
          | spelled h => exact h

/-- A variable that stands for nothing is set to a value that is read as it is. -/
theorem exists_of_not_selects (h : ¬ ∃ b, Selects spells fallback setting b) (text : String) :
    ∃ value, setting = some value ∧ valueOr text setting = value := by
  cases setting with
  | none => exact absurd ⟨_, .unset⟩ h
  | some value =>
      by_cases hvalue : value = ""
      · subst hvalue
        exact absurd ⟨_, .empty⟩ h
      · exact ⟨value, rfl, if_neg (by simpa using hvalue)⟩

end

/-- What the variable for precisions stands for. -/
def SelectsPrecision : Option String → Precision → Prop :=
  Selects (fun value p => Resembles p.name value) .high

/-- What the variable for precisions stands for if words have to be spelled. -/
def NamesPrecision : Option String → Precision → Prop :=
  Selects (fun value p => Spells p.name value) .high

/-- What the variable for actions stands for. -/
def NamesAction : Option String → ExceedAction → Prop :=
  Selects (fun value a => Spells a.word value) .silent

theorem selectsPrecision_iff {setting : Option String} {p : Precision} :
    precision (valueOr "high" setting) = .ok p ↔ SelectsPrecision setting p := by
  refine read_valueOr_iff precision_eq_ok_iff (by decide +kernel) fun p => ?_
  rw [resembles_iff_trim (name_spelling p).2.2]
  cases p <;> decide +kernel

theorem namesAction_iff {setting : Option String} {a : ExceedAction} :
    onExceed (valueOr "silent" setting) = .ok a ↔ NamesAction setting a := by
  refine read_valueOr_iff onExceed_eq_ok_iff (by decide +kernel) fun a => ?_
  rw [spells_iff_trim (word_spelling a).2.2]
  cases a <;> decide +kernel

/-- Without characters that resemble others, precisions are named by their words alone. -/
theorem selectsPrecision_iff_names {setting : Option String}
    (h : ∀ value ∈ setting, ∀ c ∈ value.toList, resembled c = [c]) {p : Precision} :
    SelectsPrecision setting p ↔ NamesPrecision setting p := by
  constructor
  · intro hselects
    cases hselects with
    | unset => exact .unset
    | empty => exact .empty
    | spelled hspelled => exact .spelled ((resembles_iff_spells (h _ rfl)).mp hspelled)
  · intro hnames
    cases hnames with
    | unset => exact .unset
    | empty => exact .empty
    | spelled hspelled => exact .spelled ((resembles_iff_spells (h _ rfl)).mpr hspelled)

/-! ## Loading -/

/-- Settings load if each of the three variables stands for something. -/
theorem load_eq_ok_iff {env : Environment} {config : Compiler.Config} :
    load env = .ok config ↔ SelectsPrecision env.precision config.precision ∧
      NamesAction env.onExceed config.onExceed ∧ seed env.seed = .ok config.seed := by
  rw [← selectsPrecision_iff, ← namesAction_iff]
  unfold load
  simp only [Except.bind_eq_ok_iff]
  constructor
  · rintro ⟨p, hp, a, ha, s, hs, h⟩
    cases h
    exact ⟨hp, ha, hs⟩
  · rintro ⟨hp, ha, hs⟩
    exact ⟨_, hp, _, ha, _, hs, rfl⟩

/-- A precision that is refused is the first fault. -/
theorem load_of_not_selectsPrecision (env : Environment)
    (h : ¬ ∃ p, SelectsPrecision env.precision p) :
    ∃ value, env.precision = some value ∧ load env = .error (.unknownPrecision value) := by
  obtain ⟨value, hvalue, hread⟩ := exists_of_not_selects h "high"
  have hrefused : precision value = .error (.unknownPrecision value) := by
    rw [← hread]
    unfold precision
    cases hname : Precision.ofName? (capitals (valueOr "high" env.precision)) with
    | none => rfl
    | some p =>
        refine absurd ⟨p, selectsPrecision_iff.mp ?_⟩ h
        rw [precision, hname]
  refine ⟨value, hvalue, ?_⟩
  rw [load, hread, hrefused]
  rfl

/-- An action that is refused is the next fault. -/
theorem load_of_not_namesAction (env : Environment) {p : Precision}
    (hp : SelectsPrecision env.precision p) (h : ¬ ∃ a, NamesAction env.onExceed a) :
    ∃ value, env.onExceed = some value ∧ load env = .error (.unknownAction value) := by
  obtain ⟨value, hvalue, hread⟩ := exists_of_not_selects h "silent"
  have hrefused : onExceed value = .error (.unknownAction value) := by
    rw [← hread]
    unfold onExceed
    cases hword : ExceedAction.ofWord? (smallLetters (valueOr "silent" env.onExceed)) with
    | none => rfl
    | some a =>
        refine absurd ⟨a, namesAction_iff.mp ?_⟩ h
        rw [onExceed, hword]
  refine ⟨value, hvalue, ?_⟩
  rw [load, selectsPrecision_iff.mpr hp, hread, hrefused]
  rfl

/-- Without a seed, settings load exactly if the other two variables are unset, empty or words
between blanks in letters of either case, where the words for precisions need only be resembled,
and they load as the precision and the action meant. A value in which no character resembles
another has to spell a precision. Otherwise the settings are refused with the name of the
variable that is not understood, the precision first. -/
theorem loads_words (onExceed precision logLevel : Option String) :
    let load := load ⟨onExceed, precision, none, logLevel⟩
    (∀ config, load = .ok config ↔ SelectsPrecision precision config.precision ∧
        NamesAction onExceed config.onExceed ∧ config.seed = none) ∧
      ((∀ value ∈ precision, ∀ c ∈ value.toList, resembled c = [c]) →
        ∀ p, SelectsPrecision precision p ↔ NamesPrecision precision p) ∧
      ((¬ ∃ p, SelectsPrecision precision p) → ∃ value f, precision = some value ∧
        load = .error f ∧ f.message = "Unknown COMPLEX_MAPPING_PRECISION value: " ++ value) ∧
      ((∃ p, SelectsPrecision precision p) → (¬ ∃ a, NamesAction onExceed a) →
        ∃ value f, onExceed = some value ∧ load = .error f ∧
          f.message = "Unknown COMPLEX_MAPPING_ON_EXCEED value: " ++ value) := by
  intro load
  refine ⟨fun config => ?loads, fun hplain p => selectsPrecision_iff_names hplain,
    fun hnone => ?precision, fun ⟨p, hp⟩ hnone => ?action⟩
  case loads =>
    rw [load_eq_ok_iff, seed, Except.ok.injEq, eq_comm (a := none)]
  case precision =>
    obtain ⟨value, hvalue, hload⟩ :=
      load_of_not_selectsPrecision ⟨onExceed, precision, none, logLevel⟩ hnone
    exact ⟨value, _, hvalue, hload, rfl⟩
  case action =>
    obtain ⟨value, hvalue, hload⟩ :=
      load_of_not_namesAction ⟨onExceed, precision, none, logLevel⟩ hp hnone
    exact ⟨value, _, hvalue, hload, rfl⟩

/-- A dotless letter stands for a dotted one, and a ligature for two letters: what is not spelled
like any precision is taken for one. -/
theorem resembling_letters_load :
    load ⟨none, some "hıgh", none, none⟩ = .ok ⟨.high, .silent, none⟩ ∧
      load ⟨none, some "higheﬆ", none, none⟩ = .ok ⟨.highest, .silent, none⟩ ∧
      (¬ ∃ p, NamesPrecision (some "hıgh") p) ∧ (¬ ∃ p, NamesPrecision (some "higheﬆ") p) ∧
      ¬ ∀ onExceed precision : Option String,
        (∃ config, load ⟨onExceed, precision, none, none⟩ = .ok config) ↔
          (∃ p, NamesPrecision precision p) ∧ ∃ a, NamesAction onExceed a := by
  have hdotless : load ⟨none, some "hıgh", none, none⟩ = .ok ⟨.high, .silent, none⟩ := by
    decide +kernel
  have hnot {value : String} (hne : value ≠ "") (hvalue : ∀ p : Precision,
      (trim isBlank value.toList).map Char.toLower ≠ p.name.toList.map Char.toLower) :
      ¬ ∃ p, NamesPrecision (some value) p := by
    rintro ⟨p, hp⟩
    cases hp with
    | empty => exact hne rfl
    | spelled h => exact hvalue p ((spells_iff_trim (name_spelling p).2.2).mp h)
  have hunnamed : ¬ ∃ p, NamesPrecision (some "hıgh") p :=
    hnot (by decide) fun p => by cases p <;> decide +kernel
  refine ⟨hdotless, by decide +kernel, hunnamed,
    hnot (by decide) fun p => by cases p <;> decide +kernel, fun h => ?_⟩
  exact hunnamed ((h none (some "hıgh")).mp ⟨_, hdotless⟩).1

end Settings

end Easing
