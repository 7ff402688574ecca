import Easing.Compiler
import Easing.Proofs.Definition.Replay
import Easing.Proofs.Number.Text

/-! # Definitions that are read again

An expression prints the arguments as they were written, so its definition can
stand in for the text it was read from: it reads as the same expression, draws
the same break points and compiles to the same link. What the text was warned
about is no longer in it.
-/

namespace Easing

variable {α : Type} [Scalar α] [Numeral α] {text : String} {e : Expression α} {g g' : Generator}
  {notices : List (Notice α)}

/-- Compiling a text that can be read makes the link of its expression. -/
theorem Compiler.Config.compile_of_parse (config : Compiler.Config) (requested : Option Precision)
    (h : Expression.parse text g = (⟨notices, .ok e⟩, g')) :
    config.compile text requested g =
      (⟨notices ++ (config.link e requested).notices, (config.link e requested).result⟩, g') := by
  unfold Compiler.Config.compile
  rw [Build.bind_apply_ok h]
  rfl

namespace Expression

/-- The definition of an expression is in normal form and reads as the same
expression, from the same draws and without a notice. Both texts compile to the
same link, whatever precision is asked for. -/
theorem definition_round_trip {text : String} {e : Expression Float} {g g' : Generator}
    {notices : List (Notice Float)} (h : parse text g = (⟨notices, .ok e⟩, g')) :
    Definition.normalize e.definition.toList = e.definition.toList ∧
      parse e.definition g = (⟨[], .ok e⟩, g') ∧
      ∀ (config : Compiler.Config) (requested : Option Precision),
        config.compile text requested g =
            (⟨notices ++ (config.link e requested).notices, (config.link e requested).result⟩,
              g') ∧
          config.compile e.definition requested g = (config.link e requested, g') := by
  obtain ⟨hnormal, hagain⟩ := parse_definition h
  refine ⟨hnormal, hagain, fun config requested => ⟨?_, ?_⟩⟩
  · exact config.compile_of_parse requested h
  · have hcompile := config.compile_of_parse requested hagain
    rwa [List.nil_append] at hcompile

/-- Capitals, a surplus argument, doubled separators, random break points and an
undefined weight. -/
theorem definition_round_trip_surplus :
    ∃ (e : Expression Float) (notices : List (Notice Float)) (g' : Generator),
      parse " Inward 0.1, 7 >> random 3 && exp 1e-7 > weight nan\t" (.ofSeed 0) =
          (⟨notices, .ok e⟩, g') ∧
        notices.length = 1 ∧
        e.definition = "inward 0.1 > random 3.0 & exp 1e-07 > weight nan" ∧
        parse e.definition (.ofSeed 0) = (⟨[], .ok e⟩, g') := by
  have heval : ((parse " Inward 0.1, 7 >> random 3 && exp 1e-7 > weight nan\t"
      (.ofSeed 0)).1.result.toOption.map (definition (α := Float)),
      (parse (α := Float) " Inward 0.1, 7 >> random 3 && exp 1e-7 > weight nan\t"
        (.ofSeed 0)).1.notices.length) =
      (some "inward 0.1 > random 3.0 & exp 1e-07 > weight nan", 1) := by
    decide +kernel
  rcases h : parse (α := Float) " Inward 0.1, 7 >> random 3 && exp 1e-7 > weight nan\t"
      (.ofSeed 0) with ⟨⟨notices, f | e⟩, g'⟩
  · rw [h] at heval
    cases heval
  · rw [h] at heval
    obtain ⟨hdefinition, hlength⟩ := Prod.mk.inj heval
    exact ⟨e, notices, g', rfl, hlength, Option.some.inj hdefinition,
      (definition_round_trip h).2.1⟩

end Expression

end Easing
