import Easing.Mapping.Domain

/-! # Compilers

A compiler turns definitions into mappings. It owns the generator from which
all its definitions draw, in the order in which they are read, so equal seeds
and equal texts give equal mappings.
-/

namespace Easing

/-- What a compiler is told at the start. -/
structure Compiler.Config where
  /-- The precision of expressions that are not fast to evaluate. -/
  precision : Precision
  /-- What ranges do about numbers outside them. -/
  onExceed : ExceedAction
  seed : Option Int
deriving DecidableEq, Repr

structure Compiler where
  config : Compiler.Config
  generator : Generator
deriving DecidableEq, Repr

/-- A mapping to be built in one go. -/
structure Request (α : Type) where
  definition : String
  precision : Option Precision
  domain : Domain α
  inputRepeat : RepeatPolicy
  /-- The definition of the target, if there is to be one. -/
  target : Option String
  targetPrecision : Option Precision

namespace Compiler

/-- The compiler of a configuration. Without a seed it draws from the generator
that is given. -/
def make (config : Config) (unseeded : Generator := .ofSeed 0) : Except SeedFault Compiler := do
  return ⟨config, ← Generator.make config.seed unseeded⟩

/-- Runs an operation on the generator of a compiler. -/
def run {α β : Type} (compiler : Compiler) (operation : Build α β) : Outcome α β × Compiler :=
  let (outcome, generator) := operation compiler.generator
  (outcome, { compiler with generator := generator })

namespace Config

/-- What a compiler is told by default. -/
def standard : Config := ⟨.high, .silent, none⟩

variable {α : Type} [Scalar α] [Numeral α]

/-- The link of an expression, at the precision asked for or else the one that
suits the expression. -/
def link (config : Config) (expression : Expression α) (requested : Option Precision) :
    Outcome α (Link α) := do
  let precision := expression.selectPrecision requested config.precision
  .notify (.compiled expression.definition expression.stepCount expression.cheapStepCount precision)
  Link.make expression precision config.onExceed

/-- Reads a definition and makes a link of it. -/
def compile (config : Config) (text : String) (requested : Option Precision) :
    Build α (Link α) := do
  let expression ← Expression.parse text
  Build.ofOutcome (config.link expression requested)

def attach (config : Config) (m : Mapping α) (text : String) (requested : Option Precision) :
    Build α (Mapping α) := do
  return m.withTarget (← config.compile text requested)

/-- Builds a mapping: the curve, then its ranges, then its target. -/
def build (config : Config) (request : Request α) : Build α (Mapping α) := do
  let head ← config.compile request.definition request.precision
  let m ← Build.ofOutcome
    (.ofResult (Mapping.setRange ⟨head, []⟩ request.domain (some request.inputRepeat)))
  match request.target with
  | none => return m
  | some text => config.attach m text request.targetPrecision

end Config

end Compiler

end Easing
