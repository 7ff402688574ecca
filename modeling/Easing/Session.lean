import Easing.Compiler
import Easing.Mapping.Report

/-! # Sessions

A session is a compiler and the mappings made so far, each under a name. Every
action is answered, and an action that fails leaves all mappings as they were;
only the generators of the compilers may have moved on.
-/

namespace Easing

/-- Which compiler makes a mapping and, later, its targets. -/
inductive Maker where
  /-- The compiler that the session was configured with. -/
  | own
  /-- A compiler that was told nothing. -/
  | standard
deriving DecidableEq, Repr

/-- A mapping under a name. -/
structure Session.Entry (α : Type) where
  name : String
  maker : Maker
  mapping : Mapping α

/-- Compilers and named mappings. -/
structure Session (α : Type) where
  own : Compiler
  standard : Compiler
  /-- The mappings, each name once. -/
  entries : List (Session.Entry α)

/-- A named mapping or the target a number of links behind it. -/
structure Place where
  name : String
  depth : Nat
deriving DecidableEq, Repr

/-- Questions to a mapping, which change nothing. -/
inductive Query (α : Type) where
  | mapping
  /-- The value at a number, blended if there is a ratio. -/
  | map (x : α) (ratio : Option α)
  /-- The values at several numbers, or why there is none. -/
  | maps (xs : List α) (ratio : Option α)
  /-- The values of the expression itself at several numbers. -/
  | evaluate (xs : List α)
  /-- The values at points across the input range. -/
  | tabulate (samples : Int)
  | deviation (samples : Int)
  /-- Repeated evaluation. -/
  | exercise (iterations : Int)

/-- Changes of a mapping. -/
inductive Change (α : Type) where
  | setRange (domain : Domain α) (repeats : Option RepeatPolicy)
  | setBlendRange (start stop : α)
  | setTarget (definition : String) (precision : Option Precision)

/-- What can be asked of a session. -/
inductive Action (α : Type) where
  | compile (maker : Maker) (name : String) (definition : String) (precision : Option Precision)
  | build (name : String) (request : Request α)
  /-- Reads a definition and makes nothing of it. -/
  | parse (definition : String)
  | query (place : Place) (query : Query α)
  | change (place : Place) (change : Change α)

/-- The answers of a session. -/
inductive Answer (α : Type) where
  | mapping (m : Mapping α)
  | definition (text : String)
  | number (y : α)
  /-- A number or a fault for each number asked about. -/
  | numbers (ys : List (Except (Fault α) α))
  | tabulation (t : Tabulation α)
  | deviation (d : Deviation α)
  /-- How often a mapping was evaluated, and whether its target was too. -/
  | exercised (iterations : Int) (target : Bool)

variable {α : Type} [Scalar α] [Numeral α]

/-- The answer to a question. A fault at one of several numbers does not keep
the others from being answered. -/
def Query.answer (m : Mapping α) : Query α → Outcome α (Answer α)
  | mapping => return .mapping m
  | map x ratio => .number <$> m.map x ratio
  | maps xs ratio =>
    let outcomes := xs.map fun x => m.map x ratio
    ⟨outcomes.flatMap Outcome.notices, .ok (.numbers (outcomes.map Outcome.result))⟩
  | evaluate xs =>
    return .numbers (xs.map fun x => (m.head.expression.eval x).mapError Fault.evaluation)
  | tabulate samples => .tabulation <$> m.tabulate samples
  | deviation samples => .deviation <$> m.deviation samples
  | exercise iterations => .exercised iterations <$> m.exercise iterations

namespace Session

/-- The session of a compiler, without mappings. -/
def start (own standard : Compiler) : Session α := ⟨own, standard, []⟩

def compiler (s : Session α) : Maker → Compiler
  | .own => s.own
  | .standard => s.standard

/-- Runs an operation on the generator of a compiler. -/
def run {β : Type} (s : Session α) (maker : Maker) (operation : Build α β) :
    Outcome α β × Session α :=
  let (outcome, compiler) := (s.compiler maker).run operation
  match maker with
  | .own => (outcome, { s with own := compiler })
  | .standard => (outcome, { s with standard := compiler })

def entry? (s : Session α) (name : String) : Option (Entry α) :=
  s.entries.find? (·.name == name)

/-- Puts a mapping under a name, in the place of an earlier one. -/
def put (s : Session α) (entry : Entry α) : Session α :=
  if s.entries.any (·.name == entry.name) then
    { s with entries := s.entries.map fun e => if e.name == entry.name then entry else e }
  else { s with entries := s.entries ++ [entry] }

/-- Puts the mapping of an outcome under a name, if it has one, and answers with
what was made or changed. -/
def keep (s : Session α) (outcome : Outcome α (Mapping α))
    (entry : Mapping α → Entry α) : Outcome α (Answer α) × Session α :=
  match outcome with
  | ⟨notices, .ok m⟩ => (⟨notices, .ok (.mapping m)⟩, s.put (entry m))
  | ⟨notices, .error f⟩ => (⟨notices, .error f⟩, s)

/-- Changes a mapping, drawing from the generator of its maker. -/
def changed (s : Session α) (maker : Maker) (m : Mapping α) :
    Change α → Outcome α (Mapping α) × Session α
  | .setRange domain repeats => (.ofResult (m.setRange domain repeats), s)
  | .setBlendRange start stop => (.ofResult (m.setBlendRange start stop), s)
  | .setTarget definition precision =>
    s.run maker ((s.compiler maker).config.attach m definition precision)

/-- The entry at a place and the mapping there. -/
def find? (s : Session α) (place : Place) : Option (Entry α × Mapping α) := do
  let entry ← s.entry? place.name
  let m ← entry.mapping.atDepth? place.depth
  return (entry, m)

def act (s : Session α) : Action α → Outcome α (Answer α) × Session α
  | .compile maker name definition precision =>
    let (link, s) := s.run maker ((s.compiler maker).config.compile definition precision)
    s.keep ((⟨·, []⟩) <$> link) (⟨name, maker, ·⟩)
  | .build name request =>
    let (m, s) := s.run .own (s.own.config.build request)
    s.keep m (⟨name, .own, ·⟩)
  | .parse definition =>
    let (expression, s) := s.run .own (Expression.parse definition)
    (.definition <$> Expression.definition <$> expression, s)
  | .query place query =>
    match s.find? place with
    | none => (.fault (.noSuchMapping place.name place.depth), s)
    | some (_, m) => (query.answer m, s)
  | .change place change =>
    match s.find? place with
    | none => (.fault (.noSuchMapping place.name place.depth), s)
    | some (entry, m) =>
      let (outcome, s) := s.changed entry.maker m change
      s.keep outcome fun m =>
        { entry with mapping := Mapping.replaceAt m place.depth entry.mapping }

end Session

end Easing
