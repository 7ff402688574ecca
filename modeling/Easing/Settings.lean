import Easing.Compiler

/-! # Settings

Four environment variables configure a program. An unset or empty variable
stands for a default; blanks around a value and the case of its letters do not
matter.
-/

namespace Easing

/-- The values of the variables, as far as they are set. -/
structure Environment where
  /-- What ranges do about numbers outside them. -/
  onExceed : Option String
  precision : Option String
  seed : Option String
  logLevel : Option String
deriving DecidableEq, Repr

/-- Why settings are refused. -/
inductive SettingsFault where
  | unknownAction (value : String)
  | unknownPrecision (value : String)
  | seedNotInteger (value : String)
  | unknownLogLevel (name : String)
deriving DecidableEq, Repr

def SettingsFault.message : SettingsFault → String
  | unknownAction value => "Unknown COMPLEX_MAPPING_ON_EXCEED value: " ++ value
  | unknownPrecision value => "Unknown COMPLEX_MAPPING_PRECISION value: " ++ value
  | seedNotInteger value => "COMPLEX_MAPPING_SEED must be an integer, got: " ++ value
  | unknownLogLevel name => "Unknown COMPLEX_MAPPING_LOG_LEVEL value: " ++ name

namespace Settings

open Text

/-- The value of a variable, or a default if it is unset or empty. -/
def valueOr (fallback : String) : Option String → String
  | none => fallback
  | some value => if value.isEmpty then fallback else value

def capitals (value : String) : String := String.ofList (upper (trim isBlank value.toList))

def smallLetters (value : String) : String := String.ofList (lower (trim isBlank value.toList))

def precision (value : String) : Except SettingsFault Precision :=
  match Precision.ofName? (capitals value) with
  | some precision => .ok precision
  | none => .error (.unknownPrecision value)

def onExceed (value : String) : Except SettingsFault ExceedAction :=
  match ExceedAction.ofWord? (smallLetters value) with
  | some action => .ok action
  | none => .error (.unknownAction value)

/-- Reads a seed; a blank value is no seed. -/
def seed : Option String → Except SettingsFault (Option Int)
  | none => .ok none
  | some value =>
    if value.toList.all isBlank then .ok none
    else
      match Spelling.integer? value.toList with
      | some seed => .ok (some seed)
      | none => .error (.seedNotInteger value)

/-- The configuration of a compiler. -/
def load (env : Environment) : Except SettingsFault Compiler.Config := do
  let precision ← precision (valueOr "high" env.precision)
  let onExceed ← onExceed (valueOr "silent" env.onExceed)
  let seed ← seed env.seed
  return ⟨precision, onExceed, seed⟩

/-- The numbers of the log levels. -/
def logLevels : List (String × Nat) :=
  [("CRITICAL", 50), ("FATAL", 50), ("ERROR", 40), ("WARN", 30), ("WARNING", 30), ("INFO", 20),
    ("DEBUG", 10), ("NOTSET", 0)]

def logLevel (env : Environment) : Except SettingsFault Nat :=
  let name := capitals (valueOr "INFO" env.logLevel)
  match logLevels.lookup name with
  | some level => .ok level
  | none => .error (.unknownLogLevel name)

/-- How a program logs. -/
structure Logging where
  name : String
  level : Int
  /-- The layout of a line. -/
  format : String
deriving DecidableEq, Repr

/-- The layout of a line: time, level, logger and message. -/
def lineFormat : String := "%(asctime)s - %(levelname)s - %(name)s - %(message)s"

/-- Sets up logging at a level, or else at the level of the environment. -/
def logging (env : Environment) : Option Int → Except SettingsFault Logging
  | some level => return ⟨"complex_mapping", level, lineFormat⟩
  | none => return ⟨"complex_mapping", ← logLevel env, lineFormat⟩

end Settings

end Easing
