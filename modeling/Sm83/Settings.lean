import Sm83.Table
import Sm83.Text.Blank
import Sm83.Text.Case
import Sm83.Text.Numeral

/-!
# Settings

How a source is to be assembled: the symbols defined before its first line, what is exported, how
diagnostics count, and what is logged. Variables of the environment can change the settings; a value
that makes no sense is passed over.
-/

namespace Sm83

/-- How to assemble. -/
structure Settings where
  defines : Table Int
  exportAll : Bool
  maxErrors : Int
  warningsAsErrors : Bool
  logLevel : String
  deriving DecidableEq, Repr

namespace Settings

/-- The settings when nothing is asked for. -/
def standard : Settings :=
  ⟨.empty, false, 100, false, "WARNING"⟩

/-- Adds a symbol to be defined before the first line. -/
def define (s : Settings) (name : String) (value : Int) : Settings :=
  { s with defines := s.defines.insert name value }

/-! ## Levels -/

/-- The names of log levels with their ranks. -/
def levels : List (String × Int) := [
  ("CRITICAL", 50), ("FATAL", 50), ("ERROR", 40), ("WARN", 30), ("WARNING", 30), ("INFO", 20),
  ("DEBUG", 10), ("NOTSET", 0)]

def rank? (level : String) : Option Int :=
  (levels.find? fun e => e.1 == Text.upper level).map Prod.snd

/-- The rank that events must reach to be logged. -/
def logRank (s : Settings) : Int :=
  (rank? s.logLevel).getD 30

/-! ## Environment -/

/-- The variables of the environment that matter. -/
def environmentNames : List String :=
  ["GBASM_MAX_ERRORS", "GBASM_WARNINGS_AS_ERRORS", "GBASM_EXPORT_ALL", "GBASM_LOG_LEVEL"]

/-- The value of a variable that is set to something. -/
def nonempty? (env : String → Option String) (name : String) : Option String :=
  (env name).filter fun value => !value.isEmpty

def isYes (text : String) : Bool :=
  ["1", "true", "yes", "on"].contains (Text.lower (Text.trim text))

def ofEnvironment (env : String → Option String) : Settings :=
  let value := nonempty? env
  { standard with
    maxErrors :=
      ((value "GBASM_MAX_ERRORS").bind fun t => Text.integer? 10 t.toList).getD standard.maxErrors
    warningsAsErrors := (value "GBASM_WARNINGS_AS_ERRORS").any isYes
    exportAll := (value "GBASM_EXPORT_ALL").any isYes
    logLevel :=
      (((value "GBASM_LOG_LEVEL").filter fun t => (rank? t).isSome).map Text.upper).getD
        standard.logLevel }

end Settings

end Sm83
