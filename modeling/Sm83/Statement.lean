import Sm83.Directive
import Sm83.Mnemonic
import Sm83.Operand
import Sm83.Record
import Sm83.State.Symbol

/-!
# Statements

What the lines of a source say. Each statement keeps the place of the word that started it.
-/

namespace Sm83

/-- What happens when an assertion turns out false. -/
inductive Gravity where
  | warn
  | fail
  | fatal
  deriving DecidableEq, Repr

namespace Gravity

def word : Gravity → String
  | warn => "warn"
  | fail => "fail"
  | fatal => "fatal"

/-- The gravity a lower-case word spells. -/
def ofWord? (w : String) : Option Gravity :=
  [warn, fail, fatal].find? fun g => g.word == w

end Gravity

/-- A condition that must hold. A static one must be known to hold when it is read. -/
structure Assertion where
  gravity : Gravity
  condition : Expr
  message : Option String
  isStatic : Bool
  deriving DecidableEq, Repr

/-- An argument of a directive: an expression, or a text or name taken as it stands. -/
inductive Argument where
  | expr (e : Expr)
  | word (s : String)
  deriving DecidableEq, Repr

/-- What a statement says. Offsets count from the start of the section a statement was placed in. -/
inductive Form where
  | label (name : String) (exported : Bool) (value : Value) (placed : Option String)
  | instruction (mnemonic : Mnemonic) (operands : List Operand) (record : Record) (offset : Int)
      (placed : Option String)
  | symbol (name : String) (kind : SymbolKind) (value : Value) (definer : Definer)
  | placement (block : Section)
  | data (directive : Directive) (values : List Expr) (size : Int)
  | assertion (a : Assertion)
  | macroBody (name : String) (body : String)
  | macroCall (name : String) (args : List String)
  | repetition (count : Expr) (body : String)
  | conditional (kind : Directive) (condition : Option Expr)
  | directive (d : Directive) (args : List Argument)
  deriving DecidableEq, Repr

/-- A statement and its place. -/
structure Statement where
  location : Location
  form : Form
  deriving DecidableEq, Repr

end Sm83
