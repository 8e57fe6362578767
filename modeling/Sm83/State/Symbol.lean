import Sm83.Expr.Eval
import Sm83.Location

/-!
# Symbols

Names with a value. Labels stand for places, constants and variables for numbers, and text symbols
for texts. Only a variable can be given another value.
-/

namespace Sm83

/-- How a symbol was defined. -/
inductive SymbolKind where
  | label
  | equ
  | set
  | equs
  deriving DecidableEq, Repr

def SymbolKind.name : SymbolKind → String
  | label => "LABEL"
  | equ => "EQU"
  | set => "SET"
  | equs => "EQUS"

/-- A symbol. The value of a label is its offset in its section. -/
structure Symbol where
  name : String
  kind : SymbolKind
  value : Value
  exported : Bool
  placed : Option String
  location : Option Location
  deriving DecidableEq, Repr

/-- The name belongs to a global label. -/
def isLocalName (name : String) : Bool :=
  name.toList.contains '.'

end Sm83
