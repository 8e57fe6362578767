/-!
# Source locations

A place in a named source text, counted in lines and columns from one.
-/

namespace Sm83

/-- A place in a named source text. -/
structure Location where
  file : String
  line : Int
  column : Int
  deriving DecidableEq, Repr

/-- `file:line:column`. -/
def Location.render (l : Location) : String :=
  l.file ++ ":" ++ toString l.line ++ ":" ++ toString l.column

end Sm83
