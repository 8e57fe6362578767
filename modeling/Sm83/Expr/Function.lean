/-!
# Built-in functions

The functions an expression may call and the number of arguments each takes.
-/

namespace Sm83

/-- A function of expressions. A name that is no built-in is kept as `other` and never evaluates. -/
inductive Function where
  | high | low | bank | isConst | defined
  | round | ceil | floor | div | mul
  | sin | cos | tan | asin | acos | atan | atan2
  | strcmp | strin | strsub | strlen | strcat | strupr | strlwr
  | other (name : String)
  deriving DecidableEq, Repr

namespace Function

def builtin : List Function := [
  high, low, bank, isConst, defined,
  round, ceil, floor, div, mul,
  sin, cos, tan, asin, acos, atan, atan2,
  strcmp, strin, strsub, strlen, strcat, strupr, strlwr]

def word : Function → String
  | high => "high" | low => "low" | bank => "bank" | isConst => "isconst" | defined => "def"
  | round => "round" | ceil => "ceil" | floor => "floor" | div => "div" | mul => "mul"
  | sin => "sin" | cos => "cos" | tan => "tan" | asin => "asin" | acos => "acos" | atan => "atan"
  | atan2 => "atan2"
  | strcmp => "strcmp" | strin => "strin" | strsub => "strsub" | strlen => "strlen"
  | strcat => "strcat" | strupr => "strupr" | strlwr => "strlwr"
  | other name => name

/-- The built-in function a lower-case word spells. -/
def ofWord? (w : String) : Option Function :=
  builtin.find? fun f => f.word == w

def ofName (name : String) : Function :=
  (ofWord? name).getD (other name)

/-- The least and the greatest number of arguments. -/
def arity : Function → Nat × Nat
  | div | mul | atan2 | strcmp | strin => (2, 2)
  | strsub => (3, 3)
  | strcat => (1, 255)
  | _ => (1, 1)

/-- A number of arguments the function takes. -/
def accepts (f : Function) (count : Nat) : Bool :=
  f.arity.1 ≤ count && count ≤ f.arity.2

def yieldsText : Function → Bool
  | strsub | strcat | strupr | strlwr => true
  | _ => false

end Function

end Sm83
