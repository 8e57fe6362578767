import Sm83.Text.Blank
import Sm83.Text.Numeral

/-!
# Definitions from outside

A symbol can be given to the assembler together with its value, as `NAME` or `NAME=VALUE`.
-/

namespace Sm83

/-- A symbol and its value. -/
structure Definition where
  name : String
  value : Int
  deriving DecidableEq, Repr

/-- What is wrong with a definition. -/
inductive DefinitionFault where
  | noName (text : String)
  | badValue (text : String)
  deriving DecidableEq, Repr

def DefinitionFault.message : DefinitionFault → String
  | noName text => "missing symbol name in '" ++ text ++ "'"
  | badValue text => "invalid value in '" ++ text ++ "'"

namespace Definition

/-- The value of a text: hexadecimal after `$` or `0x`, binary after `%`, and else decimal. -/
def value? : List Char → Option Int
  | '$' :: digits => Text.integer? 16 digits
  | '0' :: 'x' :: digits => Text.integer? 16 digits
  | '0' :: 'X' :: digits => Text.integer? 16 digits
  | '%' :: digits => Text.integer? 2 digits
  | digits => Text.integer? 10 digits

/-- Reads a definition. A name alone has the value one. -/
def read (text : String) : Except DefinitionFault Definition :=
  let cs := text.toList
  let name := String.ofList (Text.trimmed (cs.takeWhile (· ≠ '=')))
  if name.isEmpty then .error (.noName text)
  else match cs.dropWhile (· ≠ '=') with
    | [] => .ok ⟨name, 1⟩
    | _ :: digits =>
      match value? (Text.trimmed digits) with
      | some value => .ok ⟨name, value⟩
      | none => .error (.badValue text)

end Definition

end Sm83
