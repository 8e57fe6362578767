import Sm83.Run.Basic

/-!
# What an assembly leaves behind

The values of the symbols, a table of them, and a listing of the instructions.
-/

namespace Sm83

namespace State

/-- The value of a symbol; a label whose address is open stands for its offset. -/
def shownValue (s : State) (symbol : Symbol) : Value :=
  (s.valueOf symbol).getD symbol.value

/-- All names with their values, sorted by name. -/
def shownValues (s : State) : List (String × Value) :=
  s.sortedSymbols.map fun symbol => (symbol.name, s.shownValue symbol)

/-- A value as the symbol table shows it. An offset has a plus sign before it. -/
def tableValue (s : State) (symbol : Symbol) : String :=
  match symbol.value, s.valueOf symbol with
  | .text t, _ => "\"" ++ t ++ "\""
  | .number offset, none => "+$" ++ Text.signedHex 4 offset
  | .number _, some (.number v) => "$" ++ Text.hex 4 (Word.unsigned v)
  | .number _, some (.text t) => "\"" ++ t ++ "\""

def tableLine (s : State) (symbol : Symbol) : String :=
  Text.padRight 24 symbol.name ++ " " ++ Text.padRight 5 symbol.kind.name ++ " "
    ++ s.tableValue symbol
    ++ (match symbol.placed with
      | some name => if name.isEmpty then "" else " \"" ++ name ++ "\""
      | none => "")
    ++ (if symbol.exported then " exported" else "")

def symbolTable (s : State) : String :=
  Text.join "\n" (["; Symbol table", "; Generated by gbasm"] ++ s.sortedSymbols.map s.tableLine)
    ++ "\n"

end State

/-! ## Listing -/

def listedSection : Option String → String
  | some name => if name.isEmpty then "-" else String.ofList (name.toList.take 16)
  | none => "-"

def sourceForm (m : Mnemonic) (operands : List Operand) : String :=
  if operands.isEmpty then m.word else m.word ++ " " ++ Operand.renderAll operands

/-- The line of a listing for a statement; only instructions have one. -/
def Statement.listingLine? (statement : Statement) : Option String :=
  match statement.form with
  | .instruction m operands record offset placed =>
    some (Text.padRight 16 (listedSection placed) ++ " " ++ Text.signedHex 4 offset ++ "    "
      ++ Text.padRight 24 record.code ++ " " ++ sourceForm m operands)
  | _ => none

/-- A line made of one character. -/
def ruler (c : Char) : String :=
  String.ofList (List.replicate 72 c)

def listingHead : List String := [
  "gbasm Listing",
  ruler '=',
  "",
  Text.padRight 16 "Section" ++ " " ++ Text.padRight 6 "Offset" ++ "  " ++ Text.padRight 24 "Code"
    ++ " Source",
  ruler '-']

def listing (statements : List Statement) : String :=
  Text.join "\n" (listingHead ++ statements.filterMap Statement.listingLine?) ++ "\n"

end Sm83
