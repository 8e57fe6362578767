import Sm83.Error.Basic

/-!
# Source texts

A named text with its line ends made uniform, together with its lines for error messages.
-/

namespace Sm83

/-- Characters with every line end, in any of the three conventions, written as one newline. -/
def uniformLineEnds : List Char → List Char
  | '\r' :: '\n' :: rest => '\n' :: uniformLineEnds rest
  | '\r' :: rest => '\n' :: uniformLineEnds rest
  | c :: rest => c :: uniformLineEnds rest
  | [] => []

/-- The lines of a text: what stands between its newlines, at least one. -/
def splitLines (cs : List Char) : List (List Char) :=
  cs.foldr (fun c lines =>
    if c = '\n' then [] :: lines
    else match lines with
      | line :: rest => (c :: line) :: rest
      | [] => [[c]]) [[]]

/-- A named text with uniform line ends. -/
structure Source where
  file : String
  text : List Char
  lines : List String
  deriving DecidableEq, Repr

namespace Source

def ofText (text file : String) : Source :=
  let chars := uniformLineEnds text.toList
  ⟨file, chars, (splitLines chars).map String.ofList⟩

/-- The text of a line, counted from one. -/
def line? (s : Source) (n : Int) : Option String :=
  if 1 ≤ n then s.lines[(n - 1).toNat]? else none

def locate (s : Source) (t : Token) : Location :=
  t.location s.file

/-- An error at a place of the source, with the text of its line. -/
def errorAt (s : Source) (line column : Nat) (cause : Cause) : Failure :=
  .error ⟨cause, some ⟨s.file, line, column⟩, s.line? line⟩

end Source

end Sm83
