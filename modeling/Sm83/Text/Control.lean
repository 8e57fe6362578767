/-!
# Control sequences

A control sequence styles the text on a terminal or moves its cursor: an escape character, a
bracket, parameters, and a letter that says what is to be done. A text that does not go to a
terminal is printed without them.
-/

namespace Sm83.Text

/-- A character of the parameters of a control sequence. -/
def isParameter (c : Char) : Bool :=
  c = ';' || c = '?' || c.isDigit

/-- The number of characters of the control sequence that characters start with. -/
def controlLength? : List Char → Option Nat
  | '\x1b' :: '[' :: rest =>
    match rest.dropWhile isParameter with
    | c :: _ => if c.isAlpha then some ((rest.takeWhile isParameter).length + 3) else none
    | [] => none
  | _ => none

/-- What is left after some characters, without the control sequences in it. -/
def withoutControls : Nat → List Char → List Char
  | _, [] => []
  | skipped + 1, _ :: rest => withoutControls skipped rest
  | 0, c :: rest =>
    match controlLength? (c :: rest) with
    | some n => withoutControls (n - 1) rest
    | none => c :: withoutControls 0 rest

/-- Text without its control sequences. What becomes one only by the removal of another stays. -/
def uncontrolled (s : String) : String :=
  String.ofList (withoutControls 0 s.toList)

end Sm83.Text
