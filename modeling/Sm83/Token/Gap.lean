import Sm83.Token.Cursor

/-!
# Gaps

What may stand between two tokens: blanks, comments, and continuations, which join a line to the
next. A comment runs from a semicolon, or from an asterisk with only blanks before it on the line,
to the end of the line. A continuation is a backslash, blanks, possibly a comment, and the line end.
-/

namespace Sm83

def restOfLine (cs : List Char) : List Char :=
  cs.takeWhile (· ≠ '\n')

/-- The number of characters after a backslash, the newline included, that make it a continuation.
-/
def continuation? (cs : List Char) : Option Nat :=
  let blanks := (cs.takeWhile isBlank).length
  match cs.drop blanks with
  | '\n' :: _ => some (blanks + 1)
  | ';' :: rest =>
    let comment := 1 + (restOfLine rest).length
    match rest.drop (restOfLine rest).length with
    | '\n' :: _ => some (blanks + comment + 1)
    | _ => none
  | _ => none

/-- A gap: its length, and whether it ends at a backslash that continues nothing. -/
structure Gap where
  length : Nat
  stray : Bool
  deriving DecidableEq, Repr

/-- A gap with one more character in front. -/
def Gap.succ (g : Gap) : Gap :=
  { g with length := g.length + 1 }

/-- The gap at the head of a text, of which the first `pending` characters belong to a continuation
already seen. An asterisk starts a comment only on a fresh line. -/
def gap : (pending : Nat) → (fresh : Bool) → List Char → Gap
  | _, _, [] => ⟨0, false⟩
  | k + 1, fresh, _ :: rest => (gap k fresh rest).succ
  | 0, fresh, c :: rest =>
    if isBlank c then (gap 0 fresh rest).succ
    else if c = ';' || (c = '*' && fresh) then ⟨1 + (restOfLine rest).length, false⟩
    else if c = '\\' then
      match continuation? rest with
      | some k => (gap k false rest).succ
      | none => ⟨0, true⟩
    else ⟨0, false⟩

end Sm83
