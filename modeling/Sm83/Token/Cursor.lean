import Sm83.Token.Source

/-!
# Cursors

A cursor is a place in a text with what is left to read from there. Everything about its place
follows from the characters it has passed.
-/

namespace Sm83

/-- A blank separates tokens within a line. -/
def isBlank (c : Char) : Bool :=
  c = ' ' || c = '\t'

/-- A place in a text. `fresh` says that only blanks stand before it on its line. -/
structure Cursor where
  rest : List Char
  line : Nat
  column : Nat
  fresh : Bool
  deriving DecidableEq, Repr

namespace Cursor

def start (text : List Char) : Cursor :=
  ⟨text, 1, 1, true⟩

/-- The place after one more character. -/
def step (c : Cursor) : Cursor :=
  match c.rest with
  | [] => c
  | ch :: rest =>
    if ch = '\n' then ⟨rest, c.line + 1, 1, true⟩
    else ⟨rest, c.line, c.column + 1, c.fresh && isBlank ch⟩

/-- The place after a number of characters, or the end of the text. -/
def skip : Nat → Cursor → Cursor
  | 0, c => c
  | n + 1, c => skip n c.step

/-- What is left after a number of characters. -/
@[simp] theorem rest_skip (n : Nat) (c : Cursor) : (c.skip n).rest = c.rest.drop n := by
  induction n generalizing c with
  | zero => rfl
  | succ n ih =>
    rw [skip, ih]
    cases h : c.rest with
    | nil => simp [step, h]
    | cons ch rest =>
      by_cases hn : ch = '\n' <;> simp [step, h, hn]

/-- Two steps of skipping make one. -/
theorem skip_skip (m n : Nat) (c : Cursor) : (c.skip m).skip n = c.skip (m + n) := by
  induction m generalizing c with
  | zero => simp [skip]
  | succ m ih => rw [Nat.succ_add, skip, skip, ih]

/-- The place after a gap of a number of characters. A line that continues the one before it is not
a fresh line. -/
def pass (n : Nat) (c : Cursor) : Cursor :=
  { c.skip n with fresh := c.fresh && (c.rest.take n).all isBlank }

/-- The place after a raw argument of a number of characters. -/
def passRaw (n : Nat) (c : Cursor) : Cursor :=
  { c.skip n with fresh := false }

end Cursor

end Sm83
