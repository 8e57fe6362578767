import Sm83.Diagnostics
import Sm83.Expr.Operand
import Sm83.Expr.Read
import Sm83.Run.Event

/-!
# Runs

A run carries one source through the assembler: the tokens being read, the state of the assembly,
and what has come of it so far. A step of a run may fail; what it has done by then remains.
-/

namespace Sm83

/-- One source on its way through the assembler. -/
structure Run where
  stream : Stream
  state : State
  statements : List Statement
  diagnostics : Diagnostics
  pending : List (Location × Assertion)
  output : List String
  /-- What has been noted, latest first. -/
  trail : List Event
  deriving DecidableEq, Repr

namespace Run

/-- The run before the first line of a source. -/
def start (source : Source) (state : State) (diagnostics : Diagnostics) : Run :=
  ⟨.ofSource source, state, [], diagnostics, [], [], []⟩

/-- What has been noted, in order. -/
def events (r : Run) : List Event :=
  r.trail.reverse

def note (r : Run) (events : List Event) : Run :=
  { r with trail := events.reverse ++ r.trail }

/-- Goes on with the tokens as a reading has left them. -/
def follow (r : Run) (stream : Stream) : Run :=
  { r with stream := stream }.note (Event.ofRegisters r.stream.register stream.register)

end Run

/-- A step of a run. -/
abbrev Step := EStateM Failure Run

namespace Step

variable {α : Type}

def reading (action : Reading α) : Step α := fun r =>
  match action r.stream with
  | .ok a stream => .ok a (r.follow stream)
  | .error f stream => .error f (r.follow stream)

def note (events : List Event) : Step Unit :=
  modify (·.note events)

/-- Stops for a cause whose place is not known yet. -/
def stop (cause : Cause) : Step α :=
  throw (.ofCause cause)

/-- The value, or the cause for which there is none. -/
def ofExcept : Except Cause α → Step α
  | .ok a => pure a
  | .error cause => stop cause

/-- Gives errors of an action that have no place the given one. -/
def locatedAt (location : Location) (line : Option String) (action : Step α) : Step α := fun r =>
  match action r with
  | .error (.error e) r' => .error (.error (e.locate (some location) line)) r'
  | result => result

/-- Gives errors of an action that have no place the place of a token. -/
def located (t : Token) (action : Step α) : Step α := do
  let source := (← get).stream.source
  locatedAt (source.locate t) (source.line? t.line) action

/-! ## Tokens -/

def peek : Step Token :=
  reading Reading.peek

/-- The token some places ahead. -/
def peekAt (n : Nat) : Step Token :=
  reading (Reading.peekAt n)

/-- Consumes the next token in some role. -/
def advanceAs (role : Role) : Step Token :=
  reading (Reading.advanceAs role)

/-- Consumes the next token as a part of the code. -/
def advance : Step Token :=
  advanceAs .code

def locationOf (t : Token) : Step Location := do
  pure ((← get).stream.source.locate t)

def fail (t : Token) (expected : Expectation) : Step α := do
  let source := (← get).stream.source
  throw (.error
    ⟨.grammar (.mismatch expected t.lexeme), some (source.locate t), source.line? t.line⟩)

/-- Consumes a delimiter or operator if it comes next. -/
def accept (p : Punct) : Step Bool := do
  let t ← peek
  if t.lexeme.isPunct p then
    discard advance
    pure true
  else pure false

/-- Consumes a delimiter or operator. -/
def expect (p : Punct) (expected : Expectation) : Step Unit := do
  let t ← peek
  if t.lexeme.isPunct p then discard advance else fail t expected

def atLineEnd : Step Bool := do
  pure (← peek).lexeme.endsLine

def endLine : Step Unit := do
  let t ← peek
  match t.lexeme with
  | .newline => discard advance
  | .eof => pure ()
  | _ => fail t .lineEnd

/-- Asks for a reading mode from the next fresh token on. -/
def request (setting : Setting) : Step Unit :=
  modify fun r => { r with stream := r.stream.request setting }

/-- A bound on the steps that what is left of the source can take. -/
def bound : Step Nat := do
  pure (← get).stream.bound

/-- Further items, each with a comma before it; at most `n` of them. -/
def moreItems (item : Step α) : Nat → List α → Step (List α)
  | 0, _ => throw .exhausted
  | n + 1, items => do
    if ← accept .comma then
      let next ← item
      moreItems item n (items ++ [next])
    else pure items

/-! ## Expressions -/

/-- What is known of names now. -/
def resolver : Step Resolver := do
  pure (← get).state.resolver

def expression : Step Expr := do
  reading (Expr.read (← get).state.qualify)

/-- An expression whose number is needed now. -/
def constant : Step Int := do
  let t ← peek
  let e ← expression
  located t (ofExcept (e.constant (← resolver)))

/-- An expression whose text is needed now. -/
def constantText : Step String := do
  let t ← peek
  let e ← expression
  located t (ofExcept (e.constantText (← resolver)))

/-- Expressions separated by commas, possibly none. -/
def expressions : Step (List Expr) := do
  if ← atLineEnd then pure []
  else
    let first ← expression
    moreItems expression (← bound) [first]

/-! ## The state -/

def define (f : State → Except Error (Symbol × State)) : Step Symbol := do
  let before := (← get).state
  match f before with
  | .error e => throw (.error e)
  | .ok (symbol, after) =>
    modify fun r => { r with state := after }
    note (Event.ofDefinition before symbol)
    pure symbol

def change (f : State → Except Error State) (events : State → List Event) : Step Unit := do
  match f (← get).state with
  | .error e => throw (.error e)
  | .ok after =>
    modify fun r => { r with state := after }
    note (events after)

/-- Changes the state in a way that cannot fail. -/
def update (f : State → State) : Step Unit :=
  modify fun r => { r with state := f r.state }

end Step

end Sm83
