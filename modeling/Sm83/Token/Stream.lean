import Sm83.Token.Raw
import Sm83.Token.Register
import Sm83.Token.Scan

/-!
# Token streams

Tokens are read from a source one at a time, each under the mode in force when it is read. A stream
looks ahead by keeping what it has read in a buffer; the end of the source is reached once and
stays. What has been done with a stream is kept as its history.
-/

namespace Sm83

namespace Cursor

def token (c : Cursor) (mode : Mode) (l : Lexeme) : Token :=
  ⟨l, c.line, c.column, mode⟩

def fault (c : Cursor) (source : Source) (f : LexicalFault) : Failure :=
  source.errorAt c.line c.column (.lexical f)

/-- The next token under the rules of normal mode. -/
def normalToken (c : Cursor) (source : Source) : Except Failure (Token × Cursor) :=
  let g := gap 0 c.fresh c.rest
  let here := c.pass g.length
  if g.stray then .error (fault (here.skip 1) source .strayBackslash)
  else match scan here.rest with
    | .lexeme l length => .ok (here.token .normal l, here.skip length)
    | .fault f offset => .error (fault (here.skip offset) source f)
    | .numeral f => .error (.numeral f)

/-- The next raw argument, comma or line end. -/
def argumentToken (c : Cursor) (source : Source) : Except Failure (Token × Cursor) :=
  let here := c.pass (gap 0 false c.rest).length
  match here.rest with
  | [] => .ok (here.token .raw .eof, here)
  | '\n' :: _ => .ok (here.token .raw .newline, here.skip 1)
  | ',' :: _ => .ok (here.token .raw (.punct .comma), here.skip 1)
  | rest =>
    match rawArgument (.plain 0) rest with
    | .argument text length =>
      .ok (here.token .raw (.rawText (String.ofList (Text.trimmed text))), here.passRaw length)
    | .unterminated offset => .error (fault (here.skip offset) source .unterminatedString)

/-- The start of the first line of a block's body. The rest of the line that opens the block may
hold only a comment. -/
def bodyStart (c : Cursor) (source : Source) : Except Failure Cursor :=
  if c.column = 1 then .ok c
  else
    let here := c.skip (c.rest.takeWhile isBlank).length
    let comment :=
      if headIs (fun ch => ch = ';' || (ch = '*' && here.fresh)) here.rest then
        (restOfLine here.rest).length
      else 0
    let there := here.skip comment
    match there.rest with
    | [] => .ok there
    | '\n' :: _ => .ok (there.skip 1)
    | _ => .error (fault there source .textBeforeBody)

/-- The next raw block. Reading goes on after as many characters of the closing line as its blanks
and the closing word have. -/
def blockToken (c : Cursor) (source : Source) (closing : String) (opening : Option String) :
    Except Failure (Token × Cursor) :=
  match c.bodyStart source with
  | .error f => .error f
  | .ok body =>
    match blockBody? closing opening 0 (splitLines body.rest) with
    | some (length, line) =>
      let token : Token := ⟨.rawBlock (String.ofList (body.rest.take length)), body.line, 1, .raw⟩
      let indent := (line.takeWhile isBlank).length
      .ok (token, (body.skip length).skip (indent + closing.length))
    | none => .error (source.errorAt c.line 1 (.lexical (.unterminatedBlock closing)))

def next (c : Cursor) (source : Source) (s : Setting) : Except Failure (Token × Cursor) :=
  match s.mode with
  | .normal => c.normalToken source
  | .raw =>
    match s.closing? with
    | some closing => c.blockToken source closing s.opening
    | none => c.argumentToken source

/-- The tokens of normal mode up to the end of the source or the first failure; at most `n`. -/
def normalTokens (source : Source) : Nat → Cursor → List Token × Option Failure
  | 0, _ => ([], some .exhausted)
  | n + 1, c =>
    match c.normalToken source with
    | .error f => ([], some f)
    | .ok (t, c') =>
      if t.isEnd then ([t], none)
      else
        let (ts, f) := normalTokens source n c'
        (t :: ts, f)

end Cursor

/-- The tokens of a source in normal mode, and why there are no more if they do not reach its end.
-/
def Source.tokens (s : Source) : List Token × Option Failure :=
  Cursor.normalTokens s (s.text.length + 1) (Cursor.start s.text)

/-- What a token is consumed as: a part of the code, a raw argument or what stands between raw
arguments, or a raw block. -/
inductive Role where
  | code
  | argument
  | block
  deriving DecidableEq, Repr

/-- Something done with a stream: a token was consumed, or a mode was asked for while some tokens
had been read ahead. -/
inductive Move where
  | consumed (role : Role) (t : Token)
  | asked (setting : Setting) (ahead : List Token)
  deriving DecidableEq, Repr

/-- A source being read: where fresh tokens come from, the mode register, the tokens read ahead, the
token consumed last, and what has been done so far. -/
structure Stream where
  source : Source
  cursor : Cursor
  register : Register
  buffer : List Token
  previous : Option Token
  /-- The moves, latest first. -/
  history : List Move
  deriving DecidableEq, Repr

namespace Stream

def ofSource (s : Source) : Stream :=
  ⟨s, Cursor.start s.text, .initial, [], none, []⟩

/-- The end of the source has been read. -/
def atEnd (s : Stream) : Bool :=
  s.buffer.getLast?.any Token.isEnd

/-- A bound on the steps that reading what is still to come can take: one for each token, one for
the end of the source, and one to spare. -/
def bound (s : Stream) : Nat :=
  s.cursor.rest.length + s.buffer.length + 2

/-- Asks for a reading mode from the next fresh token on. -/
def request (s : Stream) (setting : Setting) : Stream :=
  { s with register := s.register.request setting, history := .asked setting s.buffer :: s.history }

end Stream

/-- A reading of tokens from a stream. A failed reading leaves the stream as the failure left it. -/
abbrev Reading := EStateM Failure Stream

namespace Reading

/-- Reads one fresh token into the buffer. -/
def lex : Reading Unit := fun s =>
  let register := s.register.commit
  match s.cursor.next s.source register.current with
  | .ok (t, cursor) =>
    .ok () { s with cursor := cursor, register := register, buffer := s.buffer ++ [t] }
  | .error f => .error f { s with register := register }

/-- Reads fresh tokens into the buffer, up to the end of the source. -/
def fill : Nat → Reading Unit
  | 0 => pure ()
  | n + 1 => do
    if !(← get).atEnd then
      lex
      fill n

/-- The token that stands a number of places ahead; past the end it is the end. -/
def peekAt (n : Nat) : Reading Token := do
  fill (n + 1 - (← get).buffer.length)
  let s ← get
  match s.buffer[n]? <|> s.buffer.getLast? with
  | some t => pure t
  | none => throw .exhausted

def peek : Reading Token :=
  peekAt 0

/-- Consumes the next token in some role. The end of the source is never used up. -/
def advanceAs (role : Role) : Reading Token := do
  let t ← peek
  modify fun s =>
    { s with
      buffer := if t.isEnd then s.buffer else s.buffer.tail
      previous := some t
      history := .consumed role t :: s.history }
  pure t

/-- Consumes the next token as a part of the code. -/
def advance : Reading Token :=
  advanceAs .code

end Reading

end Sm83
