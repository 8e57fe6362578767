import Sm83.Text.Case
import Sm83.Token.Gap

/-!
# Raw text

In raw mode text is not split into words. Raw arguments are cut at commas outside quotes and
brackets. A raw block is taken as it stands, up to the line whose first word is its closing word;
lines that open a nested block of the same kind and the lines that close it belong to the body.
-/

namespace Sm83

/-! ## Arguments -/

/-- The outcome of reading a raw argument: its text and length, or the number of characters read
when the source or the line ends inside quotes. -/
inductive RawScan where
  | argument (text : List Char) (length : Nat)
  | unterminated (offset : Nat)
  deriving DecidableEq, Repr

/-- A raw argument with further text in front, read from `width` characters. -/
def RawScan.append (front : List Char) (width : Nat) : RawScan → RawScan
  | argument text length => argument (front ++ text) (length + width)
  | unterminated offset => unterminated (offset + width)

/-- Where the reading of a raw argument stands, with the number of open brackets: between quotes or
not, after a backslash, or with some characters of a continuation still to be passed. -/
inductive RawState where
  | plain (depth : Nat)
  | quoted (depth : Nat)
  | escaped (depth : Nat) (inQuotes : Bool)
  | joining (left depth : Nat)
  deriving DecidableEq, Repr

namespace RawState

/-- A double quote is open. -/
def inQuotes : RawState → Bool
  | quoted _ => true
  | escaped _ q => q
  | _ => false

def afterQuoted (depth : Nat) (c : Char) : RawState :=
  if c = '\\' then escaped depth true else if c = '"' then plain depth else quoted depth

/-- The state after a character that is neither between quotes nor a backslash. -/
def afterPlain (depth : Nat) (c : Char) : RawState :=
  if c = '"' then quoted depth
  else if c = '(' then plain (depth + 1)
  else if c = ')' then plain (depth - 1)
  else plain depth

end RawState

/-- What is read when the text or the line ends. -/
def rawEnd (s : RawState) : RawScan :=
  if s.inQuotes then .unterminated 0 else .argument [] 0

/-- The raw argument at the head of a text. A continuation counts as one space, and a backslash
keeps the character after it from meaning anything. -/
def rawArgument : RawState → List Char → RawScan
  | s, [] => rawEnd s
  | .joining left depth, _ :: rest =>
    (rawArgument (if left ≤ 1 then .plain depth else .joining (left - 1) depth) rest).append [] 1
  | .escaped depth q, c :: rest =>
    if c = '\n' then rawEnd (.escaped depth q)
    else (rawArgument (if q then .quoted depth else .plain depth) rest).append [c] 1
  | .quoted depth, c :: rest =>
    if c = '\n' then rawEnd (.quoted depth)
    else (rawArgument (.afterQuoted depth c) rest).append [c] 1
  | .plain depth, c :: rest =>
    if c = '\n' || c = ';' || (c = ',' && depth = 0) then .argument [] 0
    else if c = '\\' then
      match continuation? rest with
      | some k => (rawArgument (.joining k depth) rest).append [' '] 1
      | none => (rawArgument (.escaped depth false) rest).append [c] 1
    else (rawArgument (.afterPlain depth c) rest).append [c] 1

/-! ## Blocks -/

/-- The part of a line before its comment. -/
def codeOf (line : List Char) : List Char :=
  line.takeWhile (· ≠ ';')

def lowerWord (w : List Char) : String :=
  Text.lower (String.ofList w)

/-- The line closes a block: its first word is the closing word in any letter case. -/
def closesBlock (closing : String) (line : List Char) : Bool :=
  match Text.words (codeOf line) with
  | w :: _ => lowerWord w == closing
  | [] => false

/-- Words without a label in front: a first word that ends in a colon, and the colons after it. -/
def dropLabel : List (List Char) → List (List Char)
  | w :: rest =>
    if w.getLast? = some ':' then rest.dropWhile (· == [':']) else w :: rest
  | [] => []

/-- The first two words of a line after its label, in lower case. -/
def leadingWords (line : List Char) : List String :=
  let spaced := (codeOf line).flatMap fun c => if c = ':' then [':', ' '] else [c]
  ((dropLabel (Text.words spaced)).take 2).map lowerWord

def opensBlock (opening : Option String) (line : List Char) : Bool :=
  match opening with
  | some word => !word.isEmpty && (leadingWords line).contains word
  | none => false

/-- The length of a block's body and the line that closes it, `depth` nested blocks being open. -/
def blockBody? (closing : String) (opening : Option String) (depth : Nat) :
    List (List Char) → Option (Nat × List Char)
  | [] => none
  | line :: rest =>
    if closesBlock closing line then
      match depth with
      | 0 => some (0, line)
      | d + 1 => (blockBody? closing opening d rest).map fun b => (b.1 + line.length + 1, b.2)
    else
      let inner := if opensBlock opening line then depth + 1 else depth
      (blockBody? closing opening inner rest).map fun b => (b.1 + line.length + 1, b.2)

end Sm83
