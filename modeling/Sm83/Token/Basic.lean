import Sm83.Location
import Sm83.Number.Word
import Sm83.Text.Quoted

/-!
# Tokens

The units that source text is read into. A token remembers the reading mode it was made under.
-/

namespace Sm83

/-- The rules that fresh tokens are read by. -/
inductive Mode where
  | normal
  | raw
  deriving DecidableEq, Repr

def Mode.name : Mode → String
  | normal => "NORMAL"
  | raw => "RAW"

/-- Delimiters and operators. -/
inductive Punct where
  | leftParen | rightParen | leftBracket | rightBracket | comma | colon | doubleColon
  | bang | andAnd | orOr
  | tilde | ampersand | pipe | caret | shiftLeft | shiftRight
  | plus | minus | star | slash | percent
  | equalEqual | notEqual | less | lessEqual | greater | greaterEqual
  | equals
  deriving DecidableEq, Repr

namespace Punct

/-- The name of a delimiter or operator in messages. -/
def name : Punct → String
  | leftParen => "LPAREN" | rightParen => "RPAREN"
  | leftBracket => "LBRACKET" | rightBracket => "RBRACKET"
  | comma => "COMMA" | colon => "COLON" | doubleColon => "DOUBLE_COLON"
  | bang => "BANG" | andAnd => "AND_AND" | orOr => "OR_OR"
  | tilde => "TILDE" | ampersand => "AMPERSAND" | pipe => "PIPE" | caret => "CARET"
  | shiftLeft => "LSHIFT" | shiftRight => "RSHIFT"
  | plus => "PLUS" | minus => "MINUS" | star => "STAR" | slash => "SLASH" | percent => "PERCENT"
  | equalEqual => "EQ" | notEqual => "NE" | less => "LT" | lessEqual => "LE" | greater => "GT"
  | greaterEqual => "GE" | equals => "EQUALS"

/-- The spelling of a delimiter or operator. -/
def text : Punct → String
  | leftParen => "(" | rightParen => ")" | leftBracket => "[" | rightBracket => "]"
  | comma => "," | colon => ":" | doubleColon => "::"
  | bang => "!" | andAnd => "&&" | orOr => "||"
  | tilde => "~" | ampersand => "&" | pipe => "|" | caret => "^"
  | shiftLeft => "<<" | shiftRight => ">>"
  | plus => "+" | minus => "-" | star => "*" | slash => "/" | percent => "%"
  | equalEqual => "==" | notEqual => "!=" | less => "<" | lessEqual => "<=" | greater => ">"
  | greaterEqual => ">=" | equals => "="

end Punct

/-- What a token is. Names being declared are told apart from names being used, and local names,
which start with a dot, from global ones. -/
inductive Lexeme where
  | newline
  | eof
  | number (value : Int)
  | string (text : String)
  | name (spelling : String)
  | localName (spelling : String)
  | label (spelling : String)
  | localLabel (spelling : String)
  | keyword (word : String)
  | rawText (text : String)
  | rawBlock (text : String)
  | punct (p : Punct)
  deriving DecidableEq, Repr

namespace Lexeme

def kindName : Lexeme → String
  | newline => "NEWLINE" | eof => "EOF" | number _ => "NUMBER" | string _ => "STRING"
  | name _ => "IDENTIFIER" | localName _ => "LOCAL_IDENTIFIER"
  | label _ => "LABEL" | localLabel _ => "LOCAL_LABEL" | keyword _ => "KEYWORD"
  | rawText _ => "RAW_STRING" | rawBlock _ => "RAW_BLOCK"
  | punct p => p.name

def text? : Lexeme → Option String
  | string s | name s | localName s | label s | localLabel s | keyword s | rawText s | rawBlock s =>
    some s
  | _ => none

/-- A lexeme as messages show it: its value, or else the name of its kind. -/
def shown (l : Lexeme) : String :=
  match l with
  | number v => toString v
  | l => match l.text? with
    | some s => Text.quoted s
    | none => l.kindName

/-- The lexeme is the given delimiter or operator. -/
def isPunct (p : Punct) : Lexeme → Bool
  | punct q => p == q
  | _ => false

/-- The lexeme is the given reserved word. -/
def isKeyword (w : String) : Lexeme → Bool
  | keyword v => v == w
  | _ => false

def endsLine : Lexeme → Bool
  | newline | eof => true
  | _ => false

end Lexeme

/-- A lexeme with the place where it starts and the mode it was read under. -/
structure Token where
  lexeme : Lexeme
  line : Nat
  column : Nat
  mode : Mode
  deriving DecidableEq, Repr

namespace Token

/-- The place of a token in a named source. -/
def location (t : Token) (file : String) : Location :=
  ⟨file, t.line, t.column⟩

/-- A token with its kind, value and place; a number is shown in hexadecimal. -/
def render (t : Token) : String :=
  let place := toString t.line ++ ":" ++ toString t.column
  let value := match t.lexeme with
    | .number v => Word.dollarHex v ++ ", "
    | l => match l.text? with
      | some s => Text.quoted s ++ ", "
      | none => ""
  "Token(" ++ t.lexeme.kindName ++ ", " ++ value ++ place ++ ")"

def isEnd (t : Token) : Bool :=
  t.lexeme == .eof

end Token

end Sm83
