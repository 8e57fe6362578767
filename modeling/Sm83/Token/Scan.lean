import Sm83.Keyword
import Sm83.Text.Numeral
import Sm83.Token.Gap

/-!
# Lexemes of the normal mode

`scan` reads the lexeme at the head of a text that starts with no gap. It depends on nothing but the
text from there on; places are the cursor's business.
-/

namespace Sm83

/-- The outcome of looking for a lexeme: the lexeme and its length, a fault with the number of
characters read when it shows, or a numeral without a value. -/
inductive Scan where
  | lexeme (l : Lexeme) (length : Nat)
  | fault (f : LexicalFault) (offset : Nat)
  | numeral (f : NumeralFault)
  deriving DecidableEq, Repr

/-! ## Names -/

def isNameStart (c : Char) : Bool :=
  c.isAlpha || c = '_'

def isNameChar (c : Char) : Bool :=
  c.isAlphanum || c = '_' || c = '.' || c = '#' || c = '@'

/-- Characters in lower case, for the letters of names. -/
def lowerName (cs : List Char) : String :=
  String.ofList (cs.map Char.toLower)

/-- What follows a name shows that the name is being declared: a colon, or after blanks an equals
sign or a word that defines the name before it. -/
def declares (after : List Char) : Bool :=
  match after with
  | ':' :: _ => true
  | c :: _ =>
    if isBlank c then
      match after.dropWhile isBlank with
      | '=' :: '=' :: _ => false
      | '=' :: _ => true
      | rest => definesName (lowerName (rest.takeWhile isNameChar))
    else false
  | [] => false

/-- A name, a reserved word or a label. A local name is never reserved. -/
def scanName (cs : List Char) : Scan :=
  let spelled := cs.takeWhile isNameChar
  let after := cs.drop spelled.length
  let spelling := String.ofList spelled
  let isLocal := cs.head? == some '.'
  if !isLocal && Keyword.isReserved (lowerName spelled) then
    .lexeme (.keyword (lowerName spelled)) spelled.length
  else if declares after then
    .lexeme (if isLocal then .localLabel spelling else .label spelling) spelled.length
  else .lexeme (if isLocal then .localName spelling else .name spelling) spelled.length

/-! ## Numbers -/

/-- A number lexeme, if the number fits in 32 bits. -/
def scanned (value length : Nat) : Scan :=
  if value < Word.modulus then .lexeme (.number (Word.wrap value)) length
  else .fault .numberTooLarge 0

/-- A decimal number, whole or with a fraction. -/
def scanDecimal (cs : List Char) : Scan :=
  let whole := cs.takeWhile Text.isDigit
  let plain : Scan :=
    match Text.natural? 10 (whole.map Text.numeralChar) with
    | some n => scanned n whole.length
    | none => .numeral (.ofDigits whole)
  match cs.drop whole.length with
  | '.' :: rest =>
    let fraction := rest.takeWhile Text.isDigit
    if fraction.isEmpty then plain
    else
      let length := whole.length + 1 + fraction.length
      match Text.decimal? whole, Text.decimal? fraction with
      | some n, some f =>
        match Fixed.ofDecimal? n f fraction.length with
        | some v => scanned v length
        | none => .numeral .infinite
      | _, _ => .numeral (.notFraction (String.ofList (whole ++ '.' :: fraction)))
  | _ => plain

def digitsValue (base : Nat) (cs : List Char) : Nat :=
  cs.foldl (fun n c => base * n + (if c.isDigit then c.toNat - 48 else c.toLower.toNat - 87)) 0

def isDigitOf (base : Nat) (c : Char) : Bool :=
  if c.isDigit then c.toNat - 48 < base
  else base = 16 && ('a' ≤ c.toLower && c.toLower ≤ 'f')

/-- Digits of a base after a mark of one character. -/
def scanRadix (base : Nat) (cs : List Char) : Scan :=
  let digits := cs.takeWhile (isDigitOf base)
  if digits.isEmpty then .fault .noHexDigits 1
  else scanned (digitsValue base digits) (1 + digits.length)

/-- The two bit planes of a row of pixels: low bits in the low byte, high bits in the high byte, the
leftmost pixel highest. -/
def planes (pixels : List Nat) : Nat :=
  256 * pixels.foldl (fun n p => 2 * n + p / 2) 0 + pixels.foldl (fun n p => 2 * n + p % 2) 0

/-- A row of one to eight pixels after its mark. -/
def scanPixels (cs : List Char) : Scan :=
  let digits := cs.takeWhile (isDigitOf 4)
  if digits.isEmpty then .fault .noPixels 1
  else if 8 < digits.length then .fault .tooManyPixels (1 + digits.length)
  else scanned (planes (digits.map fun c => c.toNat - 48)) (1 + digits.length)

/-! ## Strings -/

def escape? : Char → Option Char
  | 'n' => some '\n'
  | 'r' => some '\r'
  | 't' => some '\t'
  | '\\' => some '\\'
  | '"' => some '"'
  | ',' => some ','
  | '\x7b' => some '\x7b'
  | '\x7d' => some '\x7d'
  | _ => none

/-- The outcome of reading a string up to its closing quote. -/
inductive StringScan where
  | closed (text : List Char) (length : Nat)
  | fault (f : LexicalFault) (offset : Nat)
  deriving DecidableEq, Repr

/-- A string with further characters in front, written with `width` characters. -/
def StringScan.cons (c : Char) (width : Nat) : StringScan → StringScan
  | closed text length => closed (c :: text) (length + width)
  | fault f offset => fault f (offset + width)

/-- The rest of a string after its opening quote. -/
def stringBody : List Char → StringScan
  | [] => .fault .unterminatedString 0
  | '"' :: _ => .closed [] 1
  | '\n' :: _ => .fault .unterminatedString 0
  | ['\\'] => .fault (.illegalEscape none) 1
  | '\\' :: e :: rest =>
    match escape? e with
    | some c => (stringBody rest).cons c 2
    | none => .fault (.illegalEscape (some e)) 2
  | c :: rest => (stringBody rest).cons c 1

def scanString (afterQuote : List Char) : Scan :=
  match stringBody afterQuote with
  | .closed text length => .lexeme (.string (String.ofList text)) (1 + length)
  | .fault f offset => .fault f (1 + offset)

/-! ## Operators -/

/-- The operators of two characters. -/
def pairPunct? : Char → Option Char → Option Punct
  | ':', some ':' => some .doubleColon
  | '&', some '&' => some .andAnd
  | '|', some '|' => some .orOr
  | '!', some '=' => some .notEqual
  | '=', some '=' => some .equalEqual
  | '<', some '<' => some .shiftLeft
  | '<', some '=' => some .lessEqual
  | '>', some '>' => some .shiftRight
  | '>', some '=' => some .greaterEqual
  | _, _ => none

/-- The delimiters and the operators of one character. -/
def charPunct? : Char → Option Punct
  | ':' => some .colon
  | '&' => some .ampersand
  | '|' => some .pipe
  | '!' => some .bang
  | '=' => some .equals
  | '<' => some .less
  | '>' => some .greater
  | '%' => some .percent
  | '(' => some .leftParen
  | ')' => some .rightParen
  | '[' => some .leftBracket
  | ']' => some .rightBracket
  | ',' => some .comma
  | '~' => some .tilde
  | '^' => some .caret
  | '+' => some .plus
  | '-' => some .minus
  | '*' => some .star
  | '/' => some .slash
  | _ => none

/-- The longest delimiter or operator at the head of a text. -/
def scanPunct : List Char → Option (Punct × Nat)
  | [] => none
  | c :: cs =>
    match pairPunct? c cs.head? with
    | some p => some (p, 2)
    | none => (charPunct? c).map (·, 1)

/-- The first character of the rest satisfies a test. -/
def headIs (p : Char → Bool) (cs : List Char) : Bool :=
  cs.head?.any p

/-- The lexeme at the head of a text that starts with no gap. -/
def scan : List Char → Scan
  | [] => .lexeme .eof 0
  | c :: rest =>
    if c = '\n' then .lexeme .newline 1
    else if isNameStart c then scanName (c :: rest)
    else if c = '.' then
      if headIs (fun d => isNameChar d && !d.isDigit) rest then scanName (c :: rest)
      else .fault .bareDot 1
    else if Text.isDigit c then scanDecimal (c :: rest)
    else if c = '$' then scanRadix 16 rest
    else if c = '%' && headIs (isDigitOf 2) rest then scanRadix 2 rest
    else if c = '&' && headIs (isDigitOf 8) rest then scanRadix 8 rest
    else if c = '\x60' then scanPixels rest
    else if c = '"' then scanString rest
    else match scanPunct (c :: rest) with
      | some (p, length) => .lexeme (.punct p) length
      | none => .fault (.unexpectedChar c) 1

end Sm83
