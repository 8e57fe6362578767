import Sm83.Expr.Eval
import Sm83.Section.Basic
import Sm83.Text.Numeral
import Sm83.Token.Basic

/-!
# Faults

The particular things that can be wrong with a source, grouped by the part of the assembler that
finds them. Each fault has a wording and some have a hint.
-/

namespace Sm83

/-- What is wrong with a piece of source text that cannot be read as a token. -/
inductive LexicalFault where
  | strayBackslash
  | bareDot
  | noHexDigits
  | noPixels
  | tooManyPixels
  | numberTooLarge
  | illegalEscape (c : Option Char)
  | unterminatedString
  | unexpectedChar (c : Char)
  | textBeforeBody
  | unterminatedBlock (closing : String)
  deriving DecidableEq, Repr

namespace LexicalFault

def message : LexicalFault → String
  | strayBackslash => "unexpected '\\' outside a string"
  | bareDot => "expected identifier after '.'"
  | noHexDigits => "expected hexadecimal digits"
  | noPixels => "expected pixel digits (0-3) after '\x60'"
  | tooManyPixels => "graphics literal is too long"
  | numberTooLarge => "integer constant is too large"
  | illegalEscape c => "illegal character escape '\\" ++ String.ofList c.toList ++ "'"
  | unterminatedString => "unterminated string literal"
  | unexpectedChar c => "unexpected character '" ++ String.ofList [c] ++ "'"
  | textBeforeBody => "unexpected text before the body, expected end of line"
  | unterminatedBlock closing => "unterminated block, expected '" ++ closing ++ "'"

def hint? : LexicalFault → Option String
  | strayBackslash => some "a line continuation must be the last thing on its line"
  | tooManyPixels => some "use at most 8 pixels"
  | _ => none

end LexicalFault

/-- What the grammar allows at a place. -/
inductive Expectation where
  | expression
  | closingParen
  | callParen (f : Function)
  | callEnd (f : Function)
  | lineEnd
  | definition (name : String)
  | statement
  | rawArgument
  | repeatLineEnd
  | closingBracket
  | nameBefore (word : String)
  | lineStart (word : String)
  | otherDirective
  | symbolName
  | sectionComma
  | region
  | addressEnd
  | attributeName
  | freshAttribute (word : String)
  | attributeStart (word : String)
  | attributeEnd (word : String)
  | severityComma
  deriving DecidableEq, Repr

def Expectation.message : Expectation → String
  | expression => "expected expression"
  | closingParen => "expected ')' to close expression"
  | callParen f => "expected '(' after " ++ f.word
  | callEnd f => "expected ')' after " ++ f.word ++ " arguments"
  | lineEnd => "expected end of line"
  | definition name => "expected ':' or a definition after '" ++ name ++ "'"
  | statement => "expected instruction, directive or macro"
  | rawArgument => "unexpected token in raw arguments"
  | repeatLineEnd => "expected end of line after rept count"
  | closingBracket => "expected ']'"
  | nameBefore word => "'" ++ word ++ "' must follow a symbol name"
  | lineStart word => "'" ++ word ++ "' must start a line"
  | otherDirective => "unexpected directive"
  | symbolName => "expected symbol name"
  | sectionComma => "expected ',' after section name"
  | region => "expected section type (rom0, romx, vram, sram, wram0, wramx, oam, hram)"
  | addressEnd => "expected ']' after section address"
  | attributeName => "expected 'bank' or 'align'"
  | freshAttribute word => "duplicate '" ++ word ++ "' attribute"
  | attributeStart word => "expected '[' after " ++ word
  | attributeEnd word => "expected ']' after " ++ word
  | severityComma => "expected ',' after assert severity"

/-- What is wrong with a sequence of tokens. -/
inductive GrammarFault where
  | mismatch (expected : Expectation) (found : Lexeme)
  | arity (f : Function) (count : Nat)
  | unterminatedRepeat
  | negativeCount (count : Int)
  | unknownInstruction (name : String)
  deriving DecidableEq, Repr

def GrammarFault.message : GrammarFault → String
  | mismatch expected found => expected.message ++ ", got " ++ found.shown
  | arity f count =>
    let (least, most) := f.arity
    let wanted := if least = most then toString least else toString least ++ " or more"
    let plural := if 1 < most then "s" else ""
    f.word ++ "() takes " ++ wanted ++ " argument" ++ plural ++ ", got " ++ toString count
  | unterminatedRepeat => "unterminated rept block, expected 'endr'"
  | negativeCount count => "ds count must not be negative, got " ++ toString count
  | unknownInstruction name => "unknown instruction '" ++ name ++ "'"

/-- An address or displacement that lies where it must not. -/
inductive RangeFault where
  | highRam (address : Int)
  | window (address : Int) (region : Region)
  | restart (vector : Int)
  | jump (displacement : Int)
  | bounds (description : String) (low high value : Int)
  deriving DecidableEq, Repr

namespace RangeFault

def message : RangeFault → String
  | highRam a => "ldh address " ++ Word.dollarHex a ++ " is not in high RAM"
  | window a region =>
    let (first, last) := region.window
    "section address " ++ Word.dollarHex a ++ " is outside " ++ region.word ++ " ($"
      ++ Text.signedHex 4 first ++ "-$" ++ Text.signedHex 4 last ++ ")"
  | restart v => "invalid rst vector " ++ Word.dollarHex v
  | jump d => "jr target out of range (offset " ++ toString d ++ ")"
  | bounds description low high v =>
    description ++ ": " ++ Word.dollarHex v ++ " is outside $" ++ Text.signedHex 4 low ++ "-$"
      ++ Text.signedHex 4 high

def hint? : RangeFault → Option String
  | highRam _ => some "ldh accesses $FF00-$FFFF; use ld for other addresses"
  | restart _ => some "rst accepts $00, $08, $10, $18, $20, $28, $30 and $38"
  | jump _ => some "jr reaches -128..+127 bytes; use jp for longer jumps"
  | _ => none

end RangeFault

/-- What is wrong with a section or load block. -/
inductive SectionFault where
  | notBanked (region : Region)
  | bankRange (bank : Int) (region : Region)
  | alignmentRange (alignment : Int)
  | misaligned (address alignment : Int)
  | insideLoad (name load : String)
  | redeclared (name : String) (existing : Section)
  | emptyStack
  | loadOutsideSection (name : String)
  | loadInsideLoad (name load : String)
  | noLoad
  deriving DecidableEq, Repr

namespace SectionFault

def message : SectionFault → String
  | notBanked region => "bank[] is not allowed for " ++ region.word ++ " sections"
  | bankRange bank region =>
    let (low, high) := region.banks?.getD (0, 0)
    "bank " ++ toString bank ++ " is out of range for " ++ region.word ++ " (" ++ toString
      low ++ "-" ++ toString high ++ ")"
  | alignmentRange n => "alignment must be between 0 and 16, got " ++ toString n
  | misaligned a n =>
    "section address $" ++ Text.signedHex 4 a ++ " is not aligned to " ++ toString n ++ " bits"
  | insideLoad name load => "section \"" ++ name ++ "\" inside load block \"" ++ load ++ "\""
  | redeclared name existing => "section \"" ++ name ++ "\" already declared as " ++ existing.render
  | emptyStack => "no entries in the section stack"
  | loadOutsideSection name => "load block \"" ++ name ++ "\" outside a section"
  | loadInsideLoad name load => "load block \"" ++ name ++ "\" inside load block \"" ++ load ++ "\""
  | noLoad => "endl without a load block"

def hint? : SectionFault → Option String
  | notBanked _ => some "only romx, vram, sram and wramx are banked"
  | insideLoad .. | loadInsideLoad .. => some "close the load block with endl"
  | emptyStack => some "pops without pushs"
  | _ => none

end SectionFault

/-- Why a symbol cannot be removed. -/
inductive PurgeFault where
  | undefined (name : String)
  | builtIn (name : String)
  | label (name : String)
  | exported (name : String)
  deriving DecidableEq, Repr

def PurgeFault.message : PurgeFault → String
  | undefined name => "cannot purge undefined symbol '" ++ name ++ "'"
  | builtIn name => "cannot purge built-in symbol '" ++ name ++ "'"
  | label name => "cannot purge label '" ++ name ++ "'"
  | exported name => "cannot purge exported symbol '" ++ name ++ "'"

/-- A numeral made of digits that has no value: some digit has no place value, the digits are too
many, or the number lies beyond double precision. -/
inductive NumeralFault where
  | notInteger (digits : String)
  | tooLong (count : Nat)
  | notFraction (digits : String)
  | infinite
  deriving DecidableEq, Repr

/-- Why digits are no whole number. Only those before the first without a place value are counted.
-/
def NumeralFault.ofDigits (digits : List Char) : NumeralFault :=
  let counted := digits.takeWhile fun c => (Text.decimalValue? c).isSome
  if Text.decimalLimit < counted.length then tooLong counted.length
  else notInteger (String.ofList digits)

/-- The wording of a fault; a long integer text is cut short. -/
def NumeralFault.message : NumeralFault → String
  | notInteger digits =>
    "invalid literal for int() with base 10: "
      ++ String.ofList ((Text.quoted digits).toList.take 200)
  | tooLong count =>
    "Exceeds the limit (" ++ toString Text.decimalLimit ++
      " digits) for integer string conversion: " ++ "value has " ++ toString count
      ++ " digits; use sys.set_int_max_str_digits() to increase the limit"
  | notFraction digits => "could not convert string to float: " ++ Text.quoted digits
  | infinite => "cannot convert float infinity to integer"

end Sm83
