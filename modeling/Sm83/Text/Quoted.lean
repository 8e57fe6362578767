import Sm83.Text.Printable

/-!
# Quoted text

How a text is shown inside a message: between quotes, with everything that cannot be shown written
as an escape. Single quotes are used unless the text holds a single quote and no double quote.
-/

namespace Sm83.Text

/-- Digits of a number in a base up to sixteen, padded with zeros to a width. -/
def padDigits (base width n : Nat) : List Char :=
  let digits := Nat.toDigits base n
  List.replicate (width - digits.length) '0' ++ digits

/-- The escape of a character that is not shown as itself: as many digits as its code point needs.
-/
def codeEscape (c : Char) : List Char :=
  if c.toNat < 0x100 then '\\' :: 'x' :: padDigits 16 2 c.toNat
  else if c.toNat < 0x10000 then '\\' :: 'u' :: padDigits 16 4 c.toNat
  else '\\' :: 'U' :: padDigits 16 8 c.toNat

/-- A character as it stands between the given quotes. -/
def quotedChar (quote c : Char) : List Char :=
  if c = quote || c = '\\' then ['\\', c]
  else if c = '\t' then ['\\', 't']
  else if c = '\n' then ['\\', 'n']
  else if c = '\r' then ['\\', 'r']
  else if isPrintable c then [c]
  else codeEscape c

/-- The quote that surrounds a text. -/
def quoteFor (cs : List Char) : Char :=
  if cs.contains '\x27' && !cs.contains '"' then '"' else '\x27'

/-- Text between quotes. -/
def quoted (s : String) : String :=
  let q := quoteFor s.toList
  String.ofList (q :: s.toList.flatMap (quotedChar q) ++ [q])

end Sm83.Text
