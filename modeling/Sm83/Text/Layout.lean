import Sm83.Text.Quoted

/-!
# Number and column layout

Hexadecimal numbers in capitals, zero padding that leaves room for a sign, and columns of fixed
width.
-/

namespace Sm83.Text

/-- A natural number in capital hexadecimal digits, at least `width` of them. -/
def hex (width n : Nat) : String :=
  String.ofList ((padDigits 16 width n).map Char.toUpper)

/-- An integer in capital hexadecimal digits; a minus sign counts towards the width. -/
def signedHex (width : Nat) (v : Int) : String :=
  if v < 0 then "-" ++ hex (width - 1) v.natAbs else hex width v.natAbs

/-- Text followed by spaces up to a column width. -/
def padRight (width : Nat) (s : String) : String :=
  s ++ String.ofList (List.replicate (width - s.length) ' ')

def join (separator : String) (parts : List String) : String :=
  String.intercalate separator parts

/-- Occurrences of a pattern are looked for from left to right; the offset of the first one. -/
def findIn (pattern : List Char) : List Char → Option Nat
  | [] => if pattern.isEmpty then some 0 else none
  | c :: rest =>
    if pattern.isPrefixOf (c :: rest) then some 0 else (findIn pattern rest).map (· + 1)

end Sm83.Text
