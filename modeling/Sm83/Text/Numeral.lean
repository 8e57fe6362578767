import Sm83.Text.Digit

/-!
# Integer texts

The spelling of integers: surrounding space, a sign, a radix mark where the base has one, and digits
with single underscores between them. Decimal digits of any script are digits. A decimal text may
not be longer than a limit that keeps its conversion quick. Options have all of this, and sources
the bare digits.
-/

namespace Sm83.Text

/-- A character as integer texts see it: digits of other scripts become ASCII digits and wide spaces
become plain ones. -/
def numeralChar (c : Char) : Char :=
  if c.toNat < 127 then c
  else if isSpace c then ' '
  else match decimalValue? c with
    | some v => Char.ofNat (48 + v)
    | none => c

/-- Space that may surround an integer text. -/
def isNumeralSpace (c : Char) : Bool :=
  c = ' ' || (9 ≤ c.toNat && c.toNat ≤ 13)

/-- The value of a letter or digit as a digit of a large enough base. -/
def digitValue? (c : Char) : Option Nat :=
  if '0' ≤ c && c ≤ '9' then some (c.toNat - 48)
  else if 'a' ≤ c && c ≤ 'z' then some (c.toNat - 87)
  else if 'A' ≤ c && c ≤ 'Z' then some (c.toNat - 55)
  else none

/-- Digits of a base, each underscore standing between two digits. -/
def digitRun? (base : Nat) (acc : Nat) : List Char → Option Nat
  | [] => some acc
  | '_' :: c :: rest =>
    match digitValue? c with
    | some v => if v < base then digitRun? base (base * acc + v) rest else none
    | none => none
  | c :: rest =>
    match digitValue? c with
    | some v => if v < base then digitRun? base (base * acc + v) rest else none
    | none => none

/-- The letter that may follow a leading zero to name the base. -/
def radixMark? : Nat → Option Char
  | 16 => some 'x'
  | 8 => some 'o'
  | 2 => some 'b'
  | _ => none

/-- Digits without a leading radix mark; one underscore may follow the mark. -/
def dropRadixMark (base : Nat) : List Char → List Char
  | '0' :: m :: rest =>
    if radixMark? base = some m.toLower then
      match rest with
      | '_' :: r => r
      | r => r
    else '0' :: m :: rest
  | cs => cs

/-- The greatest number of digits in a decimal text. -/
def decimalLimit : Nat := 4300

/-- The digits are more than a text of the base may have. -/
def exceedsLimit (base : Nat) (digits : List Char) : Bool :=
  base = 10 && decimalLimit < (digits.filter (· ≠ '_')).length

/-- An unsigned integer text. -/
def natural? (base : Nat) (cs : List Char) : Option Nat :=
  match dropRadixMark base cs with
  | [] => none
  | '_' :: _ => none
  | digits => if exceedsLimit base digits then none else digitRun? base 0 digits

def integer? (base : Nat) (cs : List Char) : Option Int :=
  let bare := ((cs.map numeralChar).dropWhile isNumeralSpace).reverse.dropWhile isNumeralSpace
  match bare.reverse with
  | '-' :: rest => (natural? base rest).map fun n => -(n : Int)
  | '+' :: rest => (natural? base rest).map fun n => (n : Int)
  | rest => (natural? base rest).map fun n => (n : Int)

end Sm83.Text
