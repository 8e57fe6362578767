import Sm83.Number.Rounding
import Sm83.Number.Word

/-!
# Fixed-point numbers

A fixed-point number is a word whose low sixteen bits are the fraction. Angles are measured in
turns: a full turn is `1.0`. The trigonometric functions go through double precision and round the
result to the nearest fixed-point number.
-/

namespace Sm83

namespace Fixed

/-- The fixed-point number `1.0`. -/
abbrev one : Nat := 0x10000

/-- The fixed-point word of a decimal text, or `none` when the text lies beyond double precision.
The text is first rounded to double precision, then to sixteen binary places. -/
def ofDecimal? (whole fraction : Nat) (places : Nat) : Option Nat :=
  let scaled :=
    (Rounding.nearest (whole * Nat.pow 10 places + fraction) (Nat.pow 10 places)).shift 16
  if scaled.overflows then none else some scaled.round

/-- The product, rounded down. -/
def mul (x y : Int) : Int :=
  x * y / one

/-- The quotient, rounded toward zero. -/
def div (x y : Int) : Int :=
  (x * one).tdiv y

/-- The greatest whole number below. -/
def floor (x : Int) : Int :=
  x / one * one

/-- The least whole number above. -/
def ceil (x : Int) : Int :=
  floor (x + (one - 1))

/-- The nearest whole number, a half going up. -/
def round (x : Int) : Int :=
  floor (x + one / 2)

/-- Half the circumference of the unit circle in double precision. -/
def pi : Float := Float.ofBits 0x400921FB54442D18

/-- A fixed-point number in double precision. -/
def toFloat (x : Int) : Float :=
  Float.ofInt x / Float.ofInt one

/-- The fixed-point number nearest to a double. -/
def ofFloat (x : Float) : Int :=
  Rounding.roundFloat (x * Float.ofInt one)

def radians (x : Int) : Float :=
  toFloat x * 2.0 * pi

/-- Radians as a fixed-point number of turns. -/
def turns (angle : Float) : Int :=
  ofFloat (angle / (2.0 * pi))

/-- The sine of an angle. -/
def sin (x : Int) : Int := ofFloat (radians x).sin

/-- The cosine of an angle. -/
def cos (x : Int) : Int := ofFloat (radians x).cos

/-- The tangent of an angle. -/
def tan (x : Int) : Int := ofFloat (radians x).tan

/-- Sines and cosines lie between minus one and one. -/
def isRatio (x : Int) : Bool :=
  x.natAbs ≤ one

/-- The angle of a sine. -/
def asin (x : Int) : Int := turns (toFloat x).asin

/-- The angle of a cosine. -/
def acos (x : Int) : Int := turns (toFloat x).acos

/-- The angle of a tangent. -/
def atan (x : Int) : Int := turns (toFloat x).atan

/-- The angle of a point given by its height and its reach. -/
def atan2 (y x : Int) : Int := turns (Float.atan2 (toFloat y) (toFloat x))

/-- Decimal digits of a fixed-point number with five places, a tie going to the even digit. -/
def decimal (x : Int) : String :=
  let units := Rounding.halfEven (x.natAbs * 100000) one
  let whole := toString (units / 100000)
  let places := String.ofList (Text.padDigits 10 5 (units % 100000))
  (if x < 0 then "-" else "") ++ whole ++ "." ++ places

end Fixed

end Sm83
