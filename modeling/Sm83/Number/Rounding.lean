/-!
# Rounding

Exact quotients rounded to the nearest integer, ties to the even neighbour, and the nearest number
with a 53-bit significand. Both work on natural numbers alone.
-/

namespace Sm83

namespace Rounding

/-- The quotient `n / d` rounded to the nearest natural number, a tie going to the even one. -/
def halfEven (n d : Nat) : Nat :=
  let q := n / d
  let r := n % d
  if 2 * r < d then q
  else if d < 2 * r then q + 1
  else if q % 2 = 0 then q
  else q + 1

/-- A nonnegative number `mantissa * 2 ^ exponent`. -/
structure Binary where
  mantissa : Nat
  exponent : Int
  deriving DecidableEq, Repr

/-- The quotient `n / d` scaled by a power of two and rounded. -/
def scaled (n d : Nat) (exponent : Int) : Nat :=
  let power := Nat.pow 2 exponent.natAbs
  if exponent < 0 then halfEven (n * power) d else halfEven n (d * power)

/-- The nearest double-precision number to `n / d`, a tie going to the even significand. The
exponent is unbounded above, so that an overflow is for the caller to see. -/
def nearest (n d : Nat) : Binary :=
  if n = 0 then ⟨0, 0⟩
  else
    let guess : Int := (n.log2 : Int) - d.log2 - 52
    let power := Nat.pow 2 (guess + 52).natAbs
    let small : Bool := if guess + 52 < 0 then n * power < d else n < d * power
    let exponent := if small then guess - 1 else guess
    let exponent := if exponent < -1074 then -1074 else exponent
    ⟨scaled n d exponent, exponent⟩

/-- Multiplication by a power of two. -/
def Binary.shift (b : Binary) (places : Int) : Binary :=
  { b with exponent := b.exponent + places }

/-- The number lies beyond the largest finite double. -/
def Binary.overflows (b : Binary) : Bool :=
  if b.exponent < 0 then Nat.pow 2 (1024 + b.exponent.natAbs) ≤ b.mantissa
  else 1024 ≤ b.mantissa.log2 + b.exponent.natAbs && b.mantissa != 0

/-- The nearest natural number, a tie going to the even one. -/
def Binary.round (b : Binary) : Nat :=
  scaled b.mantissa 1 (-b.exponent)

/-- The number of fractions that a floating-point number can have in one binade. -/
def significand : Nat := 0x10000000000000

/-- The sign and magnitude of a finite floating-point number. -/
def ofFloat (x : Float) : Bool × Binary :=
  let bits := x.toBits.toNat
  let field := bits / significand % 0x800
  let fraction := bits % significand
  let magnitude : Binary :=
    if field = 0 then ⟨fraction, -1074⟩ else ⟨significand + fraction, Int.ofNat field - 1075⟩
  (bits / significand / 0x800 = 1, magnitude)

/-- The nearest integer to a finite floating-point number, a tie going to the even one. -/
def roundFloat (x : Float) : Int :=
  let (negative, magnitude) := ofFloat x
  if negative then -(magnitude.round : Int) else magnitude.round

end Rounding

end Sm83
