import Sm83.Error.Basic

/-!
# Expressions where values are needed

Some places need a value now; others take an expression whose value is not known yet and keep it for
later. An expression that can never have a value is an error in either case.
-/

namespace Sm83

def Obstacle.cause : Obstacle → Cause
  | deferred missing => .notConstant missing
  | invalid reason => .expression reason
  | incomplete f => .incomplete f

/-- The part of an instruction that an operand goes into: a byte, a displacement, or two bytes. -/
inductive Field where
  | byte
  | displacement
  | word
  deriving DecidableEq, Repr

namespace Field

def bits : Field → Nat
  | byte => 8
  | displacement => 8
  | word => 16

def patterns (f : Field) : Nat :=
  Nat.pow 2 f.bits

/-- The least and the greatest value a field takes. Bytes and words take signed and unsigned values.
-/
def range : Field → Int × Int
  | byte => (-128, 255)
  | displacement => (-128, 127)
  | word => (-32768, 65535)

def fits (f : Field) (v : Int) : Bool :=
  f.range.1 ≤ v && v ≤ f.range.2

end Field

namespace Expr

/-- The number that is needed now. -/
def constant (r : Resolver) (e : Expr) : Except Cause Int :=
  (e.value r).mapError Obstacle.cause

/-- The text that is needed now. -/
def constantText (r : Resolver) (e : Expr) : Except Cause String :=
  (e.textValue r).mapError Obstacle.cause

/-- The expression with its value in its place when it is known. -/
def fold (r : Resolver) (e : Expr) : Except Cause Expr :=
  match e.value r with
  | .ok v => .ok (literal v)
  | .error (.deferred _) => .ok e
  | .error o => .error o.cause

/-- The operand for a field: a known value that fits, reduced to the bits of the field, or an
expression that is not known yet. -/
def operand (r : Resolver) (f : Field) (e : Expr) : Except Cause Expr :=
  match e.value r with
  | .ok v =>
    if f.fits v then .ok (literal (v % f.patterns)) else .error (.conversion v f.bits)
  | .error (.deferred _) => .ok e
  | .error o => .error o.cause

end Expr

end Sm83
