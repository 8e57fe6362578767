import Sm83.Expr.Basic
import Sm83.Number.Fixed
import Sm83.Text.Case

/-!
# Evaluation

An expression has a number or a text as its value, or an obstacle: either names whose values are not
known yet, or a reason why no value can ever be given. An obstacle of the second sort wins over one
of the first, and of two invalid operands the first is reported. A call that lacks an argument it
needs has no meaning at all, and neither has what contains it.
-/

namespace Sm83

/-- The value of a symbol. -/
inductive Value where
  | number (n : Int)
  | text (s : String)
  deriving DecidableEq, Repr

/-- What is known of symbols: their values, and which names are defined at all. A label can be
defined and still have no value. -/
structure Resolver where
  value : String → Option Value
  defined : String → Bool

namespace Resolver

/-- Nothing is known. -/
def empty : Resolver :=
  ⟨fun _ => none, fun _ => false⟩

/-- The names that have values are those that are defined. -/
def ofValues (value : String → Option Value) : Resolver :=
  ⟨value, fun name => (value name).isSome⟩

end Resolver

/-- Why an expression can never be evaluated. -/
inductive Reason where
  | textAsNumber (text : String)
  | textSymbolAsNumber (name : String)
  | divisionByZero
  | moduloByZero
  | negativeShift (count : Int)
  | unknownOperator (symbol : String)
  | unknownFunction (name : String)
  | definedNeedsName
  | yieldsText (f : Function)
  | outOfDomain (f : Function)
  | symbolNotText (name : String)
  | notText (e : Expr)
  | sliceOutOfRange (start length : Int)
  deriving DecidableEq, Repr

def Reason.message : Reason → String
  | textAsNumber s => "string " ++ Expr.renderText s ++ " used as a number"
  | textSymbolAsNumber name => "string symbol '" ++ name ++ "' used as a number"
  | divisionByZero => "division by zero"
  | moduloByZero => "modulo by zero"
  | negativeShift n => "shift by negative amount " ++ toString n
  | unknownOperator s => "unknown operator '" ++ s ++ "'"
  | unknownFunction name => "unknown function '" ++ name ++ "'"
  | definedNeedsName => "def() expects a symbol name"
  | yieldsText f => f.word ++ "() returns a string, not a number"
  | outOfDomain f => f.word ++ "() argument out of domain"
  | symbolNotText name => "'" ++ name ++ "' is not a string"
  | notText e => e.render ++ " is not a string"
  | sliceOutOfRange start length =>
    "strsub() position " ++ toString start ++ " or length " ++ toString length ++ " out of range"

/-- Why an expression has no value now. -/
inductive Obstacle where
  | deferred (missing : List String)
  | invalid (reason : Reason)
  | incomplete (f : Function)
  deriving DecidableEq, Repr

namespace Expr

/-- The values of all results, or the obstacle they share: an incomplete call, or else the first
invalid result, or else all the missing names. -/
def gather {α : Type} : List (Except Obstacle α) → Except Obstacle (List α)
  | [] => .ok []
  | r :: rest =>
    match r, gather rest with
    | .error (.incomplete f), _ => .error (.incomplete f)
    | _, .error (.incomplete f) => .error (.incomplete f)
    | .error (.invalid reason), _ => .error (.invalid reason)
    | _, .error (.invalid reason) => .error (.invalid reason)
    | .error (.deferred m), .error (.deferred n) => .error (.deferred (mergeNames m n))
    | .error (.deferred m), .ok _ => .error (.deferred m)
    | .ok _, .error (.deferred n) => .error (.deferred n)
    | .ok a, .ok as => .ok (a :: as)

/-- The value of an operator with one operand. -/
def applyUnary (op : UnaryOp) (a : Int) : Int :=
  match op with
  | .neg => Word.wrap (-a)
  | .complement => Word.wrap (-a - 1)
  | .not => Word.ofBool (a == 0)
  | .other _ => a

/-- The value of an operator on two known numbers. -/
def applyBinary (op : BinaryOp) (a b : Int) : Except Reason Int :=
  match op with
  | .logicalOr => .ok (Word.ofBool (a != 0 || b != 0))
  | .logicalAnd => .ok (Word.ofBool (a != 0 && b != 0))
  | .equal => .ok (Word.ofBool (a == b))
  | .notEqual => .ok (Word.ofBool (a != b))
  | .less => .ok (Word.ofBool (a < b))
  | .lessEqual => .ok (Word.ofBool (a ≤ b))
  | .greater => .ok (Word.ofBool (b < a))
  | .greaterEqual => .ok (Word.ofBool (b ≤ a))
  | .add => .ok (Word.wrap (a + b))
  | .sub => .ok (Word.wrap (a - b))
  | .bitOr => .ok (Word.wrap (Word.or a b))
  | .bitXor => .ok (Word.wrap (Word.xor a b))
  | .bitAnd => .ok (Word.wrap (Word.and a b))
  | .shiftLeft =>
    if b < 0 then .error (.negativeShift b) else .ok (Word.wrap (Word.shiftLeft a b.toNat))
  | .shiftRight =>
    if b < 0 then .error (.negativeShift b) else .ok (Word.wrap (Word.shiftRight a b.toNat))
  | .mul => .ok (Word.wrap (a * b))
  | .div => if b = 0 then .error .divisionByZero else .ok (Word.wrap (a.tdiv b))
  | .mod => if b = 0 then .error .moduloByZero else .ok (Word.wrap (a.tmod b))
  | .other s => .error (.unknownOperator s)

/-- The left operand settles a logical operator on its own. -/
def settled? (op : BinaryOp) (a : Int) : Option Int :=
  match op with
  | .logicalAnd => if a = 0 then some 0 else none
  | .logicalOr => if a = 0 then none else some 1
  | _ => none

/-- The result of an operator with two operands, both of which have been evaluated. -/
def combineBinary (op : BinaryOp) (left right : Except Obstacle Int) : Except Obstacle Int :=
  match left, right with
  | .error (.incomplete f), _ => .error (.incomplete f)
  | _, .error (.incomplete f) => .error (.incomplete f)
  | .ok a, right =>
    match settled? op a, right with
    | some v, _ => .ok v
    | none, .ok b => (applyBinary op a b).mapError .invalid
    | none, .error o => .error o
  | .error (.invalid reason), _ => .error (.invalid reason)
  | .error (.deferred _), .error (.invalid reason) => .error (.invalid reason)
  | .error (.deferred m), .error (.deferred n) => .error (.deferred (mergeNames m n))
  | .error (.deferred m), .ok _ => .error (.deferred m)

def applyNumeric (f : Function) (values : List Int) : Except Obstacle Int :=
  match f, values with
  | .high, x :: _ => .ok (x / 256 % 256)
  | .low, x :: _ => .ok (x % 256)
  | .mul, x :: y :: _ => .ok (Word.wrap (Fixed.mul x y))
  | .div, x :: y :: _ =>
    if y = 0 then .error (.invalid .divisionByZero) else .ok (Word.wrap (Fixed.div x y))
  | .floor, x :: _ => .ok (Word.wrap (Fixed.floor x))
  | .ceil, x :: _ => .ok (Word.wrap (Fixed.ceil x))
  | .round, x :: _ => .ok (Word.wrap (Fixed.round x))
  | .sin, x :: _ => .ok (Word.wrap (Fixed.sin x))
  | .cos, x :: _ => .ok (Word.wrap (Fixed.cos x))
  | .tan, x :: _ => .ok (Word.wrap (Fixed.tan x))
  | .asin, x :: _ =>
    if Fixed.isRatio x then .ok (Word.wrap (Fixed.asin x))
    else .error (.invalid (.outOfDomain .asin))
  | .acos, x :: _ =>
    if Fixed.isRatio x then .ok (Word.wrap (Fixed.acos x))
    else .error (.invalid (.outOfDomain .acos))
  | .atan, x :: _ => .ok (Word.wrap (Fixed.atan x))
  | .atan2, y :: x :: _ => .ok (Word.wrap (Fixed.atan2 y x))
  | .other name, _ :: _ => .error (.invalid (.unknownFunction name))
  | f, _ => .error (.incomplete f)

/-- Three-way comparison of texts by code points. -/
def compareTexts (s t : String) : Int :=
  if s < t then -1 else if t < s then 1 else 0

/-- The one-based position at which a text first occurs in another, or zero. -/
def position (t s : String) : Int :=
  match Text.findIn s.toList t.toList with
  | some k => k + 1
  | none => 0

/-- The number that a function gives for known texts. -/
def applyTexts (f : Function) (texts : List String) : Except Obstacle Int :=
  match f, texts with
  | .strlen, t :: _ => .ok t.length
  | .strcmp, s :: t :: _ => .ok (compareTexts s t)
  | .strin, t :: s :: _ => .ok (position t s)
  | f, _ => .error (.incomplete f)

/-- The part of a text with a given one-based start and length, cut at the end of the text. -/
def slice (t : String) (start length : Int) : Except Reason String :=
  if start < 1 || length < 0 then .error (.sliceOutOfRange start length)
  else .ok (String.ofList ((t.toList.drop (start.toNat - 1)).take length.toNat))

mutual

def value (r : Resolver) : Expr → Except Obstacle Int
  | literal n => .ok (Word.wrap n)
  | text s => .error (.invalid (.textAsNumber s))
  | symbol name =>
    match r.value name with
    | none => .error (.deferred [name])
    | some (.text _) => .error (.invalid (.textSymbolAsNumber name))
    | some (.number n) => .ok (Word.wrap n)
  | unary op e => (value r e).map (applyUnary op)
  | binary op a b => combineBinary op (value r a) (value r b)
  | call .bank args =>
    match symbolsAll [] args with
    | [] => .error (.deferred ["bank"])
    | names => .error (.deferred names)
  | call .defined args =>
    match args with
    | symbol name :: _ => .ok (Word.ofBool (r.defined name))
    | [] => .error (.incomplete .defined)
    | _ => .error (.invalid .definedNeedsName)
  | call .isConst args =>
    let results := values r args
    match gather results, results with
    | .error (.incomplete f), _ => .error (.incomplete f)
    | _, [] => .error (.incomplete .isConst)
    | _, .ok _ :: _ => .ok 1
    | _, .error (.deferred _) :: _ => .ok 0
    | _, .error o :: _ => .error o
  | call .strlen args =>
    match texts r args with
    | .ok ts => applyTexts .strlen ts
    | .error o => .error o
  | call .strcmp args =>
    match texts r args with
    | .ok ts => applyTexts .strcmp ts
    | .error o => .error o
  | call .strin args =>
    match texts r args with
    | .ok ts => applyTexts .strin ts
    | .error o => .error o
  | call f args =>
    if f.yieldsText then .error (.invalid (.yieldsText f))
    else match gather (values r args) with
      | .ok vs => applyNumeric f vs
      | .error o => .error o

def values (r : Resolver) : List Expr → List (Except Obstacle Int)
  | [] => []
  | e :: rest => value r e :: values r rest

def textValue (r : Resolver) : Expr → Except Obstacle String
  | text s => .ok s
  | symbol name =>
    match r.value name with
    | some (.text s) => .ok s
    | none => .error (.deferred [name])
    | some (.number _) => .error (.invalid (.symbolNotText name))
  | call .strupr args =>
    match args with
    | [] => .error (.incomplete .strupr)
    | e :: _ => (textValue r e).map Text.upper
  | call .strlwr args =>
    match args with
    | [] => .error (.incomplete .strlwr)
    | e :: _ => (textValue r e).map Text.lower
  | call .strcat args => (texts r args).map String.join
  | call .strsub args =>
    match args with
    | [] => .error (.incomplete .strsub)
    | e :: bounds =>
      match textValue r e with
      | .error o => .error o
      | .ok t =>
        match gather (values r bounds) with
        | .ok (start :: length :: _) => (slice t start length).mapError .invalid
        | .ok _ => .error (.incomplete .strsub)
        | .error o => .error o
  | e => .error (.invalid (.notText e))

/-- The values of expressions as texts, up to the first that has none. -/
def texts (r : Resolver) : List Expr → Except Obstacle (List String)
  | [] => .ok []
  | e :: rest =>
    match textValue r e with
    | .error o => .error o
    | .ok t =>
      match texts r rest with
      | .error o => .error o
      | .ok ts => .ok (t :: ts)

end

end Expr

end Sm83
