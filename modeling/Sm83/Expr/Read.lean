import Sm83.Token.Stream

/-!
# Reading expressions

Expressions are read by descent through seven levels of binary operators, loosest first and each
associating to the left, then prefix operators, then numbers, strings, names, calls and bracketed
expressions. Reading stops before the first token that cannot go on with the expression.
-/

namespace Sm83

namespace Expr

/-- The binary operators of each level, loosest first. -/
def levels : List (List (Punct × BinaryOp)) := [
  [(.orOr, .logicalOr)],
  [(.andAnd, .logicalAnd)],
  [(.equalEqual, .equal), (.notEqual, .notEqual), (.less, .less), (.lessEqual, .lessEqual),
    (.greater, .greater), (.greaterEqual, .greaterEqual)],
  [(.plus, .add), (.minus, .sub)],
  [(.pipe, .bitOr), (.caret, .bitXor), (.ampersand, .bitAnd)],
  [(.shiftLeft, .shiftLeft), (.shiftRight, .shiftRight)],
  [(.star, .mul), (.slash, .div), (.percent, .mod)]]

def operator? (level : List (Punct × BinaryOp)) : Lexeme → Option BinaryOp
  | .punct p => (level.find? fun o => o.1 == p).map Prod.snd
  | _ => none

/-- What a prefix operator makes of its operand; a plus leaves it as it is. -/
def prefixed? : Lexeme → Option (Expr → Expr)
  | .punct .bang => some (unary .not)
  | .punct .tilde => some (unary .complement)
  | .punct .minus => some (unary .neg)
  | .punct .plus => some id
  | _ => none

def function? : Lexeme → Option Function
  | .keyword w => Function.ofWord? w
  | _ => none

def starts (l : Lexeme) : Bool :=
  match l with
  | .number _ | .string _ | .name _ | .localName _ | .punct .leftParen => true
  | l => (prefixed? l).isSome || (function? l).isSome

def failAt {α : Type} (t : Token) (fault : GrammarFault) : Reading α := do
  throw (.error ⟨.grammar fault, some ((← get).source.locate t), none⟩)

/-- Consumes a delimiter. -/
def expectPunct (p : Punct) (expected : Expectation) : Reading Unit := do
  let t ← Reading.peek
  if t.lexeme.isPunct p then discard Reading.advance
  else failAt t (.mismatch expected t.lexeme)

/-- Further operands of a level, each with the operator before it; at most `n` of them. -/
def chain (level : List (Punct × BinaryOp)) (operand : Reading Expr) : Nat → Expr → Reading Expr
  | 0, _ => throw .exhausted
  | n + 1, left => do
    let t ← Reading.peek
    match operator? level t.lexeme with
    | none => pure left
    | some op =>
      discard Reading.advance
      let right ← operand
      chain level operand n (binary op left right)

/-- Operands joined by the operators of the levels, loosest first. -/
def ladder (n : Nat) (operand : Reading Expr) : List (List (Punct × BinaryOp)) → Reading Expr
  | [] => operand
  | level :: tighter => do
    let left ← ladder n operand tighter
    chain level (ladder n operand tighter) n left

/-- Prefix operators, at most `n` of them, and what they apply to. -/
def readPrefixed (atom : Reading Expr) : Nat → Reading Expr
  | 0 => throw .exhausted
  | n + 1 => do
    let t ← Reading.peek
    match prefixed? t.lexeme with
    | some apply =>
      discard Reading.advance
      apply <$> readPrefixed atom n
    | none => atom

/-- Further arguments, each with the comma before it; at most `n` of them. -/
def moreArguments (inner : Reading Expr) : Nat → List Expr → Reading (List Expr)
  | 0, _ => throw .exhausted
  | n + 1, args => do
    let t ← Reading.peek
    if t.lexeme.isPunct .comma then
      discard Reading.advance
      let e ← inner
      moreArguments inner n (args ++ [e])
    else pure args

/-- A call with its arguments in brackets. -/
def readCall (f : Function) (inner : Reading Expr) (n : Nat) : Reading Expr := do
  let name ← Reading.advance
  expectPunct .leftParen (.callParen f)
  let t ← Reading.peek
  let args ←
    if t.lexeme.isPunct .rightParen then pure []
    else do
      let first ← inner
      moreArguments inner n [first]
  expectPunct .rightParen (.callEnd f)
  if f.accepts args.length then pure (call f args)
  else failAt name (.arity f args.length)

/-- A number, string, name, bracketed expression or call. -/
def readAtom (qualify : String → Except Cause String) (inner : Reading Expr) (n : Nat) :
    Reading Expr := do
  let t ← Reading.peek
  match t.lexeme with
  | .number v =>
    discard Reading.advance
    pure (literal v)
  | .string s =>
    discard Reading.advance
    pure (text s)
  | .name s =>
    discard Reading.advance
    pure (symbol s)
  | .localName s =>
    discard Reading.advance
    match qualify s with
    | .ok name => pure (symbol name)
    | .error cause => throw (.ofCause cause)
  | .punct .leftParen =>
    discard Reading.advance
    let e ← inner
    expectPunct .rightParen .closingParen
    pure e
  | l =>
    match function? l with
    | some f => readCall f inner n
    | none => failAt t (.mismatch .expression l)

/-- An expression whose brackets nest less than `n` deep. -/
def readWithin (qualify : String → Except Cause String) : Nat → Reading Expr
  | 0 => throw .exhausted
  | n + 1 => ladder n (readPrefixed (readAtom qualify (readWithin qualify n) n) n) levels

/-- An expression, with local names completed by `qualify`. -/
def read (qualify : String → Except Cause String) : Reading Expr := do
  readWithin qualify (← get).bound

end Expr

end Sm83
