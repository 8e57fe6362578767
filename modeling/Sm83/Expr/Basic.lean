import Sm83.Expr.Function
import Sm83.Number.Word

/-!
# Expressions

Expression trees and their printed form. The printed form brackets every operator that is itself an
operand, so it never depends on precedence.
-/

namespace Sm83

/-- An operator with one operand. An operator of any other spelling leaves its operand as it is. -/
inductive UnaryOp where
  | neg | complement | not
  | other (symbol : String)
  deriving DecidableEq, Repr

namespace UnaryOp

/-- The spelling of an operator. -/
def text : UnaryOp → String
  | neg => "-" | complement => "~" | not => "!" | other s => s

/-- The operator of any spelling. -/
def ofText : String → UnaryOp
  | "-" => neg | "~" => complement | "!" => not | s => other s

end UnaryOp

/-- An operator with two operands. An operator of any other spelling never evaluates. -/
inductive BinaryOp where
  | logicalOr | logicalAnd
  | equal | notEqual | less | lessEqual | greater | greaterEqual
  | add | sub
  | bitOr | bitXor | bitAnd
  | shiftLeft | shiftRight
  | mul | div | mod
  | other (symbol : String)
  deriving DecidableEq, Repr

namespace BinaryOp

/-- The spelling of an operator. -/
def text : BinaryOp → String
  | logicalOr => "||" | logicalAnd => "&&"
  | equal => "==" | notEqual => "!=" | less => "<" | lessEqual => "<=" | greater => ">"
  | greaterEqual => ">="
  | add => "+" | sub => "-"
  | bitOr => "|" | bitXor => "^" | bitAnd => "&"
  | shiftLeft => "<<" | shiftRight => ">>"
  | mul => "*" | div => "/" | mod => "%"
  | other s => s

/-- The operator of any spelling. -/
def ofText : String → BinaryOp
  | "||" => logicalOr | "&&" => logicalAnd
  | "==" => equal | "!=" => notEqual | "<" => less | "<=" => lessEqual | ">" => greater
  | ">=" => greaterEqual
  | "+" => add | "-" => sub
  | "|" => bitOr | "^" => bitXor | "&" => bitAnd
  | "<<" => shiftLeft | ">>" => shiftRight
  | "*" => mul | "/" => div | "%" => mod
  | s => other s

end BinaryOp

/-- An expression tree. -/
inductive Expr where
  | literal (value : Int)
  | text (text : String)
  | symbol (name : String)
  | unary (op : UnaryOp) (operand : Expr)
  | binary (op : BinaryOp) (left right : Expr)
  | call (function : Function) (args : List Expr)
  deriving Repr

namespace Expr

/-! ## Equality -/

mutual

/-- Equality of trees is decidable. -/
def decEq : (a b : Expr) → Decidable (a = b)
  | literal m, b => match b with
    | literal n => decidable_of_iff (m = n) (by simp)
    | text _ | symbol _ | unary .. | binary .. | call .. => isFalse (fun h => by cases h)
  | text s, b => match b with
    | text t => decidable_of_iff (s = t) (by simp)
    | literal _ | symbol _ | unary .. | binary .. | call .. => isFalse (fun h => by cases h)
  | symbol s, b => match b with
    | symbol t => decidable_of_iff (s = t) (by simp)
    | literal _ | text _ | unary .. | binary .. | call .. => isFalse (fun h => by cases h)
  | unary o x, b => match b with
    | unary p y =>
      have := decEq x y
      decidable_of_iff (o = p ∧ x = y) (by simp)
    | literal _ | text _ | symbol _ | binary .. | call .. => isFalse (fun h => by cases h)
  | binary o x y, b => match b with
    | binary p z w =>
      have := decEq x z
      have := decEq y w
      decidable_of_iff (o = p ∧ x = z ∧ y = w) (by simp)
    | literal _ | text _ | symbol _ | unary .. | call .. => isFalse (fun h => by cases h)
  | call f xs, b => match b with
    | call g ys =>
      have := decEqList xs ys
      decidable_of_iff (f = g ∧ xs = ys) (by simp)
    | literal _ | text _ | symbol _ | unary .. | binary .. => isFalse (fun h => by cases h)

def decEqList : (a b : List Expr) → Decidable (a = b)
  | [], [] => isTrue rfl
  | [], _ :: _ => isFalse (fun h => by cases h)
  | _ :: _, [] => isFalse (fun h => by cases h)
  | x :: xs, y :: ys =>
    have := decEq x y
    have := decEqList xs ys
    decidable_of_iff (x = y ∧ xs = ys) (by simp)

end

instance : DecidableEq Expr := decEq

/-! ## Printed form -/

/-- A number as it is printed: a single digit in decimal, other nonnegative numbers in hexadecimal.
-/
def renderLiteral (v : Int) : String :=
  if v < 10 then toString v else Word.dollarHex v

/-- A character of a text as it stands between double quotes. -/
def escapedChar (c : Char) : List Char :=
  if c = '\\' || c = '"' then ['\\', c] else [c]

/-- A text between double quotes. -/
def renderText (s : String) : String :=
  String.ofList ('"' :: s.toList.flatMap escapedChar ++ ['"'])

/-- The expression is printed in brackets as an operand. -/
def isOperation : Expr → Bool
  | unary .. | binary .. => true
  | _ => false

mutual

/-- The printed form of an expression. -/
def render : Expr → String
  | literal v => renderLiteral v
  | text s => renderText s
  | symbol name => name
  | unary op e => op.text ++ (if e.isOperation then "(" ++ render e ++ ")" else render e)
  | binary op a b =>
    (if a.isOperation then "(" ++ render a ++ ")" else render a) ++ " " ++ op.text ++ " "
      ++ (if b.isOperation then "(" ++ render b ++ ")" else render b)
  | call f args => f.word ++ "(" ++ Text.join ", " (renderAll args) ++ ")"

/-- The printed forms of expressions. -/
def renderAll : List Expr → List String
  | [] => []
  | e :: rest => render e :: renderAll rest

end

/-! ## Names -/

/-- Names appended to a list unless they are in it already. -/
def mergeNames (names more : List String) : List String :=
  names ++ more.filter fun n => !names.contains n

mutual

/-- The names an expression refers to, in order of appearance and without repetition. -/
def symbols : Expr → List String
  | literal _ => []
  | text _ => []
  | symbol name => [name]
  | unary _ e => symbols e
  | binary _ a b => mergeNames (symbols a) (symbols b)
  | call _ args => symbolsAll [] args

/-- The names that expressions refer to, after those already found. -/
def symbolsAll (found : List String) : List Expr → List String
  | [] => found
  | e :: rest => symbolsAll (mergeNames found (symbols e)) rest

end

end Expr

end Sm83
