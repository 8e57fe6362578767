import Sm83.Encode
import Sm83.Run.Basic

/-!
# Instruction lines

A mnemonic, its operands separated by commas, and the encoding of the instruction in the state of
the moment.
-/

namespace Sm83

namespace Step

/-- The offset behind the stack pointer. A minus sign negates all of the expression that follows. -/
def stackOffset (negative : Bool) : Step Operand := do
  discard advance
  let e ← expression
  pure (.stackOffset (if negative then .unary .neg e else e))

/-- A register operand, or an offset from the stack pointer. -/
def registerOperand (r : Reg) : Step Operand := do
  discard advance
  if r = .sp then
    match (← peek).lexeme with
    | .punct .plus => stackOffset false
    | .punct .minus => stackOffset true
    | _ => pure (.register r)
  else pure (.register r)

/-- A pointer in brackets. A sign behind `hl` moves it along. -/
def pointerOperand (p : Pointer) : Step Operand := do
  discard advance
  let p ←
    if p = .hl then do
      match (← peek).lexeme with
      | .punct .plus =>
        discard advance
        pure Pointer.hli
      | .punct .minus =>
        discard advance
        pure Pointer.hld
      | _ => pure p
    else pure p
  expect .rightBracket .closingBracket
  pure (.pointer p)

/-- The pointer to the highest page by the register `c`, written as a sum, comes next. -/
def highPointerAhead : Step Bool := do
  if (← peek).lexeme = .number 0xFF00 then
    if (← peekAt 1).lexeme.isPunct .plus then
      if (← peekAt 2).lexeme.isKeyword "c" then
        pure ((← peekAt 3).lexeme.isPunct .rightBracket)
      else pure false
    else pure false
  else pure false

def pointer? : Lexeme → Option Pointer
  | .keyword w => Pointer.ofWord? w
  | _ => none

def bracketed : Step Operand := do
  discard advance
  match pointer? (← peek).lexeme with
  | some p => pointerOperand p
  | none =>
    if ← highPointerAhead then
      discard advance
      discard advance
      discard advance
      discard advance
      pure (.pointer .c)
    else
      let address ← expression
      expect .rightBracket .closingBracket
      pure (.memory address)

def operand : Step Operand := do
  let t ← peek
  match t.lexeme with
  | .keyword w =>
    match Reg.ofWord? w, Condition.ofWord? w with
    | some r, _ => registerOperand r
    | none, some k =>
      discard advance
      pure (.condition k)
    | none, none => .immediate <$> expression
  | .punct .leftBracket => bracketed
  | _ => .immediate <$> expression

/-- Operands separated by commas, possibly none. -/
def operands : Step (List Operand) := do
  if ← atLineEnd then pure []
  else
    let first ← operand
    moreItems operand (← bound) [first]

/-- An instruction, encoded and counted in the current section. -/
def instruction (m : Mnemonic) : Step Statement := do
  let word ← advance
  let operands ← operands
  let record ← located word (do ofExcept (encode (← resolver) m operands))
  note (Event.ofEncoding m operands record)
  let s := (← get).state
  let offset := if s.load.isSome then s.loadPc else s.pc
  let placed := (s.load <|> s.current).map Section.name
  update fun s => s.advance record.size
  pure ⟨← locationOf word, .instruction m operands record offset placed⟩

end Step

end Sm83
