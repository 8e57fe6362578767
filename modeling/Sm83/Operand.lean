import Sm83.Expr.Basic

/-!
# Operands

The shapes an instruction's operands come in, and the field codes that opcodes are made of. The
carry condition is spelled like the register `c`: it is read as the register, and an encoding takes
it for the condition where one is called for.
-/

namespace Sm83

/-- A register. The memory at `hl` counts as one more register of eight bits; a name that is no
register is kept as `other` and fits no instruction. -/
inductive Reg where
  | a | b | c | d | e | h | l | atHl
  | af | bc | de | hl | sp
  | other (name : String)
  deriving DecidableEq, Repr

namespace Reg

/-- The spelling of a register. -/
def word : Reg → String
  | a => "a" | b => "b" | c => "c" | d => "d" | e => "e" | h => "h" | l => "l" | atHl => "[hl]"
  | af => "af" | bc => "bc" | de => "de" | hl => "hl" | sp => "sp"
  | other name => name

/-- The registers that have a word of their own. -/
def all : List Reg := [a, b, c, d, e, h, l, af, bc, de, hl, sp]

/-- The register a lower-case word spells. -/
def ofWord? (w : String) : Option Reg :=
  all.find? fun r => r.word == w

def ofName (name : String) : Reg :=
  if name = atHl.word then atHl else (ofWord? name).getD (other name)

/-- The field code of a register of eight bits. -/
def code8? : Reg → Option Nat
  | b => some 0 | c => some 1 | d => some 2 | e => some 3 | h => some 4 | l => some 5
  | atHl => some 6 | a => some 7
  | _ => none

/-- The field code of a register of sixteen bits. -/
def code16? : Reg → Option Nat
  | bc => some 0 | de => some 1 | hl => some 2 | sp => some 3
  | _ => none

/-- The field code of a register that can be pushed. -/
def stackCode? : Reg → Option Nat
  | bc => some 0 | de => some 1 | hl => some 2 | af => some 3
  | _ => none

end Reg

/-- A condition on the flags. -/
inductive Condition where
  | nz | z | nc | c
  | other (name : String)
  deriving DecidableEq, Repr

namespace Condition

def word : Condition → String
  | nz => "nz" | z => "z" | nc => "nc" | c => "c" | other name => name

/-- The condition a lower-case word spells, the carry condition apart. -/
def ofWord? (w : String) : Option Condition :=
  [nz, z, nc].find? fun k => k.word == w

def ofName (name : String) : Condition :=
  ([nz, z, nc, c].find? fun k => k.word == name).getD (other name)

def code? : Condition → Option Nat
  | nz => some 0 | z => some 1 | nc => some 2 | c => some 3
  | other _ => none

end Condition

/-- A register in brackets, standing for the memory it points to. `hli` and `hld` move the pointer
along after the access. -/
inductive Pointer where
  | hl | bc | de | hli | hld | c
  | other (name : String)
  deriving DecidableEq, Repr

namespace Pointer

/-- The spelling of a pointer between its brackets. -/
def word : Pointer → String
  | hl => "hl" | bc => "bc" | de => "de" | hli => "hli" | hld => "hld" | c => "c"
  | other name => name

/-- The pointer a lower-case word spells. -/
def ofWord? (w : String) : Option Pointer :=
  [hl, bc, de, hli, hld, c].find? fun p => p.word == w

def ofName (name : String) : Pointer :=
  (ofWord? name).getD (other name)

/-- The field code of a pointer for transfers with the accumulator. -/
def code? : Pointer → Option Nat
  | bc => some 0 | de => some 1 | hli => some 2 | hld => some 3
  | _ => none

end Pointer

/-- An operand of an instruction. -/
inductive Operand where
  | register (r : Reg)
  | condition (k : Condition)
  | pointer (p : Pointer)
  | memory (address : Expr)
  | immediate (value : Expr)
  | stackOffset (offset : Expr)
  deriving DecidableEq, Repr

namespace Operand

def shape : Operand → String
  | register _ => "register"
  | condition _ => "condition"
  | pointer _ => "indirect register"
  | memory _ => "memory address"
  | immediate _ => "immediate"
  | stackOffset _ => "sp offset"

/-- The name of the register, condition or pointer. -/
def word? : Operand → Option String
  | register r => some r.word
  | condition k => some k.word
  | pointer p => some p.word
  | _ => none

def expr? : Operand → Option Expr
  | memory e | immediate e | stackOffset e => some e
  | _ => none

/-- The printed form of an operand. -/
def render : Operand → String
  | register r => r.word
  | condition k => k.word
  | pointer p => "[" ++ p.word ++ "]"
  | memory e => "[" ++ e.render ++ "]"
  | immediate e => e.render
  | stackOffset e => "sp + " ++ e.render

def renderAll (operands : List Operand) : String :=
  Text.join ", " (operands.map render)

/-- The field code of an operand of eight bits, the memory at `hl` among them. -/
def code8? : Operand → Option Nat
  | register r => r.code8?
  | pointer .hl => some 6
  | _ => none

/-- The field code of a register of sixteen bits. -/
def code16? : Operand → Option Nat
  | register r => r.code16?
  | _ => none

/-- The field code of a register that can be pushed. -/
def stackCode? : Operand → Option Nat
  | register r => r.stackCode?
  | _ => none

/-- The field code of a condition; the register `c` counts as carry. -/
def conditionCode? : Operand → Option Nat
  | condition k => k.code?
  | register .c => some 3
  | _ => none

end Operand

end Sm83
