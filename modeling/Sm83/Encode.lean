import Sm83.Expr.Operand
import Sm83.Mnemonic
import Sm83.Operand
import Sm83.Record
import Sm83.Text.Case

/-!
# Encoding instructions

A mnemonic and its operands determine an opcode, built from a base and the field codes of registers,
conditions and operations. Which operands a mnemonic takes never depends on the values of symbols.
-/

namespace Sm83

namespace Mnemonic

/-! ## Groups -/

/-- The opcode of an instruction that takes no operands. -/
def fixed? : Mnemonic → Option Nat
  | nop => some 0x00 | halt => some 0x76 | ccf => some 0x3F | cpl => some 0x2F | daa => some 0x27
  | di => some 0xF3 | ei => some 0xFB | reti => some 0xD9 | rla => some 0x17 | rlca => some 0x07
  | rra => some 0x1F | rrca => some 0x0F | scf => some 0x37 | stop => some 0x1000
  | _ => none

/-- The field code of an operation on the accumulator. -/
def alu? : Mnemonic → Option Nat
  | add => some 0 | adc => some 1 | sub => some 2 | sbc => some 3
  | and => some 4 | xor => some 5 | or => some 6 | cp => some 7
  | _ => none

/-- The base of a rotation or shift on the second opcode page. -/
def rotation? : Mnemonic → Option Nat
  | rlc => some 0x00 | rrc => some 0x08 | rl => some 0x10 | rr => some 0x18
  | sla => some 0x20 | sra => some 0x28 | swap => some 0x30 | srl => some 0x38
  | _ => none

/-- The operand forms that a mnemonic accepts, for hints. -/
def forms : Mnemonic → List String
  | add => ["add a, r8", "add a, n8", "add hl, r16", "add sp, e8"]
  | adc => ["adc a, r8", "adc a, n8"]
  | sub => ["sub a, r8", "sub a, n8"]
  | sbc => ["sbc a, r8", "sbc a, n8"]
  | and => ["and a, r8", "and a, n8"]
  | xor => ["xor a, r8", "xor a, n8"]
  | or => ["or a, r8", "or a, n8"]
  | cp => ["cp a, r8", "cp a, n8"]
  | inc => ["inc r8", "inc r16"]
  | dec => ["dec r8", "dec r16"]
  | bit => ["bit u3, r8"]
  | res => ["res u3, r8"]
  | set => ["set u3, r8"]
  | jp => ["jp n16", "jp cc, n16", "jp hl"]
  | jr => ["jr e8", "jr cc, e8"]
  | call => ["call n16", "call cc, n16"]
  | ret => ["ret", "ret cc"]
  | rst => ["rst vec"]
  | push => ["push r16stk"]
  | pop => ["pop r16stk"]
  | ld => [
      "ld r8, r8", "ld r8, n8", "ld r16, n16",
      "ld [r16], a", "ld a, [r16]", "ld [n16], a", "ld a, [n16]",
      "ld [c], a", "ld a, [c]", "ld [n16], sp", "ld hl, sp + e8", "ld sp, hl"]
  | ldi => ["ldi [hl], a", "ldi a, [hl]"]
  | ldd => ["ldd [hl], a", "ldd a, [hl]"]
  | ldh => ["ldh [n16], a", "ldh a, [n16]", "ldh [c], a", "ldh a, [c]"]
  | m => if m.rotation?.isSome then [m.word ++ " r8"] else [m.word]

/-- The forms of the mnemonic that a word spells in any letter case. -/
def formsOf (w : String) : List String :=
  match ofWord? (Text.lower w) with
  | some m => m.forms
  | none => []

end Mnemonic

namespace Encode

/-- The outcome of encoding operands: a record, or nothing when the operands have a shape that the
mnemonic does not take. -/
abbrev Shape := Except Cause (Option Record)

/-- The operands have no accepted shape. -/
def rejected : Shape := .ok none

/-- An instruction without operand bytes. -/
def plain (opcode : Nat) : Shape := .ok (some (.noArg opcode))

/-- An instruction with one operand byte. -/
def withByte (r : Resolver) (opcode : Nat) (field : Field) (e : Expr) : Shape :=
  (e.operand r field).map fun operand => some (.arg8 opcode operand none)

/-- An instruction with two operand bytes. -/
def withWord (r : Resolver) (opcode : Nat) (e : Expr) : Shape :=
  (e.operand r .word).map fun operand => some (.arg16 opcode operand)

def page (opcode : Nat) : Nat := 0xCB00 ||| opcode

/-! ## Arithmetic -/

/-- An instruction without operands. -/
def fixed (opcode : Nat) : List Operand → Shape
  | [] => plain opcode
  | _ => rejected

/-- An operation on the accumulator with a register or a number. -/
def alu (r : Resolver) (op : Nat) (source : Operand) : Shape :=
  match source.code8?, source with
  | some code, _ => plain (0x80 ||| op <<< 3 ||| code)
  | none, .immediate e => withByte r (0xC6 ||| op <<< 3) .byte e
  | none, _ => rejected

/-- An operation on the accumulator, which may be named or left out. -/
def accumulator (r : Resolver) (op : Nat) : List Operand → Shape
  | [source] => alu r op source
  | [.register .a, source] => alu r op source
  | _ => rejected

/-- Addition, which has forms for `hl` and `sp` too. -/
def addition (r : Resolver) : List Operand → Shape
  | [.register .hl, source] =>
    match source.code16? with
    | some code => plain (0x09 ||| code <<< 4)
    | none => rejected
  | [.register .sp, .immediate e] => withByte r 0xE8 .displacement e
  | [.register .sp, _] => rejected
  | operands => accumulator r 0 operands

/-- Increment and decrement; `direction` is zero to count up and one to count down. -/
def count (direction : Nat) : List Operand → Shape
  | [target] =>
    match target.code8?, target.code16? with
    | some code, _ => plain (0x04 ||| code <<< 3 ||| direction)
    | none, some code => plain (0x03 ||| code <<< 4 ||| direction <<< 3)
    | none, none => rejected
  | _ => rejected

/-! ## Bits -/

def rotation (base : Nat) : List Operand → Shape
  | [target] =>
    match target.code8? with
    | some code => plain (page (base ||| code))
    | none => rejected
  | _ => rejected

/-- A test, reset or set of one bit, whose index must be known. -/
def bitOperation (r : Resolver) (base : Nat) : List Operand → Shape
  | [.immediate e, target] =>
    match target.code8? with
    | some code => do
      let index ← e.constant r
      if 0 ≤ index ∧ index ≤ 7 then plain (page (base ||| index.toNat <<< 3 ||| code))
      else .error (.conversion index 3)
    | none => rejected
  | _ => rejected

/-! ## Control flow -/

def absoluteJump (r : Resolver) : List Operand → Shape
  | [.register .hl] => plain 0xE9
  | [.pointer .hl] => plain 0xE9
  | [.immediate e] => withWord r 0xC3 e
  | [condition, .immediate e] =>
    match condition.conditionCode? with
    | some code => withWord r (0xC2 ||| code <<< 3) e
    | none => rejected
  | _ => rejected

def subroutineCall (r : Resolver) : List Operand → Shape
  | [.immediate e] => withWord r 0xCD e
  | [condition, .immediate e] =>
    match condition.conditionCode? with
    | some code => withWord r (0xC4 ||| code <<< 3) e
    | none => rejected
  | _ => rejected

def subroutineReturn : List Operand → Shape
  | [] => plain 0xC9
  | [condition] =>
    match condition.conditionCode? with
    | some code => plain (0xC0 ||| code <<< 3)
    | none => rejected
  | _ => rejected

def relativeJump (r : Resolver) : List Operand → Shape
  | [.immediate e] => (e.fold r).map fun target => some (.jump 0x18 target)
  | [condition, .immediate e] =>
    match condition.conditionCode? with
    | some code => (e.fold r).map fun target => some (.jump (0x20 ||| code <<< 3) target)
    | none => rejected
  | _ => rejected

def restart (r : Resolver) : List Operand → Shape
  | [.immediate e] => (e.fold r).map fun target => some (.restart target)
  | _ => rejected

/-- A push or pop. -/
def stack (base : Nat) : List Operand → Shape
  | [target] =>
    match target.stackCode? with
    | some code => plain (base ||| code <<< 4)
    | none => rejected
  | _ => rejected

/-! ## Loads -/

/-- A load other than between operands of eight bits or into one of them. -/
def transfer (r : Resolver) (target source : Operand) : Shape :=
  match target, source with
  | .register reg, .immediate e =>
    match reg.code16? with
    | some code => withWord r (0x01 ||| code <<< 4) e
    | none => rejected
  | .register .hl, .stackOffset e => withByte r 0xF8 .displacement e
  | .register .hl, .register .sp => .ok (some (.arg8 0xF8 (.literal 0) none))
  | .register .sp, .register .hl => plain 0xF9
  | .memory e, .register .sp => withWord r 0x08 e
  | .memory e, .register .a => withWord r 0xEA e
  | .register .a, .memory e => withWord r 0xFA e
  | .register .a, .pointer .c => plain 0xF2
  | .pointer .c, .register .a => plain 0xE2
  | .pointer p, .register .a =>
    match p.code? with
    | some code => plain (0x02 ||| code <<< 4)
    | none => rejected
  | .register .a, .pointer p =>
    match p.code? with
    | some code => plain (0x0A ||| code <<< 4)
    | none => rejected
  | _, _ => rejected

/-- A load. The pattern for moving the memory at `hl` onto itself means something else. -/
def load (r : Resolver) : List Operand → Shape
  | [target, source] =>
    match target.code8?, source.code8?, source with
    | some t, some s, _ =>
      if t = 6 ∧ s = 6 then .error .haltPattern else plain (0x40 ||| t <<< 3 ||| s)
    | some t, none, .immediate e => withByte r (0x06 ||| t <<< 3) .byte e
    | _, _, _ => transfer r target source
  | _ => rejected

/-- A load through `hl` that moves it along; the accumulator as target sets one more bit. -/
def movingLoad (base : Nat) : List Operand → Shape
  | [.pointer .hl, .register .a] => plain base
  | [.register .a, .pointer .hl] => plain (base ||| 8)
  | _ => rejected

/-- An access to the highest page of memory. An address that is not known yet leaves a check behind.
-/
def highAccess (r : Resolver) (opcode : Nat) (address : Expr) : Shape :=
  match address.value r with
  | .error (.deferred _) => .ok (some (.arg8 opcode (.call .low [address]) (some .highRam)))
  | .error o => .error o.cause
  | .ok v =>
    if RangeCheck.highRam.low ≤ v ∧ v ≤ RangeCheck.highRam.high then
      .ok (some (.arg8 opcode (.literal (v % 256)) none))
    else .error (.range (.highRam v))

/-- A load that reaches the highest page of memory. -/
def highLoad (r : Resolver) : List Operand → Shape
  | [.register .a, .pointer .c] => plain 0xF2
  | [.pointer .c, .register .a] => plain 0xE2
  | [.register .a, .memory e] => highAccess r 0xF0 e
  | [.memory e, .register .a] => highAccess r 0xE0 e
  | _ => rejected

/-! ## All instructions -/

/-- The record for a mnemonic and operands of an accepted shape. -/
def shape (r : Resolver) (operands : List Operand) : Mnemonic → Shape
  | .ld => load r operands
  | .ldh => highLoad r operands
  | .ldi => movingLoad 0x22 operands
  | .ldd => movingLoad 0x32 operands
  | .jp => absoluteJump r operands
  | .jr => relativeJump r operands
  | .call => subroutineCall r operands
  | .ret => subroutineReturn operands
  | .rst => restart r operands
  | .push => stack 0xC5 operands
  | .pop => stack 0xC1 operands
  | .inc => count 0 operands
  | .dec => count 1 operands
  | .add => addition r operands
  | .bit => bitOperation r 0x40 operands
  | .res => bitOperation r 0x80 operands
  | .set => bitOperation r 0xC0 operands
  | m =>
    match m.fixed?, m.alu?, m.rotation? with
    | some opcode, _, _ => fixed opcode operands
    | _, some op, _ => accumulator r op operands
    | _, _, some base => rotation base operands
    | none, none, none => rejected

end Encode

def encode (r : Resolver) (m : Mnemonic) (operands : List Operand) : Except Cause Record :=
  match Encode.shape r operands m with
  | .error cause => .error cause
  | .ok (some record) => .ok record
  | .ok none =>
    let shown := Operand.renderAll operands
    .error (.operands m.word (if shown.isEmpty then "none" else shown) m.forms)

/-- The record of an instruction whose mnemonic is spelled in any letter case. -/
def encodeWord (r : Resolver) (w : String) (operands : List Operand) : Except Cause Record :=
  match Mnemonic.ofWord? (Text.lower w) with
  | some m => encode r m operands
  | none => .error (.grammar (.unknownInstruction (Text.lower w)))

end Sm83
