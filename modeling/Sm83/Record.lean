import Sm83.Error.Basic

/-!
# Instruction records

An encoded instruction: its opcode and what is known of its operand. Opcodes above `$FF` take two
bytes, the more significant first. The checks that need addresses run later and stand here as well.
-/

namespace Sm83

/-- The number of bytes of an opcode. -/
def opcodeSize (opcode : Nat) : Nat :=
  if 0xFF < opcode then 2 else 1

/-- The bytes of an opcode, the more significant first. -/
def opcodeBytes (opcode : Nat) : List Nat :=
  if 0xFF < opcode then [opcode / 256, opcode % 256] else [opcode]

/-- Bytes in hexadecimal, separated by spaces. -/
def renderBytes (bytes : List Nat) : String :=
  Text.join " " (bytes.map (Text.hex 2))

/-! ## Later checks -/

/-- Bounds on a value that was not known when the instruction was encoded. -/
structure RangeCheck where
  low : Int
  high : Int
  description : String
  deriving DecidableEq, Repr

namespace RangeCheck

/-- The value, if it lies within the bounds. -/
def check (c : RangeCheck) (v : Int) : Except Cause Int :=
  if c.low ≤ v ∧ v ≤ c.high then .ok v else .error (.range (.bounds c.description c.low c.high v))

/-- The page of memory that short loads reach. -/
def highRam : RangeCheck :=
  ⟨0xFF00, 0xFFFF, "ldh address"⟩

end RangeCheck

/-- The displacement of a relative jump, counted from the end of its two bytes. -/
def jumpDisplacement (target address : Int) : Except Cause Int :=
  let d := target - (address + 2)
  if -128 ≤ d ∧ d ≤ 127 then .ok d else .error (.range (.jump d))

def isRestartVector (v : Int) : Bool :=
  0 ≤ v && v ≤ 0x38 && v % 8 == 0

def restartOpcode (v : Int) : Except Cause Nat :=
  if isRestartVector v then .ok (0xC7 ||| v.toNat) else .error (.range (.restart v))

/-! ## Records -/

/-- An encoded instruction. A relative jump keeps its target, since the displacement depends on
where the instruction ends up; a restart keeps its vector, on which the opcode depends. -/
inductive Record where
  | noArg (opcode : Nat)
  | arg8 (opcode : Nat) (operand : Expr) (check : Option RangeCheck)
  | arg16 (opcode : Nat) (operand : Expr)
  | jump (opcode : Nat) (target : Expr)
  | restart (target : Expr)
  deriving DecidableEq, Repr

namespace Record

/-- The number of bytes an instruction takes. -/
def size : Record → Nat
  | noArg opcode => opcodeSize opcode
  | arg8 opcode .. => opcodeSize opcode + 1
  | arg16 opcode _ => opcodeSize opcode + 2
  | jump .. => 2
  | restart _ => 1

/-- The opcode, where it does not depend on the operand. -/
def opcode? : Record → Option Nat
  | noArg opcode | arg8 opcode .. | arg16 opcode _ | jump opcode _ => some opcode
  | restart _ => none

/-- The bytes of the opcode; those of a restart are known once its vector is. -/
def codeBytes : Record → Except Cause (List Nat)
  | noArg opcode | arg8 opcode .. | arg16 opcode _ | jump opcode _ => .ok (opcodeBytes opcode)
  | restart (.literal v) => (restartOpcode v).map fun opcode => [opcode]
  | restart _ => .ok []

/-- The operand is known. -/
def resolved : Record → Bool
  | noArg _ => true
  | arg8 _ (.literal _) _ | arg16 _ (.literal _) | restart (.literal _) => true
  | _ => false

/-- The bytes of an instruction, with question marks for those not known yet. -/
def code : Record → String
  | noArg opcode => renderBytes (opcodeBytes opcode)
  | arg8 opcode (.literal v) _ => renderBytes (opcodeBytes opcode ++ [(v % 256).toNat])
  | arg8 opcode .. => renderBytes (opcodeBytes opcode) ++ " ??"
  | arg16 opcode (.literal v) =>
    renderBytes (opcodeBytes opcode ++ [(v % 256).toNat, (v / 256 % 256).toNat])
  | arg16 opcode _ => renderBytes (opcodeBytes opcode) ++ " ?? ??"
  | jump opcode _ => Text.hex 2 opcode ++ " ??"
  | restart (.literal v) =>
    match restartOpcode v with
    | .ok opcode => Text.hex 2 opcode
    | .error _ => "??"
  | restart _ => "??"

/-- What the unknown bytes wait for. -/
def awaited? : Record → Option String
  | noArg _ => none
  | arg8 _ (.literal _) _ => none
  | arg8 _ e _ => some e.render
  | arg16 _ (.literal _) => none
  | arg16 _ e => some e.render
  | jump _ e => some e.render
  | restart e =>
    match e with
    | .literal v =>
      match restartOpcode v with
      | .ok _ => none
      | .error _ => some ("rst " ++ e.render)
    | _ => some ("rst " ++ e.render)

/-- The bytes of an instruction and what the unknown ones wait for. -/
def render (r : Record) : String :=
  match r.awaited? with
  | some awaited => r.code ++ " ; " ++ awaited
  | none => r.code

end Record

end Sm83
