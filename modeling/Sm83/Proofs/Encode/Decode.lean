import Sm83.Encode

/-!
# The opcode map

The opcode map of the processor, read backwards: from an opcode to the operation it stands for and
the registers, the condition or the bit index it works on. A byte has three fields, of two, three
and three bits, and the map is laid out by them; the second page, after `$CB`, is laid out the same
way.
-/

namespace Sm83

/-- An operand as far as it shows in an opcode. Of an expression it shows that there is one; the
index of a bit shows as a number. -/
inductive Slot where
  | register (r : Reg)
  | condition (k : Condition)
  | pointer (p : Pointer)
  | memory
  | immediate
  | stackOffset
  | index (n : Int)
  deriving DecidableEq, Repr

/-- An operation with its operands, as far as they show in the opcode. -/
structure Entry where
  mnemonic : Mnemonic
  slots : List Slot
  deriving DecidableEq, Repr

namespace Entry

/-- Operands of eight bits by field code. -/
def narrow : List Slot := [
  .register .b, .register .c, .register .d, .register .e, .register .h, .register .l, .pointer .hl,
  .register .a]

/-- Registers of sixteen bits by field code. -/
def wide : List Slot := [.register .bc, .register .de, .register .hl, .register .sp]

/-- Registers that can be pushed, by field code. -/
def stacked : List Slot := [.register .bc, .register .de, .register .hl, .register .af]

/-- Pointers for transfers with the accumulator, by field code. -/
def pointers : List Slot := [.pointer .bc, .pointer .de, .pointer .hli, .pointer .hld]

/-- Conditions by field code. -/
def conditions : List Slot := [.condition .nz, .condition .z, .condition .nc, .condition .c]

/-- Operations on the accumulator by field code. -/
def operations : List Mnemonic := [.add, .adc, .sub, .sbc, .and, .xor, .or, .cp]

/-- Rotations and shifts by field code. -/
def rotations : List Mnemonic := [.rlc, .rrc, .rl, .rr, .sla, .sra, .swap, .srl]

/-- Operations on the accumulator and the flags that take no operand, by field code. -/
def adjustments : List Mnemonic := [.rlca, .rrca, .rla, .rra, .daa, .cpl, .scf, .ccf]

/-- Relative jumps and what stands beside them. -/
def jumpColumn : Nat → Option Entry
  | 0 => some ⟨.nop, []⟩
  | 1 => some ⟨.ld, [.memory, .register .sp]⟩
  | 2 => none
  | 3 => some ⟨.jr, [.immediate]⟩
  | y + 4 => conditions[y]?.map fun k => ⟨.jr, [k, .immediate]⟩

/-- The entries of the first quarter in row `y` and column `z`. -/
def firstQuarter (y z : Nat) : Option Entry :=
  match z with
  | 0 => jumpColumn y
  | 1 => wide[y / 2]?.map fun r =>
      if y % 2 = 0 then ⟨.ld, [r, .immediate]⟩ else ⟨.add, [.register .hl, r]⟩
  | 2 => pointers[y / 2]?.map fun p =>
      if y % 2 = 0 then ⟨.ld, [p, .register .a]⟩ else ⟨.ld, [.register .a, p]⟩
  | 3 => wide[y / 2]?.map fun r => if y % 2 = 0 then ⟨.inc, [r]⟩ else ⟨.dec, [r]⟩
  | 4 => narrow[y]?.map fun r => ⟨.inc, [r]⟩
  | 5 => narrow[y]?.map fun r => ⟨.dec, [r]⟩
  | 6 => narrow[y]?.map fun r => ⟨.ld, [r, .immediate]⟩
  | _ => adjustments[y]?.map fun m => ⟨m, []⟩

/-- Loads between operands of eight bits; the place of the load of the memory at `hl` onto itself is
taken by `halt`. -/
def moves (y z : Nat) : Option Entry :=
  if y = 6 ∧ z = 6 then some ⟨.halt, []⟩
  else narrow[y]?.bind fun target => narrow[z]?.map fun source => ⟨.ld, [target, source]⟩

/-- Operations on the accumulator with operands of eight bits. -/
def arithmetic (y z : Nat) : Option Entry :=
  operations[y]?.bind fun m => narrow[z]?.map fun source => ⟨m, [source]⟩

/-- Returns on a condition, and the short loads. -/
def returnColumn : Nat → Option Entry
  | 4 => some ⟨.ldh, [.memory, .register .a]⟩
  | 5 => some ⟨.add, [.register .sp, .immediate]⟩
  | 6 => some ⟨.ldh, [.register .a, .memory]⟩
  | 7 => some ⟨.ld, [.register .hl, .stackOffset]⟩
  | y => conditions[y]?.map fun k => ⟨.ret, [k]⟩

/-- Pops, and what goes on from the stack or from `hl`. -/
def popColumn : Nat → Option Entry
  | 1 => some ⟨.ret, []⟩
  | 3 => some ⟨.reti, []⟩
  | 5 => some ⟨.jp, [.register .hl]⟩
  | 7 => some ⟨.ld, [.register .sp, .register .hl]⟩
  | y => stacked[y / 2]?.map fun r => ⟨.pop, [r]⟩

/-- Jumps on a condition, and loads of the accumulator. -/
def branchColumn : Nat → Option Entry
  | 4 => some ⟨.ld, [.pointer .c, .register .a]⟩
  | 5 => some ⟨.ld, [.memory, .register .a]⟩
  | 6 => some ⟨.ld, [.register .a, .pointer .c]⟩
  | 7 => some ⟨.ld, [.register .a, .memory]⟩
  | y => conditions[y]?.map fun k => ⟨.jp, [k, .immediate]⟩

/-- The jump and the interrupt switches. -/
def switchColumn : Nat → Option Entry
  | 0 => some ⟨.jp, [.immediate]⟩
  | 6 => some ⟨.di, []⟩
  | 7 => some ⟨.ei, []⟩
  | _ => none

/-- Pushes and the call. -/
def pushColumn : Nat → Option Entry
  | 1 => some ⟨.call, [.immediate]⟩
  | 3 | 5 | 7 => none
  | y => stacked[y / 2]?.map fun r => ⟨.push, [r]⟩

/-- The entries of the last quarter in row `y` and column `z`. -/
def lastQuarter (y z : Nat) : Option Entry :=
  match z with
  | 0 => returnColumn y
  | 1 => popColumn y
  | 2 => branchColumn y
  | 3 => switchColumn y
  | 4 => conditions[y]?.map fun k => ⟨.call, [k, .immediate]⟩
  | 5 => pushColumn y
  | 6 => operations[y]?.map fun m => ⟨m, [.immediate]⟩
  | _ => none

/-- The entry of a byte with the fields `x`, `y` and `z`. -/
def ofFields (x y z : Nat) : Option Entry :=
  match x with
  | 0 => firstQuarter y z
  | 1 => moves y z
  | 2 => arithmetic y z
  | _ => lastQuarter y z

/-- The entry of a byte of the second page with the fields `x`, `y` and `z`. -/
def ofPageFields (x y z : Nat) : Option Entry :=
  match x with
  | 0 => rotations[y]?.bind fun m => narrow[z]?.map fun r => ⟨m, [r]⟩
  | 1 => narrow[z]?.map fun r => ⟨.bit, [.index y, r]⟩
  | 2 => narrow[z]?.map fun r => ⟨.res, [.index y, r]⟩
  | _ => narrow[z]?.map fun r => ⟨.set, [.index y, r]⟩

end Entry

/-- The operation that an opcode stands for, with what it works on. -/
def decode (opcode : Nat) : Option Entry :=
  let x := opcode % 256 / 64
  let y := opcode % 64 / 8
  let z := opcode % 8
  if opcode < 0x100 then Entry.ofFields x y z
  else if opcode = 0x1000 then some ⟨.stop, []⟩
  else if opcode / 256 = 0xCB then Entry.ofPageFields x y z
  else none

/-- Bytes that are no opcode: the mark of the second page, and those the processor does not know. -/
def holes : List Nat :=
  [0xCB, 0xD3, 0xDB, 0xDD, 0xE3, 0xE4, 0xEB, 0xEC, 0xED, 0xF4, 0xFC, 0xFD]

/-- The opcode is one of the processor's: a byte with a meaning, `stop` with its second byte, or an
opcode of the second page. -/
def isDefined (opcode : Nat) : Bool :=
  (opcode < 0x100 && !holes.contains opcode) || opcode == 0x1000 ||
    (0xCB00 ≤ opcode && opcode ≤ 0xCBFF)

/-- The opcodes of the eight restarts. -/
def restarts : List Nat :=
  [0xC7, 0xCF, 0xD7, 0xDF, 0xE7, 0xEF, 0xF7, 0xFF]

theorem decode_isSome_byte : ∀ opcode < 0x100, (decode opcode).isSome =
    (isDefined opcode && !restarts.contains opcode && opcode != 0x10) := by
  decide +kernel

theorem ofPageFields_isSome : ∀ x < 4, ∀ y < 8, ∀ z < 8, (Entry.ofPageFields x y z).isSome =
    true := by
  decide +kernel

/-- The map has an entry for every opcode of the processor other than the restarts and the first
byte of `stop` by itself. -/
theorem decode_isSome_iff {opcode : Nat} : (decode opcode).isSome = true ↔
    isDefined opcode = true ∧ opcode ∉ restarts ∧ opcode ≠ 0x10 := by
  by_cases hbyte : opcode < 0x100
  · rw [decode_isSome_byte opcode hbyte]
    simp [and_assoc]
  · have hrestart : opcode ∉ restarts := by
      intro hmem
      have hall : ∀ n ∈ restarts, n < 0x100 := by decide
      exact hbyte (hall opcode hmem)
    by_cases hstop : opcode = 0x1000
    · subst hstop
      decide
    · -- above one byte only the second page is left, and it is full
      have hpage : isDefined opcode = decide (opcode / 256 = 0xCB) := by
        rw [Bool.eq_iff_iff]
        simp only [isDefined, hbyte, beq_eq_false_iff_ne.mpr hstop, decide_false, Bool.false_and,
          Bool.false_or, Bool.and_eq_true, decide_eq_true_eq]
        omega
      simp only [decode, if_neg hbyte, if_neg hstop, hpage, decide_eq_true_eq]
      split
      · next hcb =>
        rw [ofPageFields_isSome _ (by omega) _ (by omega) _ (by omega)]
        simp only [hcb, hrestart, true_and, true_iff, not_false_eq_true]
        omega
      · next hcb => simp [hcb]

end Sm83
