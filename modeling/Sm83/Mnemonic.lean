/-!
# Mnemonics

The instruction names of the processor.
-/

namespace Sm83

/-- An instruction name. -/
inductive Mnemonic where
  | adc | add | and | bit | call | ccf | cp | cpl | daa | dec
  | di | ei | halt | inc | jp | jr | ld | ldi | ldd | ldh
  | nop | or | pop | push | res | ret | reti | rst
  | rl | rla | rlc | rlca | rr | rra | rrc | rrca
  | sbc | scf | set | sla | sra | srl | stop | sub | swap | xor
  deriving DecidableEq, Repr

namespace Mnemonic

def all : List Mnemonic := [
  adc, add, and, bit, call, ccf, cp, cpl, daa, dec,
  di, ei, halt, inc, jp, jr, ld, ldi, ldd, ldh,
  nop, or, pop, push, res, ret, reti, rst,
  rl, rla, rlc, rlca, rr, rra, rrc, rrca,
  sbc, scf, set, sla, sra, srl, stop, sub, swap, xor]

def word : Mnemonic → String
  | adc => "adc" | add => "add" | and => "and" | bit => "bit" | call => "call" | ccf => "ccf"
  | cp => "cp" | cpl => "cpl" | daa => "daa" | dec => "dec" | di => "di" | ei => "ei"
  | halt => "halt" | inc => "inc" | jp => "jp" | jr => "jr" | ld => "ld" | ldi => "ldi"
  | ldd => "ldd" | ldh => "ldh" | nop => "nop" | or => "or" | pop => "pop" | push => "push"
  | res => "res" | ret => "ret" | reti => "reti" | rst => "rst" | rl => "rl" | rla => "rla"
  | rlc => "rlc" | rlca => "rlca" | rr => "rr" | rra => "rra" | rrc => "rrc" | rrca => "rrca"
  | sbc => "sbc" | scf => "scf" | set => "set" | sla => "sla" | sra => "sra" | srl => "srl"
  | stop => "stop" | sub => "sub" | swap => "swap" | xor => "xor"

/-- The mnemonic a lower-case word spells. -/
def ofWord? (w : String) : Option Mnemonic :=
  all.find? fun m => m.word == w

end Mnemonic

end Sm83
