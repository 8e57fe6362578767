import Sm83.Text.Layout

/-!
# Words

Numbers of the assembler are signed 32-bit words. `wrap` brings any integer into that range by
dropping high bits, and the bitwise operators act on the two's-complement pattern.
-/

namespace Sm83

namespace Word

/-- The number of words. -/
abbrev modulus : Nat := 0x100000000

/-- The signed word that agrees with an integer modulo `2 ^ 32`. -/
def wrap (v : Int) : Int :=
  v.bmod modulus

/-- A word lies in the signed range. -/
theorem wrap_mem_range (v : Int) : -0x80000000 ≤ wrap v ∧ wrap v < 0x80000000 := by
  have low : -((0x100000000 : Nat) / 2 : Int) ≤ wrap v := Int.le_bmod (by decide)
  have high : wrap v < ((0x100000000 : Nat) + 1 : Int) / 2 := Int.bmod_lt (by decide)
  omega

/-- A number in the signed range is its own word. -/
theorem wrap_eq_self {v : Int} (low : -0x80000000 ≤ v) (high : v < 0x80000000) : wrap v = v :=
  Int.bmod_eq_of_le (by simp only [modulus]; omega) (by simp only [modulus]; omega)

@[simp] theorem wrap_wrap (v : Int) : wrap (wrap v) = wrap v :=
  wrap_eq_self (wrap_mem_range v).1 (wrap_mem_range v).2

/-- The unsigned reading of a word. -/
def unsigned (v : Int) : Nat :=
  (v % modulus).toNat

/-- The word of a truth value. -/
def ofBool (b : Bool) : Int :=
  if b then 1 else 0

/-- The bit pattern of a word. -/
def bits (v : Int) : BitVec 32 :=
  BitVec.ofInt 32 v

/-- Bitwise conjunction. -/
def and (a b : Int) : Int :=
  (bits a &&& bits b).toInt

/-- Bitwise disjunction. -/
def or (a b : Int) : Int :=
  (bits a ||| bits b).toInt

/-- Bitwise exclusive disjunction. -/
def xor (a b : Int) : Int :=
  (bits a ^^^ bits b).toInt

/-- A shift to the left; from 32 places on nothing is left. -/
def shiftLeft (v : Int) (count : Nat) : Int :=
  if 32 ≤ count then 0 else v * Nat.pow 2 count

/-- An arithmetic shift to the right; from 31 places on only the sign is left. -/
def shiftRight (v : Int) (count : Nat) : Int :=
  v / Nat.pow 2 (if 31 ≤ count then 31 else count)

/-- A word in hexadecimal, read as unsigned and marked with a dollar sign. -/
def dollarHex (v : Int) : String :=
  "$" ++ Text.hex 1 (unsigned v)

end Word

end Sm83
