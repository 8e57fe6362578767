import Sm83.Error.Basic

/-!
# Making sections

A section must fit its memory region: its address lies in the region's window and has the alignment
it asks for, and only banked regions take a bank.
-/

namespace Sm83

namespace Section

def checkAddress (region : Region) (address : Int) : Except Cause Unit :=
  if region.window.1 ≤ address ∧ address ≤ region.window.2 then .ok ()
  else .error (.range (.window address region))

def checkBank (region : Region) (bank : Int) : Except Cause Unit :=
  match region.banks? with
  | none => .error (.placement (.notBanked region))
  | some (low, high) =>
    if low ≤ bank ∧ bank ≤ high then .ok () else .error (.placement (.bankRange bank region))

/-- The alignment is at most sixteen bits, and a fixed address has it. -/
def checkAlignment (address : Option Int) (alignment : Int) : Except Cause Unit :=
  if 0 ≤ alignment ∧ alignment ≤ 16 then
    match address with
    | some a =>
      if a % Nat.pow 2 alignment.toNat = 0 then .ok () else .error
        (.placement (.misaligned a alignment))
    | none => .ok ()
  else .error (.placement (.alignmentRange alignment))

/-- The section, if it fits its region. -/
def make (s : Section) : Except Cause Section := do
  if let some a := s.address then checkAddress s.region a
  if let some b := s.bank then checkBank s.region b
  if let some n := s.alignment then checkAlignment s.address n
  pure s

end Section

end Sm83
