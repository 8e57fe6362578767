import Sm83.Region
import Sm83.Text.Layout

/-!
# Sections

A section asks for a block of code or data to be placed in a memory region.
-/

namespace Sm83

/-- A request to place a block of code or data. A load section is where code runs after it has been
copied there from the section that holds it. -/
structure Section where
  name : String
  region : Region
  address : Option Int
  bank : Option Int
  alignment : Option Int
  load : Bool
  deriving DecidableEq, Repr

def Section.render (s : Section) : String :=
  "\"" ++ s.name ++ "\", " ++ s.region.word
    ++ (match s.address with
      | some a => "[$" ++ Text.signedHex 4 a ++ "]"
      | none => "")
    ++ (match s.bank with
      | some b => ", bank[" ++ toString b ++ "]"
      | none => "")
    ++ (match s.alignment with
      | some n => ", align[" ++ toString n ++ "]"
      | none => "")

end Sm83
