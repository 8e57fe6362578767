import Sm83.Text.Blank
import Sm83.Text.CaseTable

/-!
# Upper and lower case

Full case mapping of text. A mapping may lengthen the text, and the capital sigma has two lower-case
forms: the final one stands at the end of a word.
-/

namespace Sm83.Text

/-- Small letters and their capitals, those that alternate included. -/
def smallLetters : List (Nat × Nat × Nat) :=
  caseRuns ++ alternatingRuns.flatMap fun r =>
    (List.range r.2).map fun i => (r.1 + 2 * i, 1, r.1 + 2 * i - 1)

/-- The image of a code point under the runs of a case table. -/
def runImage? (runs : List (Nat × Nat × Nat)) (n : Nat) : Option Char :=
  (runs.find? fun r => r.1 ≤ n && n < r.1 + r.2.1).map fun r => Char.ofNat (n - r.1 + r.2.2)

/-- The image of a character under a case table with its expansions. -/
def caseImage (runs : List (Nat × Nat × Nat)) (expansions : List (Nat × List Nat))
    (c : Char) : List Char :=
  match runImage? runs c.toNat with
  | some d => [d]
  | none =>
    match expansions.find? fun e => e.1 == c.toNat with
    | some e => e.2.map Char.ofNat
    | none => [c]

def upperImage (c : Char) : List Char :=
  if c.toNat < 128 then [c.toUpper]
  else caseImage (smallLetters ++ upperRuns) (upperExpansions ++ iotaRuns.flatMap fun r =>
    (List.range 8).map fun i => (r.1 + i, [r.2 + i, 921])) c

/-- The lower case of a character taken by itself. -/
def lowerImage (c : Char) : List Char :=
  if c.toNat < 128 then [c.toLower]
  else caseImage (smallLetters.map (fun r => (r.2.2, r.2.1, r.1)) ++ lowerRuns) lowerExpansions c

/-- Ignoring what context skips, the next character has a case. -/
def meetsCased (cs : List Char) : Bool :=
  match cs.dropWhile (inRuns caseIgnorableRuns ·.toNat) with
  | [] => false
  | c :: _ => inRuns casedRuns c.toNat

/-- The lower case of characters, given the ones before them nearest first. -/
def lowerAfter : List Char → List Char → List Char
  | _, [] => []
  | before, c :: rest =>
    let image :=
      if c = 'Σ' then
        if meetsCased before && !meetsCased rest then ['ς'] else ['σ']
      else lowerImage c
    image ++ lowerAfter (c :: before) rest

/-- Text in upper case. -/
def upper (s : String) : String :=
  String.ofList (s.toList.flatMap upperImage)

/-- Text in lower case. -/
def lower (s : String) : String :=
  String.ofList (lowerAfter [] s.toList)

end Sm83.Text
