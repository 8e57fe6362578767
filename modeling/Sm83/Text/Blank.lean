/-!
# White space

The white-space characters that separate words of free text: the blanks and line ends of ASCII, the
four information separators, and the space characters of the wider repertoire. `trim` and `words`
cut text at them.
-/

namespace Sm83.Text

/-- A character is listed by a table of closed ranges of code points. -/
def inRanges (table : List (Nat × Nat)) (c : Char) : Bool :=
  table.any fun r => r.1 ≤ c.toNat && c.toNat ≤ r.2

/-- A code point is listed by a table of run lengths: so many that are not listed, so many that are,
and so on. -/
def inRuns : List Nat → Nat → Bool
  | skipped :: listed :: rest, n =>
    if n < skipped then false else n < skipped + listed || inRuns rest (n - skipped - listed)
  | _, _ => false

def spaceRanges : List (Nat × Nat) := [
  (0x0009, 0x000D), (0x001C, 0x0020), (0x0085, 0x0085), (0x00A0, 0x00A0), (0x1680, 0x1680),
  (0x2000, 0x200A), (0x2028, 0x2029), (0x202F, 0x202F), (0x205F, 0x205F), (0x3000, 0x3000)]

/-- White space of any kind. -/
def isSpace (c : Char) : Bool :=
  inRanges spaceRanges c

/-- Characters without the white space at either end. -/
def trimmed (cs : List Char) : List Char :=
  ((cs.dropWhile isSpace).reverse.dropWhile isSpace).reverse

/-- Text without the white space at either end. -/
def trim (s : String) : String :=
  String.ofList (trimmed s.toList)

/-- The maximal runs of characters that are not white space, in order. -/
def words : List Char → List (List Char)
  | [] => []
  | c :: rest =>
    if isSpace c then words rest
    else match rest, words rest with
      | d :: _, w :: ws => if isSpace d then [c] :: w :: ws else (c :: w) :: ws
      | _, ws => [c] :: ws

end Sm83.Text
