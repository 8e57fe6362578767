import Sm83.Directive
import Sm83.Expr.Function
import Sm83.Mnemonic
import Sm83.Region
import Sm83.Text.Case

/-!
# Reserved words

Every word that is never a symbol name, in any letter case.
-/

namespace Sm83

namespace Keyword

/-- Words for registers, among them the two that move `hl` along. -/
def registers : List String :=
  ["a", "b", "c", "d", "e", "h", "l", "af", "bc", "de", "hl", "sp", "hli", "hld"]

/-- Words for conditions; carry is spelled like the register. -/
def conditions : List String := ["nz", "z", "nc"]

/-- Words for section attributes. -/
def attributes : List String := ["bank", "align"]

/-- Every reserved word. -/
def all : List String :=
  Mnemonic.all.map Mnemonic.word ++ registers ++ conditions ++ Directive.all.map Directive.word
    ++ Region.all.map Region.word ++ attributes ++ Function.builtin.map Function.word

/-- The word is reserved as it is spelled. -/
def isReserved (w : String) : Bool :=
  all.contains w

/-- The word is reserved in some letter case. -/
def isKeyword (w : String) : Bool :=
  isReserved (Text.lower w)

end Keyword

end Sm83
