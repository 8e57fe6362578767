import Sm83.Command.Memory
import Sm83.Main
import Sm83.Proofs.Encode.Opcodes
import Sm83.Proofs.Assembly.Late
import Sm83.Proofs.Assembly.Silent
import Sm83.Proofs.Run.Places
import Sm83.Proofs.Run.Sugar
import Sm83.Proofs.Encode.Column
import Sm83.Proofs.Run.Data
import Sm83.Proofs.State.Stack
import Sm83.Proofs.State.Queries
import Sm83.Proofs.Run.Declared
import Sm83.Proofs.Token.Lookahead
import Sm83.Proofs.Run.Commented
import Sm83.Proofs.Token.Resume
import Sm83.Proofs.Run.Layout
import Sm83.Proofs.Run.Offset
import Sm83.Proofs.Run.Arguments
import Sm83.Proofs.Run.Unterminated
import Sm83.Proofs.Token.Literal
import Sm83.Proofs.Assembly.Printed
import Sm83.Proofs.Expr.Texts
