import Sm83.Command.Basic

/-!
# The command on files in memory

A host that holds its files, its input and what has been written to its two outputs.
-/

namespace Sm83.Command

/-- All that the command can see and change. -/
structure World where
  files : Files
  input : String
  out : String
  err : String
  deriving DecidableEq, Repr

def World.host : Host (StateM World) where
  find path := do pure ((← get).files.find path)
  read path := do pure ((← get).files.read path)
  write path text := do
    match (← get).files.write path text with
    | .ok files =>
      modify fun w => { w with files := files }
      pure (.ok ())
    | .error fault => pure (.error fault)
  input := do pure (← get).input
  out text := modify fun w => { w with out := w.out ++ text }
  err text := modify fun w => { w with err := w.err ++ text }

def World.run (w : World) (env : String → Option String) (args : List String) :
    Except UsageFault Exit × World :=
  (Command.run World.host env args).run w

end Sm83.Command
