import Sm83.Command.Basic

/-!
# The program

The command on the files, the environment and the standard streams of the system.
-/

namespace Sm83.Command

def succeeds {α : Type} (action : IO α) : IO Bool := do
  try
    discard action
    pure true
  catch _ => pure false

/-- What stands at a path of the system. A directory can be opened and yet not be read. -/
def findOnSystem (path : String) : IO Found := do
  if ← succeeds (IO.FS.Handle.mk path .read) then
    if ← succeeds (do (← IO.FS.Handle.mk path .read).read 1) then pure .file else pure .directory
  else pure .nothing

def systemFault (path : String) (e : IO.Error) : IO PathFault := do
  match e with
  | .noFileOrDirectory .. => pure (.noSuchFile path)
  | .inappropriateType .. =>
    if (← findOnSystem path) = .directory then pure (.isDirectory path)
    else pure (.notDirectory path)
  | .invalidArgument _ code _ =>
    pure (if code = 36 then .nameTooLong path else .other (toString e))
  | e => pure (.other (toString e))

def attempt {α : Type} (path : String) (action : IO α) : IO (Except PathFault α) := do
  try
    let a ← action
    pure (.ok a)
  catch e => .error <$> systemFault path e

/-- All that comes over a stream. -/
partial def readAll (stream : IO.FS.Stream) (sofar : String) : IO String := do
  let line ← stream.getLine
  if line.isEmpty then pure sofar else readAll stream (sofar ++ line)

def systemHost : Host IO where
  find := findOnSystem
  read path := attempt path (IO.FS.readFile path)
  write path text := attempt path (IO.FS.writeFile path text)
  input := do readAll (← IO.getStdin) ""
  out text := do
    let stream ← IO.getStdout
    stream.putStr text
    stream.flush
  err text := do (← IO.getStderr).putStr text

def environment : IO (String → Option String) := do
  let values ← Settings.environmentNames.mapM fun name => do pure (name, ← IO.getEnv name)
  pure fun name => (values.lookup name).join

end Sm83.Command

/-- Runs the command. -/
def main (args : List String) : IO UInt32 := do
  match ← Sm83.Command.run Sm83.Command.systemHost (← Sm83.Command.environment) args with
  | .ok exit => pure exit.code.toUInt32
  | .error fault =>
    (← IO.getStderr).putStr (Sm83.Command.usageLine ++ "\nError: " ++ fault.message ++ "\n")
    pure 2
