import Sm83.Assembly.Basic
import Sm83.Assembly.Report
import Sm83.Command.Arguments
import Sm83.Command.Files
import Sm83.Definition
import Sm83.Text.Control

/-!
# The command

The command assembles one file, prints what the source prints, reports what is wrong with it, and
writes the symbol table and the listing that were asked for. It is written over the means a host
gives it, so that it runs on files in memory as well as on real ones.
-/

namespace Sm83.Command

/-- How the command ends: success, a source that cannot be assembled, wrong arguments, and failures
that are nobody's mistake. -/
inductive Exit where
  | success
  | buildError
  | badArguments
  | internalError
  deriving DecidableEq, Repr

/-- The number that the command ends with. -/
def Exit.code : Exit → Nat
  | success => 0
  | buildError => 1
  | badArguments => 2
  | internalError => 3

/-- What a host lets the command do. -/
structure Host (m : Type → Type) where
  find : String → m Found
  read : String → m (Except PathFault String)
  write : String → String → m (Except PathFault Unit)
  input : m String
  out : String → m Unit
  err : String → m Unit

/-- The name and version of the program. -/
def versionLine : String := "gbasm, version 0.1.0\n"

/-- How the program is used. -/
def usageLine : String := "Usage: gbasm [OPTIONS] INPUT_FILE\n"

/-- Why the command stops before its end. -/
inductive Stop where
  | definition (fault : DefinitionFault)
  | path (fault : PathFault)
  | source (failure : Failure)
  | rejected
  deriving DecidableEq, Repr

/-- What is said about a stop, and how the command ends. -/
def Stop.outcome : Stop → String × Exit
  | definition fault => ("Error: " ++ fault.message ++ "\n", .badArguments)
  | path fault =>
    if fault.isUsers then ("Error: " ++ fault.message ++ "\n", .badArguments)
    else ("Internal error: " ++ fault.message ++ "\n", .internalError)
  | source (.error e) => (e.render ++ "\n", .buildError)
  | source (.numeral fault) => ("Internal error: " ++ fault.message ++ "\n", .internalError)
  | source .exhausted => ("Internal error: out of steps\n", .internalError)
  | rejected => ("", .buildError)

/-- The settings of the environment as the options change them. -/
def settings (env : String → Option String) (o : Options) : Settings :=
  let s := Settings.ofEnvironment env
  { s with
    logLevel := match o.logLevel with
      | some level => level
      | none => if o.verbose then "INFO" else s.logLevel
    exportAll := s.exportAll || o.exportAll
    warningsAsErrors := s.warningsAsErrors || o.werror }

/-- The settings with the symbols that the options define. -/
def define (s : Settings) : List String → Except DefinitionFault Settings
  | [] => .ok s
  | text :: rest => do
    let d ← Definition.read text
    define (s.define d.name d.value) rest

section

variable {m : Type → Type} [Monad m] (host : Host m)

/-- Prints a message. -/
def tell (text : String) : m Unit :=
  host.out (Text.uncontrolled text)

/-- Prints a message about something that is wrong. -/
def complain (text : String) : m Unit :=
  host.err (Text.uncontrolled text)

/-- Logs the events that matter enough, control sequences included. -/
def log (s : Settings) (events : List Event) : m Unit :=
  (events.filter fun e => s.logRank ≤ e.level.rank).forM fun e => host.err (e.render ++ "\n")

/-- What is wrong with the path of a file to be written, if anything. -/
def outputFault? (path : Option String) : m (Option UsageFault) := do
  match path with
  | none => pure none
  | some path =>
    if (← host.find path) = .directory then pure (some (.isDirectory path)) else pure none

/-- What is wrong with the path of the input, if anything. A dash stands for standard input. -/
def inputFault? (path : String) : m (Option UsageFault) := do
  if path = "-" then pure none
  else match ← host.find path with
    | .file => pure none
    | .directory => pure (some (.isDirectory path))
    | .nothing => pure (some (.noSuchFile path))

/-- What is wrong with the paths, if anything. -/
def pathFault? (o : Options) : m (Option UsageFault) := do
  let input ← inputFault? host o.input
  let symbols ← outputFault? host o.symbols
  let listing ← outputFault? host o.listing
  pure (input <|> symbols <|> listing)

def load (s : Settings) (path : String) : ExceptT Stop m Source := do
  if path = "-" then
    pure (.ofText (← host.input) "<stdin>")
  else
    ExceptT.lift (log host s [.fileStarted path])
    match ← host.read path with
    | .ok text => pure (.ofText text path)
    | .error fault => throw (.path fault)

/-- Writes a text that was asked for. -/
def save (s : Settings) (path : Option String) (text : String) (event : String → Event) :
    ExceptT Stop m Unit := do
  match path.map plainPath with
  | none => pure ()
  | some path =>
    match ← host.write path text with
    | .ok () => ExceptT.lift (log host s [event path])
    | .error fault => throw (.path fault)

/-- Prints the output of a run and reports its diagnostics. -/
def present (r : Run) : ExceptT Stop m Unit := do
  ExceptT.lift (tell host (Text.join "" r.output))
  if !r.diagnostics.entries.isEmpty then
    ExceptT.lift (complain host (r.diagnostics.report ++ "\n"))
  if r.diagnostics.hasErrors then throw .rejected

/-- Assembles a file and writes what was asked for. -/
def process (s : Settings) (o : Options) : ExceptT Stop m Unit := do
  let s ← match define s o.defines with
    | .ok s => pure s
    | .error fault => throw (.definition fault)
  let input := plainPath o.input
  let source ← load host s input
  match assemble s source with
  | .error failure r =>
    ExceptT.lift (log host s r.events)
    throw (.source failure)
  | .ok () r =>
    ExceptT.lift (log host s r.events)
    present host r
    save host s o.symbols r.state.symbolTable .symbolsWritten
    save host s o.listing (listing r.statements) .listingWritten
    if o.verbose then
      ExceptT.lift (tell host ("Assembled " ++ input ++ ": " ++ toString r.statements.length
        ++ " statements, " ++ toString r.state.symbols.size ++ " symbols\n"))

/-- Carries out a task. -/
def perform (env : String → Option String) : Request → m (Except UsageFault Exit)
  | .version => do
    tell host versionLine
    pure (.ok .success)
  | .help => do
    tell host usageLine
    pure (.ok .success)
  | .assemble o => do
    match ← pathFault? host o with
    | some fault => pure (.error fault)
    | none =>
      match ← (process host (settings env o) o).run with
      | .ok () => pure (.ok .success)
      | .error stop =>
        let (text, exit) := stop.outcome
        complain host text
        pure (.ok exit)

/-- Runs the command. Wrong arguments are told apart from everything else. -/
def run (env : String → Option String) (args : List String) : m (Except UsageFault Exit) :=
  match request args with
  | .error fault => pure (.error fault)
  | .ok task => perform host env task

end

end Sm83.Command
