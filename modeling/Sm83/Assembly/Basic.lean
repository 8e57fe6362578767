import Sm83.Assembly.Handle
import Sm83.Settings

/-!
# Assembling a source

A source is assembled in three parts: the symbols of the settings are defined, the lines are read
and acted on, and what had to wait is decided. What still depends on unknown names then is left
open.
-/

namespace Sm83

namespace Step

/-! ## What had to wait -/

/-- Decides an assertion that had to wait, and tells whether it remains open. -/
def lastCheck (location : Location) (a : Assertion) : Step Bool :=
  locatedStatement location do
    match ← decideAssertion location a with
    | .ok () => pure false
    | .error _ => pure true

/-- Decides the assertions that had to wait; those that remain open are kept. -/
def decidePending : Step Unit := do
  let undecided ← (← get).pending.filterM fun (location, a) => lastCheck location a
  modify fun r => { r with pending := undecided }

/-- Runs a check on the value of an expression, if it is known. -/
def checkKnown {α : Type} (r : Resolver) (e : Expr) (check : Int → Except Cause α) :
    Except Cause Unit :=
  match e.value r with
  | .ok v => discard (check v)
  | .error (.incomplete f) => .error (.incomplete f)
  | .error _ => .ok ()

/-- The expression whose value bounds are for: the address of which an operand is the low byte, or
else the operand itself. -/
def boundedPart : Expr → Expr
  | .call .low (address :: _) => address
  | e => e

/-- The checks of an instruction that need the whole source, and its address if that is known. -/
def checkRecord (r : Resolver) (address : Option Int) : Record → Except Cause Unit
  | .restart target => checkKnown r target restartOpcode
  | .jump _ target =>
    match address with
    | some a => checkKnown r target fun v => jumpDisplacement v a
    | none => .ok ()
  | .arg8 _ operand (some bounds) => checkKnown r (boundedPart operand) bounds.check
  | _ => .ok ()

/-- Checks a statement once the whole source has been read. -/
def checkStatement (statement : Statement) : Step Unit := do
  match statement.form with
  | .instruction _ _ record offset placed =>
    locatedStatement statement.location do
      let s := (← get).state
      ofExcept (checkRecord s.resolver (s.address? placed offset) record)
  | _ => pure ()

/-- Decides what had to wait for the whole source. -/
def resolve : Step Unit := do
  decidePending
  (← get).statements.forM checkStatement

/-! ## The three parts -/

/-- Defines the symbols of the settings. -/
def predefine (settings : Settings) : Step Unit :=
  settings.defines.entries.forM fun (name, value) =>
    discard (define fun s => s.defineConstant name value false none)

/-- Reads and acts on all lines. The statements count only if all of them can be read. -/
def readAll : Step Unit := fun r =>
  match parse handle r with
  | .error f r' => .error f { r' with statements := [] }
  | result => result

/-- Notes what has come of the source. -/
def summarize : Step Unit := do
  let r ← get
  note [.assembled r.stream.source.file r.statements.length r.state.symbols.size
    (r.diagnostics.count .error) (r.diagnostics.count .warning)]

/-- Assembles the source of the run. -/
def assemble (settings : Settings) : Step Unit := do
  predefine settings
  readAll
  resolve
  summarize

end Step

/-- The run of a source under settings before anything has been read. -/
def Run.initial (settings : Settings) (source : Source) : Run :=
  .start source (.fresh settings.exportAll)
    (.empty settings.maxErrors settings.warningsAsErrors)

def assemble (settings : Settings) (source : Source) : EStateM.Result Failure Run Unit :=
  Step.assemble settings (.initial settings source)

end Sm83
