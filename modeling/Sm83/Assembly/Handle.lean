import Sm83.Run.Line

/-!
# Acting on statements

Assertions, printing, and the messages a source asks for are dealt with as soon as their line has
been read, in the state of that moment.
-/

namespace Sm83

namespace Step

/-! ## Diagnostics -/

/-- Collects a diagnostic and stops if that was one error too many. -/
def collect (f : Diagnostics → Diagnostics × Option Cause) : Step Unit := do
  let (diagnostics, tooMany) := f (← get).diagnostics
  modify fun r => { r with diagnostics := diagnostics }
  match tooMany with
  | some cause => stop cause
  | none => pure ()

def warn (location : Location) (message : String) : Step Unit := do
  note [.warned location message]
  collect fun d => d.addWarning message (some location)

/-- Collects an error. -/
def complain (location : Location) (message : String) : Step Unit :=
  collect fun d => d.addError message (some location)

/-! ## Assertions -/

/-- What a false assertion is reported as. -/
def assertionMessage (a : Assertion) : String :=
  match a.message with
  | some m => if m.isEmpty then "assertion failed: " ++ a.condition.render else m
  | none => "assertion failed: " ++ a.condition.render

/-- Acts on a false assertion. -/
def refute (location : Location) (a : Assertion) : Step Unit := do
  match a.gravity with
  | .warn => warn location (assertionMessage a)
  | .fail => complain location (assertionMessage a)
  | .fatal =>
    let line := (← get).stream.source.line? location.line
    throw (.error ⟨.assertion a.message, some location, line⟩)

/-- Checks an assertion and tells whether it could be decided. -/
def decideAssertion (location : Location) (a : Assertion) : Step (Except (List String) Unit) := do
  match a.condition.value (← resolver) with
  | .error (.deferred missing) =>
    if a.isStatic then stop (.notConstant missing) else pure (.error missing)
  | .error o => stop o.cause
  | .ok v =>
    if v = 0 then refute location a
    pure (.ok ())

/-- Checks an assertion as it is read. One that cannot be decided yet is kept for the end. -/
def firstCheck (location : Location) (a : Assertion) : Step Unit := do
  match ← decideAssertion location a with
  | .ok () => pure ()
  | .error missing =>
    note [.assertionDeferred location missing]
    modify fun r => { r with pending := r.pending ++ [(location, a)] }

/-! ## Printing -/

/-- The argument stands for a text. -/
def isText (s : State) : Expr → Bool
  | .text _ => true
  | .call f _ => f.yieldsText
  | .symbol name => (s.lookup name).any fun symbol => symbol.kind = .equs
  | _ => false

def printedNumber (d : Directive) (v : Int) : String :=
  match d with
  | .printInteger => toString v
  | .printFixed => Fixed.decimal v
  | _ => Word.dollarHex v

def printed (s : State) (d : Directive) (e : Expr) : Except Cause String :=
  if d = .printText || isText s e then e.constantText s.resolver
  else (e.constant s.resolver).map (printedNumber d)

def print (d : Directive) (args : List Expr) : Step Unit := do
  let parts ← ofExcept (args.mapM (printed (← get).state d))
  let text := Text.join "" parts ++ (if d = .printLine then "\n" else "")
  modify fun r => { r with output := r.output ++ [text] }

/-! ## All statements -/

def messageText (args : List Expr) : Step String := do
  let r ← resolver
  let parts ← ofExcept (args.mapM fun e => e.constantText r)
  pure (Text.join "" parts)

def obey (location : Location) (d : Directive) (args : List Expr) : Step Unit := do
  if d.isPrint then print d args
  else match d with
    | .warn => warn location (← messageText args)
    | .fail => complain location (← messageText args)
    | _ => pure ()

def exprs (args : List Argument) : List Expr :=
  args.filterMap fun
    | .expr e => some e
    | .word _ => none

/-- Gives errors of an action that have no place the place of a statement. -/
def locatedStatement {α : Type} (location : Location) (action : Step α) : Step α := do
  locatedAt location ((← get).stream.source.line? location.line) action

def handle (statement : Statement) : Step Unit :=
  locatedStatement statement.location <|
    match statement.form with
    | .assertion a => firstCheck statement.location a
    | .directive d args => obey statement.location d (exprs args)
    | _ => pure ()

end Step

end Sm83
