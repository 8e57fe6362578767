import Sm83.Run.Definition
import Sm83.Run.Directive
import Sm83.Run.Instruction

/-!
# Lines

A line is empty, a part of a conditional, a definition, or an optional label with an instruction, a
directive or a macro call behind it. Its statements count only once all of it has been read.
-/

namespace Sm83

namespace Step

def conditional? : Lexeme → Option Directive
  | .keyword w => (Directive.ofWord? w).filter Directive.isConditional
  | _ => none

def conditional (d : Directive) : Step Statement := do
  let word ← advance
  let condition ← if d = .ifCase || d = .elifCase then some <$> expression else pure none
  endLine
  pure ⟨← locationOf word, .conditional d condition⟩

def declared? : Lexeme → Option String
  | .label s | .localLabel s => some s
  | _ => none

/-- The colon behind a label. Two of them export it, one does not. -/
def colon : Step (Option Bool) := do
  match (← peek).lexeme with
  | .punct .colon =>
    discard advance
    pure (some false)
  | .punct .doubleColon =>
    discard advance
    pure (some true)
  | _ => pure none

/-- What follows the label of a line, if it has one. -/
def body : Step (List Statement) := do
  let t ← peek
  match t.lexeme with
  | .newline | .eof =>
    endLine
    pure []
  | .name spelling =>
    let statement ← macroCall spelling
    pure [statement]
  | .keyword w =>
    match Mnemonic.ofWord? w, Directive.ofWord? w with
    | some m, _ =>
      let statement ← instruction m
      endLine
      pure [statement]
    | none, some d =>
      let statement ← directive d
      if d ≠ .option then endLine
      pure [statement]
    | none, none => fail t .statement
  | _ => fail t .statement

/-- A line that starts with the name it declares. -/
def declaration (spelling : String) : Step (List Statement) := do
  let name ← advance
  match ← colon with
  | none =>
    let statement ← definition name spelling
    pure [statement]
  | some exported =>
    if (← peek).lexeme.isKeyword Directive.macroStart.word then
      let statement ← definition name spelling
      pure [statement]
    else
      let statement ← label name spelling exported
      let rest ← body
      pure (statement :: rest)

def line : Step (List Statement) := do
  let t ← peek
  match t.lexeme with
  | .newline =>
    discard advance
    pure []
  | l =>
    match conditional? l, declared? l with
    | some d, _ =>
      let statement ← conditional d
      pure [statement]
    | none, some spelling => declaration spelling
    | none, none => body

/-- The statements of the next line, or nothing at the end of the source. Errors without a place get
that of the first token of the line. -/
def nextLine : Step (Option (List Statement)) := do
  let t ← peek
  if t.isEnd then pure none else some <$> located t line

def deliver (handle : Statement → Step Unit) (statement : Statement) : Step Unit := do
  modify fun r => { r with statements := r.statements ++ [statement] }
  handle statement

/-- Hands the statements of all lines over, at most `n` lines. -/
def lines (handle : Statement → Step Unit) : Nat → Step Unit
  | 0 => throw .exhausted
  | n + 1 => do
    match ← nextLine with
    | none => pure ()
    | some statements =>
      statements.forM (deliver handle)
      lines handle n

/-- Reads the whole source, handing each statement over as soon as its line has been read. -/
def parse (handle : Statement → Step Unit) : Step Unit := do
  lines handle (← bound)
  let r ← get
  note [.sourceRead r.statements.length r.stream.source.file]

end Step

/-- Reads a source from a state, handling no statements. -/
def Run.parse (source : Source) (state : State) : EStateM.Result Failure Run Unit :=
  Step.parse (fun _ => pure ()) (.start source state (.empty 100 false))

end Sm83
