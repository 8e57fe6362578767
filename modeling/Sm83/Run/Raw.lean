import Sm83.Run.Basic

/-!
# Raw parts of lines

Macro arguments and options are raw arguments; macro bodies and repeated bodies are raw blocks. The
mode is asked for right after the word that calls for it has been consumed, before anything behind
that word has been read.
-/

namespace Sm83

namespace Step

/-- Raw arguments up to the end of the line; `isOpen` says that the argument at this place has not
been read yet. Empty arguments count, except that a line may have none at all. -/
def moreArguments : Nat → (isOpen : Bool) → List String → Step (List String)
  | 0, _, _ => throw .exhausted
  | n + 1, isOpen, args => do
    let t ← peek
    match t.lexeme with
    | .rawText s =>
      discard (advanceAs .argument)
      moreArguments n false (args ++ [s])
    | .punct .comma =>
      discard (advanceAs .argument)
      moreArguments n true (if isOpen then args ++ [""] else args)
    | .newline | .eof =>
      discard (advanceAs .argument)
      request .normal
      pure (if isOpen && !args.isEmpty then args ++ [""] else args)
    | _ => fail t .rawArgument

/-- The raw arguments behind the word just consumed, with the end of their line. -/
def rawArguments : Step (List String) := do
  request .arguments
  moreArguments (← bound) true []

/-- The raw block behind the line being read. -/
def rawBlock (closing opening : String) : Step String := do
  request (.block closing opening)
  let body ← advanceAs .block
  request .normal
  pure (body.lexeme.text?.getD "")

def macroBody (name : Token) (spelling : String) : Step Statement := do
  discard advance
  let body ← rawBlock Directive.macroEnd.word Directive.macroStart.word
  endLine
  note [.macroDefined spelling (body.toList.count '\n')]
  pure ⟨← locationOf name, .macroBody spelling body⟩

def macroCall (spelling : String) : Step Statement := do
  let name ← advance
  let args ← rawArguments
  pure ⟨← locationOf name, .macroCall spelling args⟩

def repetition : Step Statement := do
  let word ← advance
  let count ← expression
  let t ← peek
  match t.lexeme with
  | .newline =>
    discard advance
    let body ← rawBlock Directive.repeatEnd.word Directive.repeatStart.word
    pure ⟨← locationOf word, .repetition count body⟩
  | .eof => throw (.error ⟨.grammar .unterminatedRepeat, some (← locationOf word), none⟩)
  | _ => fail t .repeatLineEnd

end Step

end Sm83
