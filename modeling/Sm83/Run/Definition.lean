import Sm83.Run.Raw

/-!
# Definitions

Labels, and the lines that give a name a value.
-/

namespace Sm83

namespace Step

def label (name : Token) (spelling : String) (exported : Bool) : Step Statement := do
  let location ← locationOf name
  let symbol ← located name (define fun s => s.defineLabel spelling exported (some location))
  pure ⟨location, .label symbol.name symbol.exported symbol.value symbol.placed⟩

/-- Defines a storage field of a number of units. The cursor moves first. -/
def storageField (spelling : String) (width : Int) (location : Option Location) : Step Symbol := do
  let count ← if ← atLineEnd then pure 1 else constant
  let offset := (← get).state.storage
  update fun s => (s.advanceStorage (count * width)).2
  define fun s => s.defineConstant spelling offset false location

/-- Gives a name its value by a definer that has been consumed. -/
def defineBy (definer : Definer) (spelling : String) (location : Option Location) : Step Symbol :=
    do
  match definer with
  | .equ =>
    let value ← constant
    define fun s => s.defineConstant spelling value false location
  | .set | .assign =>
    let value ← constant
    define fun s => s.defineVariable spelling value location
  | .equs =>
    let text ← constantText
    define fun s => s.defineText spelling text location
  | .rb => storageField spelling 1 location
  | .rw => storageField spelling 2 location
  | .rl => storageField spelling 4 location

def definer? : Lexeme → Option Definer
  | .punct .equals => some .assign
  | .keyword w => Definer.ofWord? w
  | _ => none

/-- The rest of a line that starts with the name it defines. -/
def definition (name : Token) (spelling : String) : Step Statement := do
  let t ← peek
  if t.lexeme.isKeyword Directive.macroStart.word then macroBody name spelling
  else match definer? t.lexeme with
    | none => fail t (.definition spelling)
    | some definer =>
      discard advance
      let location ← locationOf name
      let symbol ← located name (defineBy definer spelling (some location))
      endLine
      pure ⟨location, .symbol symbol.name symbol.kind symbol.value definer⟩

end Step

end Sm83
