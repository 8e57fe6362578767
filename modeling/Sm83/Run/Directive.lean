import Sm83.Run.Raw

/-!
# Directive lines

Sections, data, assertions, storage, exports, and the directives that are passed on as they are.
-/

namespace Sm83

namespace Step

/-! ## Sections -/

/-- The attributes a section declaration can have. -/
structure Attributes where
  bank : Option Int
  alignment : Option Int
  deriving DecidableEq, Repr

namespace Attributes

def get? (a : Attributes) (word : String) : Option Int :=
  if word = "bank" then a.bank else a.alignment

def set (a : Attributes) (word : String) (value : Int) : Attributes :=
  if word = "bank" then { a with bank := some value } else { a with alignment := some value }

end Attributes

def attribute? : Lexeme → Option String
  | .keyword w => if Keyword.attributes.contains w then some w else none
  | _ => none

/-- Attributes of a section, each with a comma before it; at most `n` of them. -/
def moreAttributes : Nat → Attributes → Step Attributes
  | 0, _ => throw .exhausted
  | n + 1, attributes => do
    if ← accept .comma then
      let t ← peek
      match attribute? t.lexeme with
      | none => fail t .attributeName
      | some word =>
        discard advance
        if (attributes.get? word).isSome then fail t (.freshAttribute word)
        else
          expect .leftBracket (.attributeStart word)
          let value ← constant
          expect .rightBracket (.attributeEnd word)
          moreAttributes n (attributes.set word value)
    else pure attributes

def region? : Lexeme → Option Region
  | .keyword w => Region.ofWord? w
  | _ => none

/-- The region of a section declaration. -/
def region : Step Region := do
  let t ← peek
  match region? t.lexeme with
  | some region =>
    discard advance
    pure region
  | none => fail t .region

def fixedAddress : Step (Option Int) := do
  if ← accept .leftBracket then
    let address ← constant
    expect .rightBracket .addressEnd
    pure (some address)
  else pure none

def enter (requested : Section) : Step Section := do
  let block ← ofExcept requested.make
  if block.load then
    change (fun s => s.enterLoad block) fun s => [.loadEntered block s.loadPc]
  else
    change (fun s => s.enterSection block) fun s => [.sectionEntered block s.pc]
  pure block

/-- A section or load block. -/
def placement (load : Bool) : Step Statement := do
  let word ← advance
  let name ← constantText
  expect .comma .sectionComma
  let region ← region
  let address ← fixedAddress
  let attributes ← moreAttributes (← bound) ⟨none, none⟩
  let block ← located word
    (enter ⟨name, region, address, attributes.bank, attributes.alignment, load⟩)
  pure ⟨← locationOf word, .placement block⟩

/-! ## Data -/

/-- The bytes of a unit of data. -/
def unitWidth : Directive → Int
  | .dw => 2
  | .dl => 4
  | _ => 1

/-- A value as data: texts stay, and known numbers must fit the unit. -/
def dataValue (r : Resolver) (width : Int) (e : Expr) : Except Cause Expr :=
  match e with
  | .text s => .ok (.text s)
  | e =>
    if width = 1 then e.operand r .byte
    else if width = 2 then e.operand r .word
    else e.fold r

/-- The bytes that a value occupies: a text one unit for each character. -/
def dataSize (width : Int) : Expr → Int
  | .text s => s.length * width
  | _ => width

/-- The bytes that values occupy. Data without any bytes reserves one unit. -/
def dataSizes (width : Int) (values : List Expr) : Int :=
  let size := values.foldr (fun e size => dataSize width e + size) 0
  if size = 0 then width else size

def values (d : Directive) : Step (List Expr × Int) := do
  let given ← expressions
  let r ← resolver
  let stored ← ofExcept (given.mapM (dataValue r (unitWidth d)))
  pure (stored, dataSizes (unitWidth d) given)

/-- A number of bytes to be reserved, and what to fill them with. -/
def reservation : Step (List Expr × Int) := do
  let count ← constant
  if count < 0 then stop (.grammar (.negativeCount count))
  else
    let fill : Step Expr := do
      let e ← expression
      ofExcept (e.operand (← resolver) .byte)
    let fills ← moreItems fill (← bound) []
    pure (fills, count)

/-- Data, counted in the current section. -/
def data (d : Directive) : Step Statement := do
  let word ← advance
  let (stored, size) ← located word (if d = .ds then reservation else values d)
  update fun s => s.advance size
  pure ⟨← locationOf word, .data d stored size⟩

/-! ## Assertions -/

def gravity? : Lexeme → Option Gravity
  | .keyword w => Gravity.ofWord? w
  | _ => none

/-- The gravity of an assertion, with the comma behind it. -/
def gravity : Step Gravity := do
  match gravity? (← peek).lexeme with
  | some g =>
    discard advance
    expect .comma .severityComma
    pure g
  | none => pure .fail

def assertion (isStatic : Bool) : Step Statement := do
  let word ← advance
  let gravity ← gravity
  let condition ← expression
  let message ← if ← accept .comma then some <$> constantText else pure none
  pure ⟨← locationOf word, .assertion ⟨gravity, condition, message, isStatic⟩⟩

/-! ## Symbols -/

/-- The name that a lexeme spells, global or local. -/
def spelling? : Lexeme → Option String
  | .name s | .localName s => some s
  | _ => none

/-- Exports or removes one symbol. -/
def symbolAction (d : Directive) : Step String := do
  let t ← peek
  match spelling? t.lexeme with
  | none => fail t .symbolName
  | some spelling =>
    discard advance
    let location ← locationOf t
    located t do
      let name ← ofExcept ((← get).state.qualify spelling)
      if d = .purge then change (fun s => s.purge name) fun _ => [.symbolPurged name]
      else
        change (fun s => s.exportName name (some location)) fun s =>
          if s.isDefined name then [] else [.exportPending name]
      pure name

/-- Symbols to be exported or removed. -/
def symbolList (d : Directive) : Step (List Argument) := do
  let first ← symbolAction d
  let names ← moreItems (symbolAction d) (← bound) [first]
  pure (names.map .word)

/-! ## All directives -/

/-- What a directive that has been consumed does, and its arguments. -/
def directiveArguments (d : Directive) : Step (List Argument) := do
  match d with
  | .loadEnd =>
    let left := (← get).state.load.map Section.name
    change State.endLoad fun _ => left.toList.map .loadLeft
    pure []
  | .sectionPush =>
    change (fun s => .ok s.pushSection) fun s => [.contextPushed s.stack.length]
    pure []
  | .sectionPop =>
    change State.popSection fun s => [.contextPopped s.current]
    pure []
  | .charmapPush | .charmapPop | .optionPush | .optionPop => pure []
  | .storageReset =>
    update fun s => s.resetStorage 0
    pure []
  | .storageSet =>
    let value ← constant
    update fun s => s.resetStorage value
    pure [.expr (.literal value)]
  | .exportNames | .globalNames | .purge => symbolList d
  | _ => (·.map .expr) <$> expressions

/-- A directive. Options read to the end of their line themselves. -/
def directive (d : Directive) : Step Statement := do
  let t ← peek
  match d with
  | .sectionStart => placement false
  | .loadStart => placement true
  | .db | .dw | .dl | .ds => data d
  | .assertion => assertion false
  | .staticAssertion => assertion true
  | .repeatStart => repetition
  | .option =>
    discard advance
    let args ← rawArguments
    pure ⟨← locationOf t, .directive d (args.map .word)⟩
  | .equ | .equs | .rb | .rw | .rl | .macroStart => fail t (.nameBefore d.word)
  | .ifCase | .elifCase | .elseCase | .endCase => fail t (.lineStart d.word)
  | .macroEnd | .repeatEnd | .fatal => fail t .otherDirective
  | _ =>
    discard advance
    let args ← directiveArguments d
    pure ⟨← locationOf t, .directive d args⟩

end Step

end Sm83
