import Sm83.Section.Make
import Sm83.State.Symbol
import Sm83.Table

/-!
# The state of an assembly

The symbols of one unit of source, the global label that local names belong to, the exports asked
for ahead of their definitions, and the bookkeeping of sections: the current one, the load block
open in it, how far each has got, and the contexts put aside. An operation that fails changes
nothing.
-/

namespace Sm83

/-- A section context that has been put aside. -/
structure Context where
  current : Option Section
  pc : Int
  load : Option Section
  loadPc : Int
  deriving DecidableEq, Repr

/-- The state of an assembly. -/
structure State where
  exportAll : Bool
  symbols : Table Symbol
  scope : Option String
  pendingExports : Table (Option Location)
  sections : Table Section
  current : Option Section
  pc : Int
  load : Option Section
  loadPc : Int
  sizes : Table Int
  stack : List Context
  deriving DecidableEq, Repr

namespace State

/-- The symbol that holds the storage cursor. -/
def storageName : String := "_RS"

/-- The storage cursor is a variable like any other, except that it can be neither removed nor
defined as anything else. -/
def storageSymbol : Symbol :=
  ⟨storageName, .set, .number 0, false, none, none⟩

/-- The state before the first line. -/
def fresh (exportAll : Bool) : State :=
  { exportAll := exportAll
    symbols := Table.empty.insert storageName storageSymbol
    scope := none
    pendingExports := .empty
    sections := .empty
    current := none
    pc := 0
    load := none
    loadPc := 0
    sizes := .empty
    stack := [] }

/-! ## Looking up -/

def lookup (s : State) (name : String) : Option Symbol :=
  s.symbols.get? name

/-- The address of a place, known outside sections and in sections at a fixed address. -/
def address? (s : State) (placed : Option String) (offset : Int) : Option Int :=
  match placed with
  | none => some offset
  | some name => ((s.sections.get? name).bind Section.address).map (· + offset)

/-- The value of a symbol, if it is known: a label has one when its address is known. -/
def valueOf (s : State) (symbol : Symbol) : Option Value :=
  match symbol.kind, symbol.value with
  | .label, .number offset =>
    match symbol.placed with
    | none => some (.number offset)
    | some _ => (s.address? symbol.placed offset).map fun a => .number (Word.wrap a)
  | _, v => some v

def lookupValue (s : State) (name : String) : Option Value :=
  (s.lookup name).bind s.valueOf

def isDefined (s : State) (name : String) : Bool :=
  s.symbols.contains name

/-- What the state knows of names. -/
def resolver (s : State) : Resolver :=
  ⟨s.lookupValue, s.isDefined⟩

/-! ## Scope -/

/-- The full name of a local spelling under the current global label. -/
def resolveLocal (s : State) (spelling : String) : Except Cause String :=
  match s.scope with
  | some label => .ok (label ++ spelling)
  | none => .error (.noScope spelling)

/-- The full name of a spelling. -/
def qualify (s : State) (spelling : String) : Except Cause String :=
  if spelling.toList.head? = some '.' then s.resolveLocal spelling else .ok spelling

/-! ## Definitions -/

/-- Puts a new symbol in the table. An export asked for earlier takes effect. -/
def enter (s : State) (symbol : Symbol) : Symbol × State :=
  let entered :=
    { symbol with exported := symbol.exported || s.pendingExports.contains symbol.name }
  (entered,
    { s with
      symbols := s.symbols.insert symbol.name entered
      pendingExports := s.pendingExports.erase symbol.name })

/-- Adds a symbol. A variable gives way to a symbol of any kind, and stays exported; another value
for it leaves everything else as it was. The storage cursor stays a variable. -/
def add (s : State) (symbol : Symbol) : Except Error (Symbol × State) :=
  match s.lookup symbol.name with
  | none => .ok (s.enter symbol)
  | some old =>
    if old.kind = .set ∧ (symbol.kind = .set ∨ symbol.name ≠ storageName) then
      if symbol.kind = .set then
        let updated := { old with value := symbol.value }
        .ok (updated, { s with symbols := s.symbols.insert symbol.name updated })
      else .ok (s.enter { symbol with exported := symbol.exported || old.exported })
    else .error ⟨.redefinition symbol.name old.location, symbol.location, none⟩

/-- Adds a symbol under its full name. -/
def define (s : State) (spelling : String) (symbol : String → Symbol) :
    Except Error (Symbol × State) :=
  match s.qualify spelling with
  | .ok name => s.add (symbol name)
  | .error cause => .error (.unlocated cause)

/-- Defines a label at the current place. A global label becomes the one local names belong to. -/
def defineLabel (s : State) (spelling : String) (exported : Bool) (location : Option Location) :
    Except Error (Symbol × State) :=
  let offset := if s.load.isSome then s.loadPc else s.pc
  let placed := (s.load <|> s.current).map Section.name
  match s.define spelling fun name =>
      ⟨name, .label, .number offset, exported || s.exportAll, placed, location⟩ with
  | .error e => .error e
  | .ok (symbol, s') =>
    .ok (symbol, if isLocalName symbol.name then s' else { s' with scope := some symbol.name })

def defineConstant (s : State) (spelling : String) (value : Int) (exported : Bool)
    (location : Option Location) : Except Error (Symbol × State) :=
  s.define spelling fun name => ⟨name, .equ, .number (Word.wrap value), exported, none, location⟩

def defineVariable (s : State) (spelling : String) (value : Int) (location : Option Location) :
    Except Error (Symbol × State) :=
  s.define spelling fun name => ⟨name, .set, .number (Word.wrap value), false, none, location⟩

def defineText (s : State) (spelling : String) (text : String) (location : Option Location) :
    Except Error (Symbol × State) :=
  s.define spelling fun name => ⟨name, .equs, .text text, false, none, location⟩

/-- Exports a symbol, now if it is defined and otherwise when it is. -/
def exportName (s : State) (spelling : String) (location : Option Location) :
    Except Error State :=
  match s.qualify spelling with
  | .error cause => .error (.unlocated cause)
  | .ok name =>
    match s.lookup name with
    | some symbol =>
      .ok { s with symbols := s.symbols.insert name { symbol with exported := true } }
    | none =>
      if s.pendingExports.contains name then .ok s
      else .ok { s with pendingExports := s.pendingExports.insert name location }

/-- Removes a symbol that is neither a label nor exported nor built in. -/
def purge (s : State) (spelling : String) : Except Error State :=
  match s.qualify spelling with
  | .error cause => .error (.unlocated cause)
  | .ok name =>
    let refuse (f : String → PurgeFault) : Except Error State :=
      .error (.unlocated (.purge (f name)))
    match s.lookup name with
    | none => refuse .undefined
    | some symbol =>
      if name = storageName then refuse .builtIn
      else if symbol.kind = .label then refuse .label
      else if symbol.exported then refuse .exported
      else .ok { s with symbols := s.symbols.erase name }

/-! ## The storage cursor -/

/-- Where the next storage field goes. -/
def storage (s : State) : Int :=
  match (s.lookup storageName).map Symbol.value with
  | some (.number n) => n
  | _ => 0

/-- Moves the storage cursor to a place. -/
def resetStorage (s : State) (value : Int) : State :=
  match s.lookup storageName with
  | some symbol =>
    { s with
      symbols := s.symbols.insert storageName { symbol with value := .number (Word.wrap value) } }
  | none => s

/-- Moves the storage cursor past a field; the field starts where the cursor was. -/
def advanceStorage (s : State) (bytes : Int) : Int × State :=
  (s.storage, s.resetStorage (s.storage + bytes))

/-! ## Sections -/

/-- Remembers a section; a name stands for one section only. -/
def register (s : State) (block : Section) : Except Cause State :=
  match s.sections.get? block.name with
  | some existing =>
    if existing = block then .ok s
    else .error (.placement (.redeclared block.name existing))
  | none => .ok { s with sections := s.sections.insert block.name block }

/-- Notes how far the current section and the open load block have got. -/
def saveSizes (s : State) : State :=
  let sizes := match s.current with
    | some block => s.sizes.insert block.name s.pc
    | none => s.sizes
  let sizes := match s.load with
    | some block => sizes.insert block.name s.loadPc
    | none => sizes
  { s with sizes := sizes }

/-- How far a section had got when that was last noted. -/
def noted (s : State) (name : String) : Int :=
  (s.sizes.get? name).getD 0

/-- Goes on with a section where it was left. -/
def enterSection (s : State) (block : Section) : Except Error State :=
  match s.load with
  | some load => .error (.unlocated (.placement (.insideLoad block.name load.name)))
  | none =>
    match s.register block with
    | .error cause => .error (.unlocated cause)
    | .ok s =>
      let s := s.saveSizes
      .ok { s with current := some block, pc := s.noted block.name }

/-- Opens a load block: what follows stays in the current section, and its labels take their places
in the load section. -/
def enterLoad (s : State) (block : Section) : Except Error State :=
  match s.current, s.load with
  | none, _ => .error (.unlocated (.placement (.loadOutsideSection block.name)))
  | some _, some load =>
    .error (.unlocated (.placement (.loadInsideLoad block.name load.name)))
  | some _, none =>
    match s.register block with
    | .error cause => .error (.unlocated cause)
    | .ok s => .ok { s with load := some block, loadPc := s.noted block.name }

/-- Closes the load block. -/
def endLoad (s : State) : Except Error State :=
  match s.load with
  | none => .error (.unlocated (.placement .noLoad))
  | some load =>
    .ok { s with sizes := s.sizes.insert load.name s.loadPc, load := none, loadPc := 0 }

/-- Puts the section context aside and leaves all sections. -/
def pushSection (s : State) : State :=
  let s := s.saveSizes
  { s with
    stack := ⟨s.current, s.pc, s.load, s.loadPc⟩ :: s.stack
    current := none
    pc := 0
    load := none
    loadPc := 0 }

/-- Takes up the section context put aside last. -/
def popSection (s : State) : Except Error State :=
  match s.stack with
  | [] => .error (.unlocated (.placement .emptyStack))
  | context :: rest =>
    let s := s.saveSizes
    .ok { s with
      stack := rest
      current := context.current
      pc := match context.current with
        | some block => s.noted block.name
        | none => context.pc
      load := context.load
      loadPc := context.loadPc }

/-- Counts bytes in the current section and the open load block. -/
def advance (s : State) (bytes : Int) : State :=
  { s with
    pc := s.pc + bytes
    loadPc := if s.load.isSome then s.loadPc + bytes else s.loadPc }

/-- How far a section has got. -/
def sectionSize (s : State) (name : String) : Int × State :=
  let s := s.saveSizes
  (s.noted name, s)

def sortedSymbols (s : State) : List Symbol :=
  s.symbols.values.mergeSort fun a b => a.name ≤ b.name

end State

end Sm83
