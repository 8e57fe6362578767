import Sm83.State.Basic
import Sm83.Statement
import Sm83.Token.Register

/-!
# Events

What is worth noting while an assembly runs. Each event has a level, the part of the assembler it
comes from, and a wording.
-/

namespace Sm83

/-- How much an event matters. -/
inductive Level where
  | debug
  | info
  | warning
  deriving DecidableEq, Repr

namespace Level

def name : Level → String
  | debug => "DEBUG"
  | info => "INFO"
  | warning => "WARNING"

def rank : Level → Int
  | debug => 10
  | info => 20
  | warning => 30

end Level

/-- Something that happened during an assembly. -/
inductive Event where
  | modeChanged (before after : Setting)
  | variableSet (name : String) (value : Value)
  | variableReplaced (name : String) (kind : SymbolKind)
  | symbolDefined (symbol : Symbol)
  | exportPending (name : String)
  | symbolPurged (name : String)
  | sectionEntered (block : Section) (offset : Int)
  | contextPushed (depth : Nat)
  | contextPopped (current : Option Section)
  | loadEntered (block : Section) (offset : Int)
  | loadLeft (name : String)
  | highRamDeferred (address : Expr)
  | encoded (mnemonic : Mnemonic) (operands : List Operand) (record : Record)
  | macroDefined (name : String) (lines : Nat)
  | sourceRead (statements : Nat) (file : String)
  | assertionDeferred (location : Location) (missing : List String)
  | warned (location : Location) (message : String)
  | fileStarted (path : String)
  | assembled (file : String) (statements symbols errors warnings : Nat)
  | symbolsWritten (path : String)
  | listingWritten (path : String)
  deriving DecidableEq, Repr

namespace Event

def level : Event → Level
  | warned .. => .warning
  | assembled .. | symbolsWritten _ | listingWritten _ => .info
  | _ => .debug

/-- The part of the assembler an event comes from. -/
def origin : Event → String
  | modeChanged .. => "gbasm.assembler.lexer"
  | variableSet .. | variableReplaced .. | symbolDefined _ | exportPending _ | symbolPurged _
  | sectionEntered .. | contextPushed _ | contextPopped _ | loadEntered .. | loadLeft _ =>
    "gbasm.assembler.symbols"
  | highRamDeferred _ | encoded .. => "gbasm.assembler.encoder"
  | macroDefined .. | sourceRead .. => "gbasm.assembler.parser"
  | assertionDeferred .. | warned .. | fileStarted _ | assembled .. | symbolsWritten _
  | listingWritten _ => "gbasm.assembler.assembler"

def showValue : Value → String
  | .number n => toString n
  | .text s => Text.quoted s

def message : Event → String
  | modeChanged before after =>
    "Lexer mode " ++ before.mode.name ++ " -> " ++ after.mode.name
      ++ (match after.closing? with
        | some word => " (until " ++ word ++ ")"
        | none => "")
  | variableSet name value => "Set " ++ name ++ " = " ++ showValue value
  | variableReplaced name kind => "Replacing SET " ++ name ++ " with " ++ kind.name
  | symbolDefined symbol =>
    "Defined " ++ symbol.kind.name ++ " " ++ symbol.name ++ " = " ++ showValue symbol.value
      ++ (if symbol.exported then " (exported)" else "")
  | exportPending name => "Export of " ++ name ++ " pending until definition"
  | symbolPurged name => "Purged " ++ name
  | sectionEntered block offset =>
    "Entering section " ++ block.render ++ " at offset " ++ toString offset
  | contextPushed depth => "Pushed section context (depth " ++ toString depth ++ ")"
  | contextPopped current =>
    "Popped section context, now in "
      ++ (match current with
        | some block => block.name
        | none => "no section")
  | loadEntered block offset =>
    "Entering load block " ++ block.render ++ " at offset " ++ toString offset
  | loadLeft name => "Leaving load block " ++ name
  | highRamDeferred address => "Deferring high RAM check on " ++ address.render
  | encoded mnemonic operands record =>
    "Encoded " ++ mnemonic.word ++ " " ++ Operand.renderAll operands ++ " -> " ++ record.render
  | macroDefined name lines => "Macro " ++ name ++ " defined (" ++ toString lines ++ " lines)"
  | sourceRead statements file => "Parsed " ++ toString statements ++ " statements from " ++ file
  | assertionDeferred location missing =>
    "Assertion at " ++ location.render ++ " deferred on " ++ Text.join ", " missing
  | warned location message => location.render ++ ": " ++ message
  | fileStarted path => "Assembling " ++ path
  | assembled file statements symbols errors warnings =>
    "Assembled " ++ file ++ ": " ++ toString statements ++ " statements, " ++ toString symbols
      ++ " symbols, " ++ toString errors ++ " errors, " ++ toString warnings ++ " warnings"
  | symbolsWritten path => "Wrote symbols to " ++ path
  | listingWritten path => "Wrote listing to " ++ path

/-- An event as a line of the log. -/
def render (e : Event) : String :=
  e.level.name ++ " " ++ e.origin ++ ": " ++ e.message

/-! ## Events of the state -/

/-- What a definition means for the symbols there were before. -/
def ofDefinition (before : State) (symbol : Symbol) : List Event :=
  match before.lookup symbol.name with
  | none => [symbolDefined symbol]
  | some _ =>
    if symbol.kind = .set then [variableSet symbol.name symbol.value]
    else [variableReplaced symbol.name symbol.kind, symbolDefined symbol]

/-- What an encoding is worth noting. -/
def ofEncoding (mnemonic : Mnemonic) (operands : List Operand) (record : Record) : List Event :=
  match record with
  | .arg8 _ (.call .low [address]) (some _) =>
    [highRamDeferred address, encoded mnemonic operands record]
  | _ => [encoded mnemonic operands record]

/-- A change of the mode fresh tokens are read in. -/
def ofRegisters (before after : Register) : List Event :=
  if before.current = after.current then [] else [modeChanged before.current after.current]

end Event

end Sm83
