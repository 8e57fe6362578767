/-!
# Directives

The words that tell the assembler what to do, and the words that define a symbol after its name.
-/

namespace Sm83

/-- A word that instructs the assembler. -/
inductive Directive where
  | sectionStart | loadStart | loadEnd | sectionPush | sectionPop
  | charmapPush | charmapPop | optionPush | optionPop | option
  | charmap | newCharmap | setCharmap
  | assertion | staticAssertion
  | includeSource | includeBinary
  | print | printLine | printText | printValue | printInteger | printFixed
  | warn | fail | fatal
  | exportNames | globalNames | purge
  | equ | equs | rb | rw | rl | storageReset | storageSet
  | macroStart | macroEnd | shift | repeatStart | repeatEnd
  | ifCase | elifCase | elseCase | endCase
  | db | dw | dl | ds
  deriving DecidableEq, Repr

namespace Directive

def all : List Directive := [
  sectionStart, loadStart, loadEnd, sectionPush, sectionPop,
  charmapPush, charmapPop, optionPush, optionPop, option,
  charmap, newCharmap, setCharmap,
  assertion, staticAssertion,
  includeSource, includeBinary,
  print, printLine, printText, printValue, printInteger, printFixed,
  warn, fail, fatal,
  exportNames, globalNames, purge,
  equ, equs, rb, rw, rl, storageReset, storageSet,
  macroStart, macroEnd, shift, repeatStart, repeatEnd,
  ifCase, elifCase, elseCase, endCase,
  db, dw, dl, ds]

def word : Directive → String
  | sectionStart => "section" | loadStart => "load" | loadEnd => "endl"
  | sectionPush => "pushs" | sectionPop => "pops"
  | charmapPush => "pushc" | charmapPop => "popc" | optionPush => "pusho" | optionPop => "popo"
  | option => "opt"
  | charmap => "charmap" | newCharmap => "newcharmap" | setCharmap => "setcharmap"
  | assertion => "assert" | staticAssertion => "static_assert"
  | includeSource => "include" | includeBinary => "incbin"
  | print => "print" | printLine => "println" | printText => "printt" | printValue => "printv"
  | printInteger => "printi" | printFixed => "printf"
  | warn => "warn" | fail => "fail" | fatal => "fatal"
  | exportNames => "export" | globalNames => "global" | purge => "purge"
  | equ => "equ" | equs => "equs" | rb => "rb" | rw => "rw" | rl => "rl"
  | storageReset => "rsreset" | storageSet => "rsset"
  | macroStart => "macro" | macroEnd => "endm" | shift => "shift"
  | repeatStart => "rept" | repeatEnd => "endr"
  | ifCase => "if" | elifCase => "elif" | elseCase => "else" | endCase => "endc"
  | db => "db" | dw => "dw" | dl => "dl" | ds => "ds"

/-- The directive a lower-case word spells. -/
def ofWord? (w : String) : Option Directive :=
  all.find? fun d => d.word == w

def isConditional : Directive → Bool
  | ifCase | elifCase | elseCase | endCase => true
  | _ => false

def isPrint : Directive → Bool
  | print | printLine | printText | printValue | printInteger | printFixed => true
  | _ => false

end Directive

/-- How a line gives a symbol its value. -/
inductive Definer where
  | equ | set | assign | equs | rb | rw | rl
  deriving DecidableEq, Repr

namespace Definer

def words : List Definer := [equ, set, equs, rb, rw, rl]

def word : Definer → String
  | equ => "equ" | set => "set" | assign => "=" | equs => "equs" | rb => "rb" | rw => "rw" | rl =>
      "rl"

/-- The definer a lower-case word spells. -/
def ofWord? (w : String) : Option Definer :=
  words.find? fun d => d.word == w

end Definer

/-- Words that stand only after the name they define, on the same line. -/
def definesName (w : String) : Bool :=
  (Definer.ofWord? w).isSome || w == Directive.macroStart.word

end Sm83
