import Sm83.Error.Fault

/-!
# Errors

An error has a cause and, once it is known where in the source it happened, a location and the text
of the line. `Error.locate` attaches a place to an error that has none; a place once attached stays.
-/

namespace Sm83

/-- The families of errors. -/
inductive Category where
  | general
  | lexical
  | grammar
  | operands
  | encoding
  | range
  | redefinition
  | scope
  | placement
  | expression
  | conversion
  | notConstant
  | assertion
  | errorLimit
  deriving DecidableEq, Repr

/-- What went wrong. Tools built on the assembler may state an error of a family in their own words.
-/
inductive Cause where
  | lexical (fault : LexicalFault)
  | grammar (fault : GrammarFault)
  | operands (mnemonic operands : String) (forms : List String)
  | haltPattern
  | range (fault : RangeFault)
  | redefinition (name : String) (first : Option Location)
  | noScope (name : String)
  | placement (fault : SectionFault)
  | purge (fault : PurgeFault)
  | expression (reason : Reason)
  | incomplete (f : Function)
  | conversion (value bits : Int)
  | notConstant (missing : List String)
  | assertion (message : Option String)
  | errorLimit (limit : Option Int)
  | stated (category : Category) (message : String) (hint : Option String)
  deriving DecidableEq, Repr

namespace Cause

def category : Cause → Category
  | lexical _ => .lexical
  | grammar _ => .grammar
  | operands .. => .operands
  | haltPattern => .encoding
  | range _ => .range
  | redefinition .. => .redefinition
  | noScope _ => .scope
  | placement _ => .placement
  | purge _ => .general
  | expression _ => .expression
  | incomplete _ => .expression
  | conversion .. => .conversion
  | notConstant _ => .notConstant
  | assertion _ => .assertion
  | errorLimit _ => .errorLimit
  | stated c .. => c

def message : Cause → String
  | lexical f => f.message
  | grammar f => f.message
  | operands mnemonic shown _ => "'" ++ mnemonic ++ "' does not accept operands (" ++ shown ++ ")"
  | haltPattern => "ld [hl], [hl] is not a valid instruction"
  | range f => f.message
  | redefinition name _ => "redefined symbol '" ++ name ++ "'"
  | noScope name => "local symbol '" ++ name ++ "' in main scope"
  | placement f => f.message
  | purge f => f.message
  | expression r => r.message
  | incomplete f => f.word ++ "() lacks an argument"
  | conversion v bits =>
    "value " ++ toString v ++ " (" ++ Word.dollarHex v ++ ") does not fit in " ++ toString bits
      ++ " bits"
  | notConstant _ => "expression is not constant"
  | assertion none => "assertion failure"
  | assertion (some m) => if m.isEmpty then "assertion failure" else "assertion failure: " ++ m
  | errorLimit none => "too many errors"
  | errorLimit (some n) => "too many errors (" ++ toString n ++ "), stopping"
  | stated _ m _ => m

/-- The hint that goes with a cause. At most three missing names are listed. -/
def hint? : Cause → Option String
  | lexical f => f.hint?
  | operands _ _ [] => none
  | operands mnemonic _ forms => some (mnemonic ++ " accepts: " ++ Text.join "; " forms)
  | haltPattern => some "its bit pattern ($76) is the halt instruction"
  | range f => f.hint?
  | redefinition name (some first) =>
    some ("'" ++ name ++ "' was first defined at " ++ first.render)
  | noScope _ => some "declare a global label before using local labels"
  | placement f => f.hint?
  | notConstant [] => none
  | notConstant missing =>
    some ("not yet defined: " ++ Text.join ", " ((missing.take 3).map fun n => "'" ++ n ++ "'"))
  | stated _ _ hint => hint
  | _ => none

end Cause

/-- An error with what is known of its place. -/
structure Error where
  cause : Cause
  location : Option Location
  sourceLine : Option String
  deriving DecidableEq, Repr

namespace Error

/-- An error whose place is not known. -/
def unlocated (cause : Cause) : Error :=
  ⟨cause, none, none⟩

/-- The error with a place, unless it has one. -/
def locate (e : Error) (location : Option Location) (sourceLine : Option String) : Error :=
  match e.location, location with
  | none, some l => ⟨e.cause, some l, e.sourceLine <|> sourceLine⟩
  | _, _ => e

/-- A place once attached stays. -/
theorem locate_of_located {e : Error} {l : Location} (h : e.location = some l)
    (location : Option Location) (sourceLine : Option String) :
    e.locate location sourceLine = e := by
  simp [locate, h]

/-- An error without a place gets the one it is given. -/
theorem location_locate {e : Error} (h : e.location = none) (l : Location)
    (sourceLine : Option String) : (e.locate (some l) sourceLine).location = some l := by
  simp [locate, h]

@[simp] theorem cause_locate (e : Error) (location : Option Location)
    (sourceLine : Option String) : (e.locate location sourceLine).cause = e.cause := by
  unfold locate
  split <;> rfl

/-- The source line with a mark under the column, when place and line are both known. -/
def excerpt (e : Error) : List String :=
  match e.location, e.sourceLine with
  | some l, some text =>
    let mark :=
      if 0 < l.column then [String.ofList (List.replicate (3 + l.column.toNat) ' ' ++ ['^'])]
        else []
    ("    " ++ text) :: mark
  | _, _ => []

/-- The error as it is shown: the place and the wording, the source line, and the hint. -/
def render (e : Error) : String :=
  let head := match e.location with
    | some l => l.render ++ ": error: " ++ e.cause.message
    | none => "error: " ++ e.cause.message
  let hint := match e.cause.hint? with
    | some h => if h.isEmpty then [] else ["hint: " ++ h]
    | none => []
  Text.join "\n" (head :: e.excerpt ++ hint)

end Error

/-- Why a reading stops: an error of the source, a numeral without a value, or a bound on the number
of steps that no source reaches. -/
inductive Failure where
  | error (e : Error)
  | numeral (fault : NumeralFault)
  | exhausted
  deriving DecidableEq, Repr

/-- A failure whose place is not known. -/
def Failure.ofCause (cause : Cause) : Failure :=
  .error (Error.unlocated cause)

end Sm83
