import Sm83.State.Basic

/-!
# Operations on the state

Everything that can be asked of a state, as data. An operation gives an answer and a new state, or
fails and leaves the state as it was; a run of operations goes on after failures.
-/

namespace Sm83

/-- Something that can be asked of a state. -/
inductive Operation where
  | defineLabel (spelling : String) (exported : Bool) (location : Option Location)
  | defineConstant (spelling : String) (value : Int) (exported : Bool) (location : Option Location)
  | defineVariable (spelling : String) (value : Int) (location : Option Location)
  | defineText (spelling : String) (value : String) (location : Option Location)
  | exportName (spelling : String) (location : Option Location)
  | purge (spelling : String)
  | advanceStorage (bytes : Int)
  | resetStorage (value : Int)
  | qualify (spelling : String)
  | resolveLocal (spelling : String)
  | lookup (name : String)
  | value (name : String)
  | isDefined (name : String)
  | enterSection (block : Section)
  | enterLoad (block : Section)
  | endLoad
  | pushSection
  | popSection
  | advance (bytes : Int)
  | sectionSize (name : String)
  deriving DecidableEq, Repr

/-- The answer to an operation. -/
inductive Answer where
  | done
  | symbol (s : Symbol)
  | number (n : Int)
  | name (s : String)
  | found (s : Option Symbol)
  | value (v : Option Value)
  | truth (b : Bool)
  deriving DecidableEq, Repr

namespace State

def perform (s : State) : Operation → Except Error (Answer × State)
  | .defineLabel spelling exported location =>
    (s.defineLabel spelling exported location).map fun r => (.symbol r.1, r.2)
  | .defineConstant spelling value exported location =>
    (s.defineConstant spelling value exported location).map fun r => (.symbol r.1, r.2)
  | .defineVariable spelling value location =>
    (s.defineVariable spelling value location).map fun r => (.symbol r.1, r.2)
  | .defineText spelling value location =>
    (s.defineText spelling value location).map fun r => (.symbol r.1, r.2)
  | .exportName spelling location => (s.exportName spelling location).map fun s => (.done, s)
  | .purge spelling => (s.purge spelling).map fun s => (.done, s)
  | .advanceStorage bytes => let r := s.advanceStorage bytes; .ok (.number r.1, r.2)
  | .resetStorage value => .ok (.done, s.resetStorage value)
  | .qualify spelling => ((s.qualify spelling).mapError .unlocated).map fun name => (.name name, s)
  | .resolveLocal spelling =>
    ((s.resolveLocal spelling).mapError .unlocated).map fun name => (.name name, s)
  | .lookup name => .ok (.found (s.lookup name), s)
  | .value name => .ok (.value (s.lookupValue name), s)
  | .isDefined name => .ok (.truth (s.isDefined name), s)
  | .enterSection block => (s.enterSection block).map fun s => (.done, s)
  | .enterLoad block => (s.enterLoad block).map fun s => (.done, s)
  | .endLoad => s.endLoad.map fun s => (.done, s)
  | .pushSection => .ok (.done, s.pushSection)
  | .popSection => s.popSection.map fun s => (.done, s)
  | .advance bytes => .ok (.done, s.advance bytes)
  | .sectionSize name => let r := s.sectionSize name; .ok (.number r.1, r.2)

/-- The state after an operation, which is the same as before if it fails. -/
def after (s : State) (op : Operation) : State :=
  match s.perform op with
  | .ok (_, s') => s'
  | .error _ => s

def run (s : State) (ops : List Operation) : State :=
  ops.foldl after s

end State

end Sm83
