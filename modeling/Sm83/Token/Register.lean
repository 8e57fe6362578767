import Sm83.Token.Basic

/-!
# The mode register

The mode that fresh tokens are read in, and a request for another one. A request waits until the
next fresh token is to be read, so it never touches a token that has been read already, and of
several requests in between only the last counts.
-/

namespace Sm83

/-- A mode with the words that close and nest a raw block. -/
structure Setting where
  mode : Mode
  closing : Option String
  opening : Option String
  deriving DecidableEq, Repr

namespace Setting

/-- Ordinary tokens. -/
def normal : Setting := ⟨.normal, none, none⟩

def arguments : Setting := ⟨.raw, none, none⟩

def block (closing opening : String) : Setting := ⟨.raw, some closing, some opening⟩

/-- Only raw mode has block words. -/
def effective (s : Setting) : Setting :=
  match s.mode with
  | .raw => s
  | .normal => normal

/-- The closing word of the block to be read, if it is a block. -/
def closing? (s : Setting) : Option String :=
  match s.closing with
  | some word => if word.isEmpty then none else some word
  | none => none

end Setting

/-- The setting in force and the one requested. -/
structure Register where
  current : Setting
  pending : Option Setting
  deriving DecidableEq, Repr

namespace Register

/-- Nothing but normal mode has been asked for. -/
def initial : Register := ⟨.normal, none⟩

/-- Asks for a setting from the next fresh token on. -/
def request (r : Register) (s : Setting) : Register :=
  { r with pending := some s }

/-- Puts the requested setting in force. -/
def commit (r : Register) : Register :=
  match r.pending with
  | some s => ⟨s.effective, none⟩
  | none => r

/-- Of several requests in a row only the last counts. -/
@[simp] theorem request_request (r : Register) (s t : Setting) :
    (r.request s).request t = r.request t := rfl

/-- A requested setting is in force once it has been committed. -/
@[simp] theorem current_commit_request (r : Register) (s : Setting) :
    (r.request s).commit.current = s.effective := rfl

@[simp] theorem pending_commit (r : Register) : r.commit.pending = none := by
  cases r with
  | mk current pending => cases pending <;> rfl

/-- Putting the requested setting in force changes something. -/
def changes (r : Register) : Bool :=
  r.commit.current != r.current

end Register

end Sm83
