import Sm83.Text.Layout
import Sm83.Text.Quoted

/-!
# Paths

The plain form of a path, and what can be wrong with a path when a file is read or written.
-/

namespace Sm83.Command

/-- The parts of a text between slashes. -/
def pathParts (cs : List Char) : List String :=
  (cs.splitBy fun a b => a ≠ '/' && b ≠ '/').filterMap fun part =>
    if part = ['/'] then none else some (String.ofList part)

/-- The slashes that a path starts with: two stay two, and more count as one. -/
def pathRoot : List Char → String
  | ['/', '/'] => "//"
  | '/' :: '/' :: c :: _ => if c = '/' then "/" else "//"
  | '/' :: _ => "/"
  | _ => ""

/-- The plain form of a path: no doubled slashes, no slash at the end, no parts that stay in place.
-/
def plainPath (path : String) : String :=
  let cs := path.toList
  let plain := pathRoot cs ++ Text.join "/" ((pathParts cs).filter (· ≠ "."))
  if plain.isEmpty then "." else plain

/-- The greatest number of bytes in a part of a path. -/
def nameLimit : Nat := 255

/-- The greatest number of bytes in a path. -/
def pathLimit : Nat := 4095

/-- Why a file cannot be read or written. -/
inductive PathFault where
  | noSuchFile (path : String)
  | notDirectory (path : String)
  | isDirectory (path : String)
  | nameTooLong (path : String)
  | other (message : String)
  deriving DecidableEq, Repr

namespace PathFault

def message : PathFault → String
  | noSuchFile path => "[Errno 2] No such file or directory: " ++ Text.quoted path
  | notDirectory path => "[Errno 20] Not a directory: " ++ Text.quoted path
  | isDirectory path => "[Errno 21] Is a directory: " ++ Text.quoted path
  | nameTooLong path => "[Errno 36] File name too long: " ++ Text.quoted path
  | other message => message

/-- The fault lies with the arguments. -/
def isUsers : PathFault → Bool
  | noSuchFile _ => true
  | _ => false

end PathFault

/-- What is found at a path. -/
inductive Found where
  | nothing
  | file
  | directory
  deriving DecidableEq, Repr

end Sm83.Command
