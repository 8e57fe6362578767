import Sm83.Command.Path
import Sm83.Table

/-!
# Files in memory

A directory of texts. A file is kept under its plain path relative to the directory; the directories
on the way to it are there with it. Of what lies outside the directory only the places that every
system has are known, and what is written there is not kept.
-/

namespace Sm83.Command

/-- Texts by path. -/
structure Files where
  texts : Table String
  deriving DecidableEq, Repr

/-- Where a route starts: in the directory, a number of levels above it, or at the root of the
system. -/
inductive Anchor where
  | inside
  | above (levels : Nat)
  | root
  deriving DecidableEq, Repr

/-- The way to a place, without the parts that lead nowhere. -/
structure Route where
  anchor : Anchor
  parts : List String
  deriving DecidableEq, Repr

namespace Route

/-- The route to what stands in the place that a route leads to. -/
def child (route : Route) (part : String) : Route :=
  { route with parts := route.parts ++ [part] }

/-- The route to the directory that the place of a route stands in. Above the root is the root. -/
def parent (route : Route) : Route :=
  match route.anchor, route.parts with
  | .inside, [] => ⟨.above 1, []⟩
  | .above n, [] => ⟨.above (n + 1), []⟩
  | anchor, parts => ⟨anchor, parts.dropLast⟩

end Route

namespace Files

/-- The directories that stand at the root of every system. -/
def systemDirectories : List String := [
  "bin", "boot", "dev", "etc", "home", "lib", "media", "mnt", "opt", "proc", "root", "run", "sbin",
  "srv", "sys", "tmp", "usr", "var"]

/-- The parts of the path under which a file is kept. -/
def partsOf (path : String) : List String :=
  pathParts path.toList

/-- What stands in the directory itself. -/
def standingInside (files : Files) (parts : List String) : Found :=
  let kept := files.texts.names.map partsOf
  if kept.contains parts then .file
  else if parts.isEmpty || kept.any fun p => parts.isPrefixOf p then .directory
  else .nothing

/-- What stands at a route. The null device is a file like any other. -/
def standing (files : Files) (route : Route) : Found :=
  match route.anchor, route.parts with
  | .inside, parts => files.standingInside parts
  | .above _, [] => .directory
  | .above _, _ => .nothing
  | .root, [] => .directory
  | .root, [part] => if systemDirectories.contains part then .directory else .nothing
  | .root, parts => if parts = ["dev", "null"] then .file else .nothing

/-- Follows the parts of a path from a directory. The result is the route of the last part, or the
fault met on the way. -/
def follow (files : Files) (path : String) : Route → List String → Except PathFault Route
  | here, [] => .ok here
  | here, part :: rest =>
    match files.standing here with
    | .nothing => .error (.noSuchFile path)
    | .file => .error (.notDirectory path)
    | .directory =>
      if part = "." then follow files path here rest
      else if part = ".." then follow files path here.parent rest
      else if nameLimit < part.utf8ByteSize then .error (.nameTooLong path)
      else follow files path (here.child part) rest

def locate (files : Files) (path : String) : Except PathFault Route :=
  if path.isEmpty then .error (.noSuchFile path)
  else if pathLimit < path.utf8ByteSize then .error (.nameTooLong path)
  else do
    let start : Route := ⟨if path.startsWith "/" then .root else .inside, []⟩
    let route ← files.follow path start (pathParts path.toList)
    if path.endsWith "/" && files.standing route = .file then .error (.notDirectory path)
    else .ok route

def find (files : Files) (path : String) : Found :=
  match files.locate path with
  | .ok route => files.standing route
  | .error _ => .nothing

/-- The text of a file. -/
def read (files : Files) (path : String) : Except PathFault String := do
  let route ← files.locate path
  match files.standing route, route.anchor with
  | .directory, _ => .error (.isDirectory path)
  | .nothing, _ => .error (.noSuchFile path)
  | .file, .inside =>
    match files.texts.entries.find? fun e => partsOf e.1 = route.parts with
    | some (_, text) => .ok text
    | none => .error (.noSuchFile path)
  | .file, _ => .ok ""

def put (files : Files) (parts : List String) (text : String) : Files :=
  match files.texts.names.find? fun name => partsOf name = parts with
  | some name => ⟨files.texts.insert name text⟩
  | none => ⟨files.texts.insert (Text.join "/" parts) text⟩

def write (files : Files) (path text : String) : Except PathFault Files := do
  let route ← files.locate path
  match files.standing route, route.anchor with
  | .directory, _ => .error (.isDirectory path)
  | _, .inside => .ok (files.put route.parts text)
  | _, _ => .ok files

/-- The files that are new or differ from those before. -/
def changedSince (files before : Files) : List (String × String) :=
  files.texts.entries.filter fun e => before.texts.get? e.1 ≠ some e.2

end Files

end Sm83.Command
