import Sm83.Error.Basic

/-!
# Diagnostics

Warnings and errors that do not stop the assembly are collected and reported together. Warnings can
be made to count as errors, and too many errors stop the assembly after all.
-/

namespace Sm83

/-- How serious a diagnostic is. -/
inductive Severity where
  | warning
  | error
  deriving DecidableEq, Repr

def Severity.word : Severity → String
  | warning => "warning"
  | error => "error"

/-- A collected message. -/
structure Diagnostic where
  severity : Severity
  message : String
  location : Option Location
  deriving DecidableEq, Repr

def Diagnostic.render (d : Diagnostic) : String :=
  (match d.location with
    | some l => l.render ++ ": "
    | none => "") ++ d.severity.word ++ ": " ++ d.message

/-- The diagnostics of a run, oldest first, and how they are to be counted. -/
structure Diagnostics where
  entries : List Diagnostic
  maxErrors : Int
  warningsAsErrors : Bool
  deriving DecidableEq, Repr

namespace Diagnostics

def empty (maxErrors : Int) (warningsAsErrors : Bool) : Diagnostics :=
  ⟨[], maxErrors, warningsAsErrors⟩

def count (d : Diagnostics) (s : Severity) : Nat :=
  d.entries.countP fun e => e.severity == s

/-- Some error has been collected. -/
def hasErrors (d : Diagnostics) : Bool :=
  0 < d.count .error

def warningSeverity (d : Diagnostics) : Severity :=
  if d.warningsAsErrors then .error else .warning

def push (d : Diagnostics) (entry : Diagnostic) : Diagnostics :=
  { d with entries := d.entries ++ [entry] }

/-- The cause to stop for after a diagnostic of the given severity has been recorded. -/
def limit? (d : Diagnostics) (s : Severity) : Option Cause :=
  if s = .error && d.maxErrors ≤ d.count .error then some (.errorLimit (some d.maxErrors)) else none

/-- Records a diagnostic and tells whether that is one error too many. -/
def record (d : Diagnostics) (s : Severity) (message : String) (location : Option Location) :
    Diagnostics × Option Cause :=
  let next := d.push ⟨s, message, location⟩
  (next, next.limit? s)

def addError (d : Diagnostics) (message : String) (location : Option Location) :
    Diagnostics × Option Cause :=
  d.record .error message location

/-- Records a warning, which may count as an error. -/
def addWarning (d : Diagnostics) (message : String) (location : Option Location) :
    Diagnostics × Option Cause :=
  d.record d.warningSeverity message location

/-- Forgets the diagnostics collected so far. -/
def clear (d : Diagnostics) : Diagnostics :=
  { d with entries := [] }

def counted (n : Nat) (noun : String) : String :=
  toString n ++ " " ++ (if n = 1 then noun else noun ++ "s")

/-- All diagnostics and a line that counts them. -/
def report (d : Diagnostics) : String :=
  Text.join "\n" (d.entries.map Diagnostic.render
    ++ [counted (d.count .error) "error" ++ ", " ++ counted (d.count .warning) "warning"])

end Diagnostics

end Sm83
