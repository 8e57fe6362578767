import Sm83.Text.Case

/-!
# Command line arguments

Options may stand before and behind the input file. Long options take a value after an equals sign
or as the next argument; short options can be joined, and the first that takes a value takes the
rest of its argument, or else the next one. After a bare `--` nothing is an option.
-/

namespace Sm83.Command

/-- An option that takes a value. -/
inductive Valued where
  | define
  | symbols
  | listing
  | logLevel
  deriving DecidableEq, Repr

/-- An option that takes no value. -/
inductive Flag where
  | exportAll
  | werror
  | verbose
  | version
  | help
  deriving DecidableEq, Repr

def long? : String → Option (Valued ⊕ Flag)
  | "define" => some (.inl .define)
  | "symbols" => some (.inl .symbols)
  | "listing" => some (.inl .listing)
  | "log-level" => some (.inl .logLevel)
  | "export-all" => some (.inr .exportAll)
  | "werror" => some (.inr .werror)
  | "verbose" => some (.inr .verbose)
  | "version" => some (.inr .version)
  | "help" => some (.inr .help)
  | _ => none

/-- The option of a single letter. -/
def short? : Char → Option (Valued ⊕ Flag)
  | 'D' => some (.inl .define)
  | 's' => some (.inl .symbols)
  | 'l' => some (.inl .listing)
  | 'W' => some (.inr .werror)
  | 'v' => some (.inr .verbose)
  | _ => none

/-- What is wrong with the arguments. -/
inductive UsageFault where
  | noSuchOption (option : String)
  | noValue (option : String)
  | unwantedValue (option : String)
  | missingInput
  | extraArgument (argument : String)
  | badChoice (value : String)
  | noSuchFile (path : String)
  | isDirectory (path : String)
  deriving DecidableEq, Repr

def UsageFault.message : UsageFault → String
  | noSuchOption option => "No such option: " ++ option
  | noValue option => "Option '" ++ option ++ "' requires an argument."
  | unwantedValue option => "Option '" ++ option ++ "' does not take a value."
  | missingInput => "Missing argument 'INPUT_FILE'."
  | extraArgument argument => "Got unexpected extra argument (" ++ argument ++ ")"
  | badChoice value => "Invalid value for '--log-level': '" ++ value ++ "'"
  | noSuchFile path => "File '" ++ path ++ "' does not exist."
  | isDirectory path => "File '" ++ path ++ "' is a directory."

/-- What the arguments say: options in order, and what is no option. -/
structure Given where
  values : List (Valued × String)
  flags : List Flag
  inputs : List String
  deriving DecidableEq, Repr

namespace Given

/-- Nothing. -/
def empty : Given := ⟨[], [], []⟩

def value (g : Given) (option : Valued) (v : String) : Given :=
  { g with values := g.values ++ [(option, v)] }

def flag (g : Given) (f : Flag) : Given :=
  { g with flags := g.flags ++ [f] }

/-- Adds what is no option. -/
def input (g : Given) (argument : String) : Given :=
  { g with inputs := g.inputs ++ [argument] }

end Given

/-- What an argument with options leaves to do: nothing, or an option that takes the next argument
as its value. -/
inductive Read where
  | complete (given : Given)
  | awaiting (option : Valued) (name : String) (given : Given)
  deriving DecidableEq, Repr

def readShort (g : Given) : List Char → Except UsageFault Read
  | [] => .ok (.complete g)
  | c :: rest =>
    let name := String.ofList ['-', c]
    match short? c with
    | none => .error (.noSuchOption name)
    | some (.inr f) => readShort (g.flag f) rest
    | some (.inl option) =>
      if rest.isEmpty then .ok (.awaiting option name g)
      else .ok (.complete (g.value option (String.ofList rest)))

/-- Reads a long option, without the dashes before it. -/
def readLong (g : Given) (cs : List Char) : Except UsageFault Read :=
  let word := String.ofList (cs.takeWhile (· ≠ '='))
  let name := "--" ++ word
  match long? word, cs.dropWhile (· ≠ '=') with
  | none, _ => .error (.noSuchOption name)
  | some (.inl option), [] => .ok (.awaiting option name g)
  | some (.inl option), _ :: v => .ok (.complete (g.value option (String.ofList v)))
  | some (.inr f), [] => .ok (.complete (g.flag f))
  | some (.inr _), _ :: _ => .error (.unwantedValue name)

def readGiven (g : Given) : List String → Except UsageFault Given
  | [] => .ok g
  | argument :: rest =>
    let read := match argument.toList with
      | ['-', '-'] => none
      | '-' :: '-' :: cs => some (readLong g cs)
      | '-' :: c :: cs => some (readShort g (c :: cs))
      | _ => some (.ok (.complete (g.input argument)))
    match read with
    | none => .ok { g with inputs := g.inputs ++ rest }
    | some (.error fault) => .error fault
    | some (.ok (.complete g)) => readGiven g rest
    | some (.ok (.awaiting option name g)) =>
      match rest with
      | [] => .error (.noValue name)
      | v :: rest => readGiven (g.value option v) rest

/-- What is asked for. -/
structure Options where
  input : String
  defines : List String
  symbols : Option String
  listing : Option String
  exportAll : Bool
  werror : Bool
  verbose : Bool
  logLevel : Option String
  deriving DecidableEq, Repr

/-- A task for the program. -/
inductive Request where
  | version
  | help
  | assemble (options : Options)
  deriving DecidableEq, Repr

def levelChoices : List String := ["DEBUG", "INFO", "WARNING", "ERROR"]

/-- The level of a name in any letter case. -/
def levelChoice (value : String) : Except UsageFault String :=
  match levelChoices.find? fun choice => Text.lower choice == Text.lower value with
  | some choice => .ok choice
  | none => .error (.badChoice value)

namespace Given

def valuesOf (g : Given) (option : Valued) : List String :=
  (g.values.filter fun e => e.1 = option).map Prod.snd

def valueOf? (g : Given) (option : Valued) : Option String :=
  (g.valuesOf option).getLast?

def onlyInput (g : Given) : Except UsageFault String :=
  match g.inputs with
  | [] => .error .missingInput
  | [input] => .ok input
  | _ :: extra :: _ => .error (.extraArgument extra)

/-- The options that arguments ask for. -/
def options (g : Given) : Except UsageFault Options := do
  let input ← g.onlyInput
  let logLevel ← (g.valueOf? .logLevel).mapM levelChoice
  pure {
    input := input
    defines := g.valuesOf .define
    symbols := g.valueOf? .symbols
    listing := g.valueOf? .listing
    exportAll := g.flags.contains .exportAll
    werror := g.flags.contains .werror
    verbose := g.flags.contains .verbose
    logLevel := logLevel }

end Given

/-- The task that arguments ask for. The first of the flags that only ask for information goes
before anything else. -/
def request (args : List String) : Except UsageFault Request := do
  let g ← readGiven .empty args
  match g.flags.find? fun f => f = .version || f = .help with
  | some .version => pure .version
  | some _ => pure .help
  | none => .assemble <$> g.options

end Sm83.Command
