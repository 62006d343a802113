import ScalarLang.Machine.Basic
import ScalarLang.Text.Blank
import ScalarLang.Text.Numeral

/-!
# The settings of the command

The command is told what to do by its arguments and by two variables of its environment.
Arguments are read from left to right, and the first problem ends the reading. An option
that takes a value takes the next argument for it, whatever that looks like. What cannot
be seen before all arguments are read is checked behind them: that there is a file, that
options agree, and then the variables.

A variable that is not set, and a log level of blanks only, count as absent.

## Main results

* `ofArguments_help`: a request for help is answered whatever follows it.
-/

namespace ScalarLang

/-! ## Log levels -/

/-- How much the command tells about its work, the least first. -/
inductive LogLevel where
  | error
  | warn
  | info
  | debug
  | trace
deriving DecidableEq

namespace LogLevel

/-- Every level, the least first. -/
def all : List LogLevel := [error, warn, info, debug, trace]

/-- The name of a level. -/
def name : LogLevel → String
  | error => "ERROR"
  | warn => "WARN"
  | info => "INFO"
  | debug => "DEBUG"
  | trace => "TRACE"

/-- The number of a level, from one on. -/
def rank : LogLevel → Nat
  | error => 1
  | warn => 2
  | info => 3
  | debug => 4
  | trace => 5

/-- Whether what is told at `detail` is told at `level`. -/
def tells (level detail : LogLevel) : Bool := detail.rank ≤ level.rank

/-- Reads the number of a level, or its name with ASCII letters of either case. -/
def ofText? (cs : List Char) : Option LogLevel :=
  match Text.readNat? UInt64.size cs with
  | some n => all.find? (·.rank == n)
  | none => all.find? fun level => level.name.toList == cs.map Char.toUpper

theorem ofText?_name (level : LogLevel) : ofText? level.name.toList = some level := by
  cases level <;> rfl

end LogLevel

/-! ## Settings -/

/-- What the command is to do. -/
structure Settings where
  /-- The program, or the code if that is only run. -/
  source : String
  /-- Where the code is written. -/
  output : String
  /-- Whether the source is code, which is run. -/
  runOnly : Bool
  /-- Whether the code is written and not run. -/
  noRun : Bool
  policy : Policy
  /-- How often more was asked for. -/
  verbosity : Nat
  /-- The log level that the environment asks for. -/
  logOverride : Option LogLevel
deriving DecidableEq

namespace Settings

/-- The log level: that of the environment, or one that grows with the verbosity. -/
def logLevel (s : Settings) : LogLevel :=
  s.logOverride.getD <| match s.verbosity with
    | 0 => .warn
    | 1 => .info
    | _ => .debug

/-- Where code is written unless an argument names a file. -/
def defaultOutput : String := "output.asm"

/-- The variable that makes jumps to missing labels faults. -/
def strictVariable : String := "PLC_STRICT_LABELS"

/-- The variable that sets the log level. -/
def logVariable : String := "PLC_LOG"

/-- How the command is called. -/
def usage : String :=
  "usage: plc <source> [-o <out.asm>] [--no-run] [--strict-labels] [-v|-vv]\n" ++
  "       plc --run <file.asm> [--strict-labels] [-v|-vv]"

/-- Why there are no settings. -/
inductive Problem where
  | missingSource
  | missingValue (option : String)
  | unknownOption (option : String)
  | unexpectedArgument (argument : String)
  | conflict (option : String)
  | invalidLogLevel (value : String)
  | helpRequested
deriving DecidableEq

namespace Problem

/-- The name of the kind of problem. -/
def name : Problem → String
  | missingSource => "MissingSource"
  | missingValue _ => "MissingValue"
  | unknownOption _ => "UnknownFlag"
  | unexpectedArgument _ => "UnexpectedArgument"
  | conflict _ => "ConflictingFlag"
  | invalidLogLevel _ => "InvalidLogLevel"
  | helpRequested => "HelpRequested"

/-- The wording of a problem. -/
def message : Problem → String
  | missingSource => "no input file given"
  | missingValue option => s!"option '{option}' expects a value"
  | unknownOption option => s!"unknown option '{option}'"
  | unexpectedArgument argument => s!"unexpected argument '{argument}'"
  | conflict option => s!"'{option}' cannot be used together with --run"
  | invalidLogLevel value => s!"invalid log level '{value}' in {logVariable}"
  | helpRequested => "help requested"

end Problem

/-! ## Arguments -/

/-- What an argument is, seen by itself. -/
inductive Argument where
  | help
  /-- The next argument is where the code goes. -/
  | output
  /-- The next argument is code to run. -/
  | run
  | noRun
  | strictLabels
  /-- So much more is to be told. -/
  | verbose (more : Nat)
  | unknown
  | file
deriving DecidableEq

/-- What an argument is: an option, or a file if it is a lone dash or does
not start with one. -/
def Argument.ofText : String → Argument
  | "-h" | "--help" => help
  | "-o" | "--output" => output
  | "--run" => run
  | "--no-run" => noRun
  | "--strict-labels" => strictLabels
  | "-v" => verbose 1
  | "-vv" => verbose 2
  | text =>
    match text.toList with
    | '-' :: _ :: _ => unknown
    | _ => file

/-- What the arguments read so far say. -/
structure Draft where
  source : Option String
  output : Option String
  runOnly : Bool
  noRun : Bool
  strictLabels : Bool
  verbosity : Nat

namespace Draft

/-- No argument has been read. -/
def blank : Draft := ⟨none, none, false, false, false, 0⟩

/-- Takes the one file there may be. -/
def takeFile (d : Draft) (path : String) : Except Problem Draft :=
  if d.source.isSome then .error (.unexpectedArgument path)
    else .ok { d with source := some path }

/-- Reads arguments. -/
def read (d : Draft) : List String → Except Problem Draft
  | [] => .ok d
  | text :: rest =>
    match Argument.ofText text with
    | .help => .error .helpRequested
    | .output =>
      match rest with
      | [] => .error (.missingValue text)
      | path :: rest => read { d with output := some path } rest
    | .run =>
      match rest with
      | [] => .error (.missingValue text)
      | path :: rest => do read { ← d.takeFile path with runOnly := true } rest
    | .noRun => read { d with noRun := true } rest
    | .strictLabels => read { d with strictLabels := true } rest
    | .verbose more => read { d with verbosity := d.verbosity + more } rest
    | .unknown => .error (.unknownOption text)
    | .file => do read (← d.takeFile text) rest

/-- Code that is only run is not written, so it agrees with no option about writing. -/
def checkConflict (d : Draft) : Except Problem Unit :=
  if !d.runOnly then .ok ()
  else if d.output.isSome then .error (.conflict "-o")
  else if d.noRun then .error (.conflict "--no-run")
  else .ok ()

end Draft

/-! ## The environment -/

/-- Whether a variable is set to a word for yes, with ASCII letters of either case. -/
def isEnabled (value : String) : Bool :=
  ["1", "true", "yes", "on"].contains
    (String.ofList ((Text.trim value.toList).map Char.toLower))

/-- The log level that a variable sets, if it sets one. -/
def readLogLevel : Option String → Except Problem (Option LogLevel)
  | none => .ok none
  | some value =>
    match Text.trim value.toList with
    | [] => .ok none
    | trimmed =>
        ((LogLevel.ofText? trimmed).elim (.error (.invalidLogLevel value))) (.ok ∘ some)

/-- The settings that arguments and an environment make. -/
def ofArguments (args : List String) (env : String → Option String) :
    Except Problem Settings := do
  let draft ← Draft.blank.read args
  let source ← draft.source.elim (.error .missingSource) .ok
  draft.checkConflict
  let logOverride ← readLogLevel (env logVariable)
  return {
    source := source
    output := draft.output.getD defaultOutput
    runOnly := draft.runOnly
    noRun := draft.noRun
    policy := ⟨draft.strictLabels || (env strictVariable).any isEnabled⟩
    verbosity := draft.verbosity
    logOverride := logOverride }

theorem ofArguments_help (rest : List String) (env : String → Option String) :
    ofArguments ("--help" :: rest) env = .error .helpRequested := rfl

end Settings

end ScalarLang
