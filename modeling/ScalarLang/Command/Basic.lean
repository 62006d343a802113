import ScalarLang.Command.Host
import ScalarLang.Command.Settings
import ScalarLang.Compilation
import ScalarLang.Rendering

/-!
# The command

The command compiles a program, writes its code to a file and runs what the file then
holds, or it runs code that was written earlier. A failure ends it, and is reported with
the path that it happened at; a program that is rejected is reported with all that is
wrong with it, and nothing is written.

## Main results

* `run_help`: a request for help is met by the usage and nothing else.
-/

namespace ScalarLang.Command

/-- How the command ended. -/
inductive Ending where
  | success
  /-- The work could not be done. -/
  | failure
  /-- The arguments made no sense. -/
  | misuse
deriving DecidableEq

/-- The number that a system is told. -/
def Ending.code : Ending → Nat
  | success => 0
  | failure => 1
  | misuse => 2

/-- Why the work could not be done. -/
inductive Failure where
  | reading (path : String) (cause : FileFailure)
  | writing (path : String) (cause : FileFailure)
  | running (path : String) (fault : Fault)
  /-- The program of this name and text is no program. -/
  | rejected (file source : String) (rejection : Rejection)

/-- A failure of the console is told as a fault and once more as its cause. -/
def faultText : Fault → String
  | .console cause => (Fault.console cause).message ++ ": " ++ cause.message
  | fault => fault.message

/-- All that is wrong with a program, numbered from one on. -/
def rejectionText (file source : String) (r : Rejection) : String :=
  s!"{r.reports.length} {r.phase.name} error(s) in {file}:\n" ++
    String.join (r.reports.zipIdx.map fun (d, i) => s!"{i + 1}. {d.render source}")

/-- What is reported about a failure. -/
def Failure.text : Failure → String
  | reading path cause => s!"Error: reading {path}: {cause.message}\n"
  | writing path cause => s!"Error: writing {path}: {cause.message}\n"
  | running path fault => s!"Error: running {path}: {faultText fault}\n"
  | rejected file source r => rejectionText file source r

/-- The name of the file at the end of a path. -/
def fileName (path : String) : String :=
  String.ofList ((path.toList.reverse.takeWhile (· ≠ '/')).reverse)

variable {m : Type → Type} [Monad m]

/-- A deed that the command depends on. -/
def attempt {ε α : Type} (blame : ε → Failure) (deed : m (Except ε α)) :
    ExceptT Failure m α :=
  ExceptT.mk (Except.mapError blame <$> deed)

/-- Keeps an account of the work if it was asked for. -/
def note (host : Host m) (s : Settings) (detail : LogLevel) (text : String) :
    ExceptT Failure m Unit :=
  if s.logLevel.tells detail then host.log text else pure ()

/-- Runs the code in a file. -/
def runFile (host : Host m) (s : Settings) (path : String) : ExceptT Failure m Unit :=
  do
  let text ← attempt (.reading path) (host.readFile path)
  let instrs := Instr.readText text
  note host s .debug s!"{instrs.length} instructions read from {path}"
  match ← host.execute s.policy instrs with
  | none => pure ()
  | some fault => throw (.running path fault)

/-- Compiles the program in a file and writes its code. -/
def compileFile (host : Host m) (s : Settings) : ExceptT Failure m Unit := do
  let source ← attempt (.reading s.source) (host.readFile s.source)
  let file := fileName s.source
  match compileSource file source with
  | .error rejection => throw (.rejected file source rejection)
  | .ok instrs =>
    attempt (.writing s.output) (host.writeFile s.output (Instr.write instrs))
    note host s .info s!"{instrs.length} instructions written to {s.output}"

/-- Does what the settings say. -/
def perform (host : Host m) (s : Settings) : ExceptT Failure m Unit :=
  if s.runOnly then runFile host s s.source
  else do
    compileFile host s
    if s.noRun then pure () else runFile host s s.output

/-- Does what the arguments and the environment say. -/
def run (host : Host m) (args : List String) (env : String → Option String) :
    m Ending :=
  match Settings.ofArguments args env with
  | .error .helpRequested => do
    host.print (Settings.usage ++ "\n")
    return .success
  | .error problem => do
    host.report s!"Error: {problem.message}\n{Settings.usage}\n"
    return .misuse
  | .ok s => do
    match ← (perform host s).run with
    | .ok () => return .success
    | .error failure =>
      host.report failure.text
      return .failure

theorem run_help (host : Host m) (rest : List String) (env : String → Option String) :
    run host ("--help" :: rest) env =
      (do host.print (Settings.usage ++ "\n"); return .success) :=
  rfl

end ScalarLang.Command
