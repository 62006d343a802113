import ScalarLang.Machine.Basic

/-!
# What the command works on

The command reads and writes files, prints, reports and executes code. How that is done
is up to its *host*, so that the command is one definition for the files of a system and
for files in memory: a host gives each deed in a monad of its own, and a deed that can
fail answers why it did.
-/

namespace ScalarLang

/-- Why a file was not read or written. -/
inductive FileFailure where
  /-- There is no such file, or no directory to put it in. -/
  | missing
  /-- The path names a directory. -/
  | isDirectory
  /-- The path goes through a file. -/
  | notDirectory
  /-- The contents are not UTF-8. -/
  | notText
  /-- Whatever else a system says. -/
  | other (message : String)
deriving DecidableEq

/-- The wording of a failure. -/
def FileFailure.message : FileFailure → String
  | missing => "No such file or directory (os error 2)"
  | isDirectory => "Is a directory (os error 21)"
  | notDirectory => "Not a directory (os error 20)"
  | notText => "stream did not contain valid UTF-8"
  | other message => message

/-- What carries out the deeds of the command. -/
structure Host (m : Type → Type) where
  /-- The contents of a file. -/
  readFile (path : String) : m (Except FileFailure String)
  /-- Makes a file have these contents. -/
  writeFile (path contents : String) : m (Except FileFailure Unit)
  /-- Prints a text. -/
  print (text : String) : m Unit
  /-- Shows a text to the user, apart from what is printed. -/
  report (text : String) : m Unit
  /-- Keeps an account of the work. -/
  log (text : String) : m Unit
  /-- Executes code from its start to its end or a fault. -/
  execute (policy : Policy) (instrs : List Instr) : m (Option Fault)

end ScalarLang
