import ScalarLang.Command.Basic
import ScalarLang.Command.Directory

/-!
# The command on files in memory

With a directory in memory and a console, the command is a function: what it leaves is
the directory, the console and the text that was reported. How code is executed is left
open, because not all code comes to an end. Accounts of the work are not kept.
-/

namespace ScalarLang.Command

/-- What the command works on in memory. -/
structure Memory where
  directory : Directory
  console : Console
  /-- All that was reported. -/
  reported : String

/-- A way to execute code from the start of a machine to where it stops. -/
abbrev Execution := Code → Policy → Machine → Machine × Option Fault

namespace Memory

/-- A directory and an input, and nothing done yet. -/
def ofFiles (files : List (String × ByteArray)) (input : List UInt8) : Memory :=
  ⟨.ofFiles files, .ofInput input none, ""⟩

/-- The host that works in memory. -/
def host (execution : Execution) : Host (StateM Memory) where
  readFile path := do
    return (← get).directory.read path >>= fun contents =>
      (String.fromUTF8? contents).elim (.error .notText) .ok
  writeFile path contents := fun memory =>
    match memory.directory.write path contents.toUTF8 with
    | .ok directory => (.ok (), { memory with directory := directory })
    | .error failure => (.error failure, memory)
  print text := modify fun memory =>
    { memory with console := (memory.console.write text).2 }
  report text := modify fun memory =>
    { memory with reported := memory.reported ++ text }
  log _ := pure ()
  execute policy instrs := fun memory =>
    let (machine, fault) := execution (.ofList instrs) policy (.start memory.console)
    (fault, { memory with console := machine.console })

/-- What the command leaves, and how it ends. -/
def run (memory : Memory) (execution : Execution) (args : List String)
    (env : String → Option String) : Ending × Memory :=
  Command.run (host execution) args env memory

end Memory

end ScalarLang.Command
