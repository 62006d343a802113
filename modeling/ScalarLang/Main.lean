import ScalarLang.Command.Basic

/-!
# The command on the files of a system

The outer layer: files, standard input and standard output for `Command.run`. A line of
standard input is fetched when the machine is about to read one, and what the machine
writes is passed on after each step, so that a program can hold a conversation. Log
lines go where reports go.
-/

namespace ScalarLang.Command

/-- What the system says about a file, in the words of the library where it has some. -/
def failureOf : IO.Error → FileFailure
  | .noFileOrDirectory .. => .missing
  | .inappropriateType _ 20 _ => .notDirectory
  | .inappropriateType _ 21 _ => .isDirectory
  | failure => .other (toString failure)

/-- Tries a deed of the system. -/
def tried {α : Type} (deed : IO α) : IO (Except FileFailure α) := do
  try return .ok (← deed)
  catch failure => return .error (failureOf failure)

/-- A line of a stream, with the line feed that ends it. -/
partial def fetchLine (stream : IO.FS.Stream) (start : ByteArray) : IO ByteArray := do
  let byte ← stream.read 1
  if byte.isEmpty || byte[0]? == some 10 then return start ++ byte
  else fetchLine stream (start ++ byte)

/-- Whether the next instruction reads and there is nothing left to read. -/
def awaitsInput (code : Code) (m : Machine) : Bool :=
  match code.instrs[m.ip]? with
  | some (.read _) => m.console.input.isEmpty
  | _ => false

/-- The machine with a line of standard input, if it waits for one. -/
def supply (code : Code) (m : Machine) : IO Machine := do
  if awaitsInput code m then
    let line ← fetchLine (← IO.getStdin) .empty
    return { m with console := { m.console with input := line.toList } }
  else return m

/-- The machine with all that it wrote passed on. -/
def passOn (m : Machine) : IO Machine := do
  if m.console.output.isEmpty then return m
  else
    let stdout ← IO.getStdout
    stdout.write m.console.output
    stdout.flush
    return { m with console := { m.console with output := .empty } }

/-- Executes code to its end or a fault. -/
partial def executeFrom (code : Code) (policy : Policy) (m : Machine) :
    IO (Option Fault) := do
  match (← supply code m).step code policy with
  | .running m => executeFrom code policy (← passOn m)
  | .ended m =>
    let _ ← passOn m
    return none
  | .faulted m fault =>
    let _ ← passOn m
    return some fault

/-- The host that works on the files of the system. -/
def systemHost : Host IO where
  readFile path := do
    let contents ← tried do (← IO.FS.Handle.mk path .read).readBinToEnd
    return contents >>= fun bytes => (String.fromUTF8? bytes).elim (.error .notText) .ok
  writeFile path contents := tried (IO.FS.writeFile path contents)
  print text := IO.print text
  report text := IO.eprint text
  log text := IO.eprintln text
  execute policy instrs :=
    executeFrom (.ofList instrs) policy (.start (.ofInput [] none))

end ScalarLang.Command

def main (args : List String) : IO UInt32 := do
  let strict ← IO.getEnv ScalarLang.Settings.strictVariable
  let log ← IO.getEnv ScalarLang.Settings.logVariable
  let env (name : String) : Option String :=
    if name = ScalarLang.Settings.strictVariable then strict
    else if name = ScalarLang.Settings.logVariable then log
    else none
  return (← ScalarLang.Command.run ScalarLang.Command.systemHost args env).code.toUInt32
