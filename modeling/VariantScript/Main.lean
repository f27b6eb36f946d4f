import VariantScript.CommandLine.Job

/-!
# The command

Runs command lines on the terminal.  The plan of a command line and its outcome are computed by the
library; here the standard input, the files and the environment are read, and what is written is
printed.  Nobody answers on the network, so the saved program cannot be fetched.
-/

namespace VariantScript.CommandLine

open Surroundings

/-- Writes to the channels of the terminal. -/
def print (written : List Output) : IO Unit := do
  for o in written do
    match o with
    | .standard text => IO.print text
    | .diagnostic text => IO.eprint text
  (← IO.getStdout).flush

/-- The variables of the environment that settings are read from. -/
def readEnvironment : IO Environment := do
  let mut env : Environment := []
  for name in Settings.variableNames do
    if let some value ← IO.getEnv name then env := (name, value) :: env
  return env

/-- All that is left on the standard input. -/
partial def readInput (read : String) : IO String := do
  let line ← (← IO.getStdin).getLine
  if line.isEmpty then return read else readInput (read ++ line)

/-- The content of the file that a text names, if there is one. -/
def readFile? (name : String) : IO (Option String) := do
  try
    let content ← IO.FS.readFile name
    return some (String.ofList (unifyLineEnds content.toList))
  catch _ => return none

/-- The surroundings of the terminal. -/
def terminal : Environs IO where
  input := readInput ""
  content? := readFile?
  fetch url := return (.error .refused, [fetchEntry url])

/-- Asks for lines until the input ends or the prompt breaks down. -/
partial def ask (p : Prompt) : IO UInt32 := do
  IO.print ">>> "
  (← IO.getStdout).flush
  let line ← (← IO.getStdin).getLine
  if line.isEmpty then
    print [Prompt.farewell]
    return 0
  else
    let r := p.respond (.line (if line.endsWith "\n" then (line.dropEnd 1).toString else line))
    print r.written
    match r.crash with
    | some c =>
        IO.eprintln c.message
        return 1
    | none => ask r.next

/-- Prints an outcome and gives the status of the program. -/
def settle (o : Outcome) : IO UInt32 := do
  print o.written
  match o.ending with
  | .finished status | .left status => return status.toUInt32
  | .noInput =>
      IO.eprintln noInputMessage
      return 1
  | .crashed c =>
      IO.eprintln c.message
      return 1

/-- Carries out a plan. -/
def Plan.carryOut : Plan → IO UInt32
  | .explain => settle explanation
  | .refuse e => settle (refusal e)
  | .converse settings threshold => do
      print [Prompt.banner]
      ask (.ofSettings settings threshold)
  | .run job => do settle (← job.complete terminal)
  | .breakDown b => settle (collapse b)

end VariantScript.CommandLine

/-- Runs the command with its words. -/
def main (words : List String) : IO UInt32 := do
  let env ← VariantScript.CommandLine.readEnvironment
  (VariantScript.CommandLine.Plan.ofWords env words).carryOut
