import VariantScript.CommandLine.Arguments
import VariantScript.Host.Json
import VariantScript.Prompt.Dialogue
import VariantScript.Surroundings.Files
import VariantScript.Surroundings.Network

/-!
# Jobs of the command line

What a command line makes of the program: it explains itself, refuses its words, opens a dialogue, or
runs one text and shows the result.  The text is the standard input, a file, a word of the command
line, or the saved program.
-/

namespace VariantScript.CommandLine

open Surroundings

/-- Where the text of a job comes from. -/
inductive Source where
  | input
  /-- The file of a name, or the name itself if there is no such file. -/
  | named (name : String)
  | saved (url : String)
deriving DecidableEq, Repr

/-- The running of one text. -/
structure Job where
  source : Source
  /-- Whether the result is serialized. -/
  json : Bool
  legacyKeys : Bool
  threshold : Log.Threshold
deriving DecidableEq, Repr

/-- What a command line asks for. -/
inductive Plan where
  | explain
  | refuse (error : ArgumentError)
  | converse (settings : Settings) (threshold : Log.Threshold)
  | run (job : Job)
  | breakDown (breakdown : Breakdown)

/-- How a program ends. -/
inductive Ending where
  /-- It comes to its end with a status. -/
  | finished (status : Nat)
  /-- It leaves before it has begun, with a status. -/
  | left (status : Nat)
  | noInput
  | crashed (crash : Crash)

/-- What is said where there is no text on the standard input. -/
def noInputMessage : String := "No input provided on stdin"

/-- What a program writes and how it ends. -/
structure Outcome where
  ending : Ending
  written : List Output

namespace Invocation

/-- The settings of an environment with the options of the invocation. -/
def settings (i : Invocation) (env : Environment) : Settings :=
  let s := Settings.ofEnvironment env
  if i.legacyKeys then { s with legacyKeys := true } else s

/-- Where the text comes from: from the saved program if it is asked for, from the standard input if
no source or a dash is named. -/
def origin (i : Invocation) (s : Settings) : Source :=
  if i.fetch then .saved s.sourceUrl
  else
    match i.source with
    | none | some "-" => .input
    | some name => .named name

/-- What the invocation asks for. -/
def plan (i : Invocation) (env : Environment) : Plan :=
  let s := i.settings env
  match s.threshold i.verbosity with
  | .error b => .breakDown b
  | .ok threshold =>
      if i.repl then .converse s threshold
      else .run ⟨i.origin s, i.json, s.legacyKeys, threshold⟩

end Invocation

/-- What a command line asks for in an environment. -/
def Plan.ofWords (env : Environment) (words : List String) : Plan :=
  match Invocation.read words with
  | .ok (some i) => i.plan env
  | .ok none => .explain
  | .error e => .refuse e

/-! ## Running a job -/

/-- Where a program gets texts from, in any kind of computation. -/
structure Environs (m : Type → Type) where
  /-- All of the standard input. -/
  input : m String
  /-- The content of the file that a text names, if it names one. -/
  content? : String → m (Option String)
  /-- The saved program at an address, with the log entries on the way. -/
  fetch : String → m (Except NetworkError String × List Log.Entry)

/-- Surroundings that are known beforehand. -/
def Environs.ofData (input : String) (files : Files) (network : Network) : Environs Id where
  input := input
  content? := files.content?
  fetch url :=
    let exchange := fetchSource network url (some url)
    (exchange.result, exchange.log)

/-- Why a job has no text to run. -/
inductive NoText where
  | noInput
  | network (error : NetworkError)

namespace Job

/-- What is written for log entries. -/
def writeLog (j : Job) (entries : List Log.Entry) : List Output :=
  (entries.filter j.threshold.admits).map fun e => .diagnostic (e.line ++ "\n")

/-- The text of a job, and what is written while it is fetched. -/
def load {m : Type → Type} [Monad m] (j : Job) (around : Environs m) :
    m (Except NoText String × List Output) := do
  match j.source with
  | .input =>
      let text ← around.input
      return (if text.isEmpty then .error .noInput else .ok text, [])
  | .named name => return (.ok ((← around.content? name).getD name), [])
  | .saved url =>
      let (text, entries) ← around.fetch url
      return (text.mapError .network, j.writeLog entries)

/-- The text that shows a result. -/
def show? (j : Job) (value : Value) : Except MarshalStop String :=
  if j.json then Json.ofValue .standard value
  else value.shown.mapError MarshalStop.breakdown

/-- What is written about a failure. -/
def complain (message : String) : Output :=
  .diagnostic s!"Error: {message}\n"

/-- Runs a text and shows its result. -/
def run (j : Job) (code : String) : Outcome :=
  let (result, events) := runText code j.legacyKeys .recording
  let shown := events.filterMap (Output.ofEvent? j.threshold .diagnostic)
  match result with
  | .ok value =>
      match j.show? value with
      | .ok text => ⟨.finished 0, shown ++ [.standard s!"{text}\n"]⟩
      | .error (.refused e) => ⟨.finished 1, shown ++ [complain e.message]⟩
      | .error (.breakdown b) => ⟨.crashed (.breakdown b), shown⟩
  | .error (.crash c) => ⟨.crashed c, shown⟩
  | .error failure => ⟨.finished 1, shown ++ [complain failure.message]⟩

/-- What becomes of a job whose text has been asked for. -/
def finish (j : Job) (text : Except NoText String) : Outcome :=
  match text with
  | .ok code => j.run code
  | .error .noInput => ⟨.noInput, []⟩
  | .error (.network e) =>
      ⟨.finished 1, [complain s!"could not fetch source: {e.message}"]⟩

/-- Loads a text and runs it. -/
def complete {m : Type → Type} [Monad m] (j : Job) (around : Environs m) : m Outcome := do
  let (text, written) ← j.load around
  let o := j.finish text
  return { o with written := written ++ o.written }

end Job

/-- What is written where the program explains itself. -/
def explanation : Outcome := ⟨.left 0, [.standard help]⟩

/-- What is written where the program refuses its words. -/
def refusal (e : ArgumentError) : Outcome := ⟨.left 2, [.diagnostic e.report]⟩

/-- What is written where the program breaks down before it has begun. -/
def collapse (b : Breakdown) : Outcome := ⟨.crashed (.breakdown b), []⟩

end VariantScript.CommandLine
