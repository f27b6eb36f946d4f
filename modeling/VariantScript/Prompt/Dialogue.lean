import VariantScript.Output
import VariantScript.Prompt.Command
import VariantScript.Session
import VariantScript.Settings

/-!
# Dialogues at the prompt

The prompt asks for lines until the input ends.  Each line is a command or a text that is run in the
session of the prompt; faults are reported and the dialogue goes on.  Only a breakdown ends it early.
-/

namespace VariantScript

/-- What the prompt keeps between lines. -/
structure Prompt where
  session : Session
  /-- Whether errors are shown with the way they came up. -/
  traceback : Bool
  /-- The threshold of the log. -/
  threshold : Log.Threshold

namespace Prompt

/-- What comes in at the prompt. -/
inductive Input where
  | line (text : String)
  | interrupt
deriving DecidableEq, Repr

/-- What the prompt answers: what it writes, what it keeps, and whether it broke down. -/
structure Response where
  written : List Output
  next : Prompt
  crash : Option Crash

/-- The prompt for some settings. -/
def ofSettings (s : Settings) (threshold : Log.Threshold) : Prompt :=
  ⟨.start s.legacyKeys .recording, s.traceback, threshold⟩

/-- What is written before the first line is asked for. -/
def banner : Output :=
  .standard "eyg harness repl (Ctrl-D to exit, / for commands)\n"

/-- What is written when the input ends. -/
def farewell : Output := .standard "\n"

/-- The answer to a switch command. -/
def switchResponse (c : Command) (label : String) (flag : Option Bool) (p : Prompt)
    (set : Bool → Prompt) : Response :=
  match flag with
  | some flag => ⟨[.standard s!"{label}: {switchText flag}\n"], set flag, none⟩
  | none => ⟨[.diagnostic s!"Usage: {c.display}\n"], p, none⟩

/-- The answer to a command. -/
def obey (c : Command) (arg : String) (p : Prompt) : Response :=
  match c with
  | .clear => ⟨[.standard "<clear>\n"], p, none⟩
  | .traceback =>
      switchResponse c "Python traceback" (toggle? arg p.traceback) p fun flag =>
        { p with traceback := flag }
  | .legacyKeys =>
      switchResponse c "Legacy key counting" (toggle? arg p.session.world.legacy) p fun flag =>
        { p with session := p.session.setLegacy flag }
  | .reset => ⟨[.standard "Environment reset.\n"], { p with session := p.session.reset }, none⟩

/-- What is written about a result: values but the empty array are shown, failures reported. -/
def report (traceback : Bool) : Except Failure Value → List Output
  | .ok value => if value.isUnit then [] else [.standard s!"{value.display}\n"]
  | .error (.crash _) => []
  | .error failure =>
      let error := Output.diagnostic s!"Error: {failure.message}\n"
      if traceback then [error, .diagnostic "\nPython traceback:\n"] else [error]

/-- Runs a text in the session of the prompt. -/
def runCode (code : String) (p : Prompt) : Response :=
  let (result, session) := p.session.clearEvents.run code
  let shown := session.world.events.toList.filterMap (Output.ofEvent? p.threshold .standard)
  let crash := match result with
    | .error (.crash c) => some c
    | _ => none
  ⟨shown ++ report p.traceback result, { p with session }, crash⟩

/-- The answer to what comes in. -/
def respond (input : Input) (p : Prompt) : Response :=
  match input with
  | .interrupt => ⟨[.standard "KeyboardInterrupt\n"], p, none⟩
  | .line text =>
      match Request.ofLine (normalize text) with
      | .nothing => ⟨[], p, none⟩
      | .command c arg => p.obey c arg
      | .unknown word => ⟨[.diagnostic s!"Unknown command: {word}\n"], p, none⟩
      | .code code => p.runCode code

/-! ## Whole dialogues -/

/-- What is written during a dialogue, from one question to the next, and how it broke down. -/
structure Transcript where
  steps : List (List Output)
  crash : Option Crash

/-- The answers to what comes in, up to the end of the input or a breakdown. -/
def answers : List Input → Prompt → Transcript
  | [], _ => ⟨[[farewell]], none⟩
  | input :: rest, p =>
      let r := p.respond input
      match r.crash with
      | some c => ⟨[r.written], some c⟩
      | none =>
          let t := answers rest r.next
          ⟨r.written :: t.steps, t.crash⟩

/-- A whole dialogue. -/
def converse (inputs : List Input) (p : Prompt) : Transcript :=
  let t := answers inputs p
  ⟨[banner] :: t.steps, t.crash⟩

end Prompt

end VariantScript
