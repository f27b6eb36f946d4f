import VariantScript.Breakdown
import VariantScript.Text.Blank

/-!
# Prompt lines and commands

How a line of the prompt is read: characters that cannot be seen are dropped, blank lines mean
nothing, and a line whose first visible character is a slash is a command.  A command line is a word
and an argument.  While a command is typed, the commands that it may become are offered.
-/

namespace VariantScript.Prompt

/-- Whether a character is dropped from a line: spaces without width, spaces that do not break, marks
of byte order and carriage returns. -/
def isInvisible (c : Char) : Bool :=
  c = '\u200b' || c = '\u200c' || c = '\u200d' || c = '\ufeff' || c = '\u00a0' || c = '\r'

/-- The line without the characters that cannot be seen. -/
def normalize (line : String) : String :=
  String.ofList (line.toList.filter (! isInvisible ·))

/-! ## Switches -/

/-- The words that switch on. -/
def onWords : List String := ["on", "1", "true", "yes"]

/-- The words that switch off. -/
def offWords : List String := ["off", "0", "false", "no"]

/-- How a switch stands after an argument: the words set it, no argument flips it, and anything else
is refused. -/
def toggle? (arg : String) (current : Bool) : Option Bool :=
  let word := String.ofList (Text.lower arg.toList)
  if onWords.contains word then some true
  else if offWords.contains word then some false
  else if word.isEmpty then some (! current)
  else none

/-- How a switch is shown. -/
def switchText (flag : Bool) : String :=
  if flag then "on" else "off"

/-! ## Commands -/

/-- The commands of the prompt. -/
inductive Command where
  | clear
  | legacyKeys
  | traceback
  | reset
deriving DecidableEq, Repr

namespace Command

/-- The commands in the order in which they are offered. -/
def all : List Command := [clear, legacyKeys, traceback, reset]

/-- The word of the command. -/
def word : Command → String
  | clear => "/clear"
  | legacyKeys => "/legacy-keys"
  | traceback => "/py-traceback"
  | reset => "/reset"

/-- What the command does. -/
def description : Command → String
  | clear => "Clear the terminal screen"
  | legacyKeys => "Toggle left-side key counting in equal"
  | traceback => "Toggle Python traceback on errors"
  | reset => "Reset the REPL environment"

/-- The argument that the command takes, as it is offered. -/
def hint : Command → String
  | clear | reset => ""
  | legacyKeys | traceback => "[on|off]"

/-- The command of a word. -/
def ofWord? (text : String) : Option Command :=
  all.find? fun c => c.word = text

/-- How the command is offered: its word and its hint. -/
def display (c : Command) : String :=
  if c.hint.isEmpty then c.word else s!"{c.word} {c.hint}"

end Command

/-- What a line asks for. -/
inductive Request where
  | nothing
  | command (command : Command) (arg : String)
  | unknown (word : String)
  | code (text : String)
deriving DecidableEq, Repr

/-- What a line without invisible characters asks for. -/
def Request.ofLine (line : String) : Request :=
  match Text.trim line.toList with
  | [] => nothing
  | '/' :: rest =>
      let (word, arg) := Text.splitWord ('/' :: rest)
      match Command.ofWord? (String.ofList word) with
      | some c => command c (String.ofList arg)
      | none => unknown (String.ofList word)
  | _ => code line

/-! ## Completion -/

/-- A completion of a typed text. -/
structure Completion where
  command : Command
  /-- How many typed characters it replaces. -/
  replaced : Nat
deriving DecidableEq, Repr

/-- The completions of the text before the cursor: the commands that start with it, if it starts
with a slash. -/
def completions (typed : List Char) : List Completion :=
  match typed with
  | '/' :: _ =>
      (Command.all.filter fun c => typed.isPrefixOf c.word.toList).map (⟨·, typed.length⟩)
  | _ => []

/-- The text before a cursor, which is counted from the end of the text if it is negative. -/
def beforeCursor (text : String) (cursor : Int) : Except Breakdown (List Char) :=
  if (text.length : Int) < cursor then .error (.cursorBeyond text cursor)
  else if 0 ≤ cursor then .ok (text.toList.take cursor.toNat)
  else .ok (text.toList.take (text.length - cursor.natAbs))

/-- The completions of a text at a cursor, or at its end. -/
def completionsAt (text : String) (cursor : Option Int) : Except Breakdown (List Completion) :=
  match cursor with
  | some cursor => (beforeCursor text cursor).map completions
  | none => .ok (completions text.toList)

end VariantScript.Prompt
