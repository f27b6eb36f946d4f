import VariantScript.Text.Digit
import VariantScript.Text.Literal

/-!
# Arguments

How the words of a command line are read.  A word is an option, an option cut short, several short
options behind one dash, a plain word, or the separator behind which every word is plain.  The first
plain word names the source; whatever has no meaning is left over and refused at the end.
-/

namespace VariantScript.CommandLine

/-- The options. -/
inductive Flag where
  | help
  | json
  | legacyKeys
  | fetch
  | repl
  | verbose
deriving DecidableEq, Repr

namespace Flag

/-- The options, in the order in which they are explained. -/
def all : List Flag := [help, json, legacyKeys, fetch, repl, verbose]

/-- The letter of an option that has a short form. -/
def letter? : Flag → Option Char
  | help => some 'h'
  | verbose => some 'v'
  | _ => none

/-- The long form of the option. -/
def long : Flag → String
  | help => "--help"
  | json => "--json"
  | legacyKeys => "--legacy-keys"
  | fetch => "--fetch"
  | repl => "--repl"
  | verbose => "--verbose"

/-- What the option is called in messages. -/
def name (f : Flag) : String :=
  match f.letter? with
  | some c => s!"-{c}/{f.long}"
  | none => f.long

/-- The option of a letter. -/
def ofLetter? (c : Char) : Option Flag :=
  all.find? fun f => f.letter? = some c

/-- The option of a long form. -/
def ofLong? (text : List Char) : Option Flag :=
  all.find? fun f => f.long.toList = text

/-- The options that a cut long form may stand for. -/
def ofCut (text : List Char) : List Flag :=
  all.filter fun f => text.isPrefixOf f.long.toList

end Flag

/-- What is wrong with a command line. -/
inductive ArgumentError where
  | ambiguous (word : String) (matching : List Flag)
  | ignoredValue (flag : Flag) (value : String)
  | unrecognized (words : List String)
deriving DecidableEq, Repr

/-- What is said about the error. -/
def ArgumentError.message : ArgumentError → String
  | .ambiguous word matching =>
      let names := String.intercalate ", " (matching.map Flag.long)
      s!"ambiguous option: {word} could match {names}"
  | .ignoredValue flag value =>
      s!"argument {flag.name}: ignored explicit argument {Text.literal value}"
  | .unrecognized words =>
      let shown := String.intercalate " " words
      s!"unrecognized arguments: {shown}"

/-! ## Words -/

/-- What a word is. -/
inductive Word where
  | plain (text : String)
  | separator
  /-- A long option with the value that is attached to it. -/
  | long (flag : Flag) (value : Option String)
  /-- Short options behind one dash: the first one and what follows it. -/
  | short (flag : Flag) (rest : List Char)
  | unknown (text : String)
deriving DecidableEq, Repr

/-- Whether a word behind a dash is a number: digits, or digits with a point before the last of them. A
line feed may end it. -/
def isNumber (cs : List Char) : Bool :=
  let cs := if cs.getLast? = some '\n' then cs.dropLast else cs
  match cs.dropWhile Text.isDigit with
  | [] => ! cs.isEmpty
  | c :: fraction => c = '.' && ! fraction.isEmpty && fraction.all Text.isDigit

/-- A word as the text before its first equals sign and the text behind it. -/
def splitValue (cs : List Char) : List Char × Option String :=
  match cs.dropWhile (· ≠ '=') with
  | [] => (cs, none)
  | _ :: value => (cs.takeWhile (· ≠ '='), some (String.ofList value))

/-- What a word with a dash is that stands for no option: a number or a text with spaces is plain. -/
def Word.ofOther (text : String) (behindDash : List Char) : Word :=
  if isNumber behindDash || text.toList.contains ' ' then .plain text else .unknown text

/-- What a word before the separator is. -/
def Word.ofText (text : String) : Except ArgumentError Word :=
  match text.toList with
  | ['-', '-'] => .ok .separator
  | '-' :: '-' :: rest =>
      let (name, value) := splitValue ('-' :: '-' :: rest)
      match Flag.ofLong? name with
      | some flag => .ok (.long flag value)
      -- A name that is cut short counts if it fits one option only.
      | none =>
          match Flag.ofCut name with
          | [] => .ok (.ofOther text ('-' :: rest))
          | [flag] => .ok (.long flag value)
          | several => .error (.ambiguous text several)
  | '-' :: c :: rest =>
      match Flag.ofLetter? c with
      | some flag => .ok (.short flag rest)
      | none => .ok (.ofOther text (c :: rest))
  | _ => .ok (.plain text)

/-- What the words of a command line are; all words behind the separator are plain. -/
def Word.ofTexts : List String → Except ArgumentError (List Word)
  | [] => .ok []
  | text :: texts => do
      match ← Word.ofText text with
      | .separator => return .separator :: texts.map .plain
      | word => return word :: (← Word.ofTexts texts)

/-! ## Short options -/

/-- The options of a word of short options, and what is left over of it.  A value is refused: behind
an equals sign, or if it starts with a dash. -/
def shortFlags (flag : Flag) : List Char → Except ArgumentError (List Flag × Option String)
  | [] => .ok ([flag], none)
  | '=' :: value => .error (.ignoredValue flag (String.ofList value))
  | '-' :: value => .error (.ignoredValue flag (String.ofList ('-' :: value)))
  | c :: rest =>
      match Flag.ofLetter? c with
      | some next => do
          let (flags, left) ← shortFlags next rest
          return (flag :: flags, left)
      | none => .ok ([flag], some (String.ofList ('-' :: c :: rest)))

/-! ## The command line as a whole -/

/-- What a command line asks for. -/
structure Invocation where
  source : Option String
  json : Bool
  legacyKeys : Bool
  fetch : Bool
  repl : Bool
  verbosity : Nat
deriving DecidableEq, Repr

namespace Invocation

/-- The invocation without any words. -/
def bare : Invocation := ⟨none, false, false, false, false, 0⟩

/-- The invocation with one more option; help is no part of it. -/
def add (i : Invocation) : Flag → Invocation
  | .help => i
  | .json => { i with json := true }
  | .legacyKeys => { i with legacyKeys := true }
  | .fetch => { i with fetch := true }
  | .repl => { i with repl := true }
  | .verbose => { i with verbosity := i.verbosity + 1 }

end Invocation

/-- What has been read of a command line. -/
inductive Reading where
  | help
  | invocation (invocation : Invocation) (left : List String)
deriving DecidableEq, Repr

/-- Reads words in order.  Help ends the reading at once.  The separator is left over too unless it
stands before the source or right behind it. -/
def readWords (i : Invocation) (behindSource : Bool) : List Word → Except ArgumentError Reading
  | [] => .ok (.invocation i [])
  | .plain text :: rest =>
      match i.source with
      | none => readWords { i with source := some text } true rest
      | some _ => leave text (readWords i false rest)
  | .separator :: rest =>
      if i.source.isNone || behindSource then readWords i false rest
      else leave "--" (readWords i false rest)
  | .unknown text :: rest => leave text (readWords i false rest)
  | .long flag none :: rest =>
      if flag = .help then .ok .help else readWords (i.add flag) false rest
  | .long flag (some value) :: _ => .error (.ignoredValue flag value)
  | .short flag letters :: rest => do
      let (flags, left) ← shortFlags flag letters
      if flags.contains .help then return .help
      else
        let reading := readWords (flags.foldl .add i) false rest
        match left with
        | some text => leave text reading
        | none => reading
where
  /-- Adds a word that is left over. -/
  leave (text : String) : Except ArgumentError Reading → Except ArgumentError Reading
    | .ok (.invocation i left) => .ok (.invocation i (text :: left))
    | other => other

/-- The invocation of a command line; `none` if it asks for help. -/
def Invocation.read (words : List String) : Except ArgumentError (Option Invocation) := do
  match ← readWords .bare false (← Word.ofTexts words) with
  | .help => return none
  | .invocation i [] => return some i
  | .invocation _ left => throw (.unrecognized left)

/-! ## Texts -/

/-- The usage of the command. -/
def usage : String :=
  "usage: eyg-harness [-h] [--json] [--legacy-keys] [--fetch] [--repl] [-v]\n" ++
    "                   [source]\n"

/-- The help text of the command. -/
def help : String :=
  usage ++
    "\nRun generated EYG code in the harness sandbox\n" ++
    "\npositional arguments:\n" ++
    "  source         Path to a source file, literal code, or - for stdin\n" ++
    "\noptions:\n" ++
    "  -h, --help     show this help message and exit\n" ++
    "  --json         Print the result as pretty JSON\n" ++
    "  --legacy-keys  Count record keys from the left operand only when comparing\n" ++
    "  --fetch        Run the saved program from the configured source URL\n" ++
    "  --repl         Start an interactive session\n" ++
    "  -v, --verbose  Increase log verbosity\n"

/-- What is written about a command line that is refused. -/
def ArgumentError.report (e : ArgumentError) : String :=
  s!"{usage}eyg-harness: error: {e.message}\n"

end VariantScript.CommandLine
