import VariantScript.Breakdown
import VariantScript.Text.Split

/-!
# Files

Files under the directory in which a program runs.  A path is followed from that directory on; what
lies outside of it is not there.  A file is read as text, in which every kind of line end becomes a
line feed.
-/

namespace VariantScript.Surroundings

/-- The files of a directory with their paths and contents. -/
structure Files where
  entries : List (List String × String)

/-- Where a path starts: at a directory, at the root of all directories, or at the root written with
two slashes. -/
inductive Path.Start where
  | here
  | root
  | doubleRoot
deriving DecidableEq, Repr

/-- How the start of a path is written. -/
def Path.Start.text : Path.Start → String
  | .here => ""
  | .root => "/"
  | .doubleRoot => "//"

/-- A path: its start and the steps from there. -/
structure Path where
  start : Path.Start
  steps : List String
deriving DecidableEq, Repr

namespace Path

/-- The steps of a written path; empty steps and those that stay in place are left out. -/
def stepsOf (text : String) : List String :=
  (Text.split text "/").filter fun step => ! step.isEmpty && step ≠ "."

/-- The start of a written path; three slashes and more are one. -/
def startOf (text : String) : Path.Start :=
  match (text.toList.takeWhile (· = '/')).length with
  | 0 => .here
  | 2 => .doubleRoot
  | _ => .root

/-- The path that a text writes. -/
def ofText (text : String) : Path :=
  ⟨startOf text, stepsOf text⟩

/-- The path written out; the path without start and steps is a point. -/
def toText (p : Path) : String :=
  let text := p.start.text ++ String.intercalate "/" p.steps
  if text.isEmpty then "." else text

end Path

/-- Why a file cannot be read. -/
inductive FileError where
  | missing
  | notADirectory
  | isADirectory
  | nameTooLong
deriving DecidableEq, Repr

/-- The number of the error. -/
def FileError.number : FileError → Nat
  | .missing => 2
  | .notADirectory => 20
  | .isADirectory => 21
  | .nameTooLong => 36

/-- What is said about the error. -/
def FileError.text : FileError → String
  | .missing => "No such file or directory"
  | .notADirectory => "Not a directory"
  | .isADirectory => "Is a directory"
  | .nameTooLong => "File name too long"

/-- What is said about the error at a path. -/
def FileError.message (e : FileError) (p : Path) : String :=
  s!"[Errno {e.number}] {e.text}: {Text.literal p.toText}"

/-- What a path leads to. -/
inductive Place where
  | directory
  | file (content : String)
deriving DecidableEq, Repr

/-- A text in which carriage returns, alone or before a line feed, have become line feeds. -/
def unifyLineEnds : List Char → List Char
  | '\r' :: '\n' :: rest => '\n' :: unifyLineEnds rest
  | '\r' :: rest => '\n' :: unifyLineEnds rest
  | c :: rest => c :: unifyLineEnds rest
  | [] => []

namespace Files

/-- The files of a sequence of names and contents. -/
def ofList (files : List (String × String)) : Files :=
  ⟨files.map fun (name, content) => (Path.stepsOf name, content)⟩

/-- What lies at some steps below the directory. -/
def place? (fs : Files) (steps : List String) : Option Place :=
  match fs.entries.lookup steps with
  | some content => some (.file content)
  | none =>
      if steps.isEmpty || fs.entries.any (fun entry => steps.isPrefixOf entry.1) then
        some .directory
      else none

/-- How many bytes the name of a file may have. -/
def nameBound : Nat := 255

/-- How many bytes a path may have. -/
def pathBound : Nat := 4095

/-- Follows steps from a directory above all files, where nothing else lies. -/
def followOutside (steps : List String) : Except FileError Place :=
  match steps.dropWhile (· = "..") with
  | [] => .ok .directory
  | step :: _ => .error (if nameBound < step.utf8ByteSize then .nameTooLong else .missing)

/-- Follows steps from a directory that lies some steps below; the steps to it are given in reverse. -/
def follow (fs : Files) (here : List String) : List String → Except FileError Place
  | [] => .ok .directory
  | step :: rest =>
      if step = ".." then
        match here with
        | [] => followOutside rest
        | _ :: above => fs.follow above rest
      else if nameBound < step.utf8ByteSize then .error .nameTooLong
      else
        match fs.place? (here.reverse ++ [step]), rest with
        | none, _ => .error .missing
        | some (.file content), [] => .ok (.file content)
        | some (.file _), _ :: _ => .error .notADirectory
        | some .directory, _ => fs.follow (step :: here) rest

/-- The content of the file that a path leads to. -/
def read (fs : Files) (p : Path) : Except FileError String :=
  let place :=
    if pathBound < p.toText.utf8ByteSize then .error .nameTooLong
    else if p.start = .here then fs.follow [] p.steps
    else followOutside p.steps
  match place with
  | .ok (.file content) => .ok (String.ofList (unifyLineEnds content.toList))
  | .ok .directory => .error .isADirectory
  | .error e => .error e

/-- The content of the file that a written path leads to, or what is said about the failure. -/
def readText (fs : Files) (path : String) : Except Breakdown (Except String String) :=
  if path.toList.contains '\x00' then .error .brokenPath
  else
    let p := Path.ofText path
    .ok ((fs.read p).mapError (·.message p))

/-- The content of the file that a text names, if it names one; a text that ends like the path of a
directory does not. -/
def content? (fs : Files) (text : String) : Option String :=
  match (Text.split text "/").getLast? with
  | some last =>
      if last.isEmpty || last = "." then none else (fs.read (.ofText text)).toOption
  | none => none

end Files

end VariantScript.Surroundings
