import VariantScript.Host.Lift
import VariantScript.Host.Lower
import VariantScript.Text.Quoted

/-!
# Values in the data format

Values are serialized by handing them out and writing what the host gets: on one line, or with each
item on a line of its own and indented by its depth.  Numbers have to be finite.
-/

namespace VariantScript.Json

/-- How texts are laid out: on one line, or over lines that start with a text for each depth. -/
inductive Layout where
  | oneLine
  | lines (indent : String)
deriving DecidableEq, Repr

namespace Layout

/-- The layout over lines with a width of indentation; a negative width counts as none. -/
def ofWidth (width : Int) : Layout :=
  lines (String.ofList (List.replicate width.toNat ' '))

/-- The layout where none is asked for. -/
def standard : Layout := ofWidth 2

/-- What starts a new line at a depth. -/
def newline (l : Layout) (depth : Nat) : String :=
  match l with
  | oneLine => ""
  | lines indent => "\n" ++ String.join (List.replicate depth indent)

/-- What stands between two items at a depth. -/
def separator (l : Layout) (depth : Nat) : String :=
  match l with
  | oneLine => ", "
  | lines indent => "," ++ (lines indent).newline depth

/-- Items between brackets; the brackets stand at a depth. -/
def enclose (l : Layout) (depth : Nat) (left right : String) (items : List String) : String :=
  match items with
  | [] => left ++ right
  | _ =>
      left ++ l.newline (depth + 1) ++ String.intercalate (l.separator (depth + 1)) items ++
        l.newline depth ++ right

end Layout

/-- The written form of a text. -/
def writeText (s : String) : String :=
  String.ofList (Text.Quoted.encode s.toList)

/-- The written form of a number that is not handed out as a whole number. -/
def writeFloat (l : Layout) (x : Float) : Except MarshalError String :=
  if x.isFinite then .ok (Number.text x)
  else
    match l with
    | .oneLine => .error (.notFinite none)
    | .lines _ => .error (.notFinite (some (Number.text x)))

mutual
/-- The written form of a host value at a depth. -/
def write (l : Layout) (depth : Nat) : Host → Except MarshalError String
  | .null => .ok "null"
  | .truth flag => .ok (if flag then "true" else "false")
  | .whole n => .ok (toString n)
  | .float x => writeFloat l x
  | .text s => .ok (writeText s)
  | .list items => do return l.enclose depth "[" "]" (← writeAll l (depth + 1) items)
  | .tuple items => do return l.enclose depth "[" "]" (← writeAll l (depth + 1) items)
  | .map entries => do
      return l.enclose depth "\x7b" "\x7d" (← writeEntries l (depth + 1) entries)
  | other => .error (.unsupported other.typeName)

/-- The written forms of host values at a depth. -/
def writeAll (l : Layout) (depth : Nat) : List Host → Except MarshalError (List String)
  | [] => .ok []
  | h :: hs => do
      let text ← write l depth h
      let texts ← writeAll l depth hs
      return text :: texts

/-- The written forms of entries at a depth. -/
def writeEntries (l : Layout) (depth : Nat) :
    List (Host × Host) → Except MarshalError (List String)
  | [] => .ok []
  | (key, h) :: rest => do
      let name ← write l depth key
      let text ← write l depth h
      let texts ← writeEntries l depth rest
      return (name ++ ": " ++ text) :: texts
end

/-- The serialized form of a value of the language. -/
def ofValue (l : Layout) (v : Value) : Except MarshalStop String := do
  let h ← v.lower
  (write l 0 h).mapError MarshalError.stop

/-- The serialized form of any value, which is lifted first. -/
def ofLifted (l : Layout) (v : Value) : Making String := do
  liftM (ofValue l (← v.lift))

end VariantScript.Json
