import VariantScript.Breakdown

/-!
# The keyboard

Which handler runs for a key, and what it hands on.  A handler for the very key comes before one for
any key, and of two handlers for the same key the one that was added later.  Listening adds handlers
that hand on printable input and the names of the keys of navigation; chords are left to the handlers
that they have.
-/

namespace VariantScript.Surroundings

/-- What a handler does. -/
inductive Handler where
  /-- Reports a key that was bound before. -/
  | chord (key : String)
  /-- Hands on what the key enters, if all of it can be printed. -/
  | printable
  /-- Hands on a name. -/
  | named (name : String)
deriving DecidableEq, Repr

/-- What a handler reports. -/
inductive Dispatch where
  | chord (key : String)
  | text (text : String)
deriving DecidableEq, Repr

/-- What a handler reports for a key that enters some data. -/
def Handler.run (data : String) : Handler → List Dispatch
  | .chord key => [.chord key]
  | .printable => if ! data.isEmpty && data.toList.all Text.isPrintable then [.text data] else []
  | .named name => [.text name]

/-- A handler and the key that it is for; a binding without a key is for all of them. -/
structure Binding where
  key : Option String
  handler : Handler
deriving DecidableEq, Repr

namespace Keyboard

/-- The keys with a second name. -/
def aliases : List (String × String) :=
  [("backspace", "c-h"), ("c-space", "c-@"), ("enter", "c-m"), ("tab", "c-i"), ("space", " "),
    ("s-c-left", "c-s-left"), ("s-c-right", "c-s-right"), ("s-c-home", "c-s-home"),
    ("s-c-end", "c-s-end")]

/-- The first name of a key. -/
def keyOf (name : String) : String :=
  (aliases.lookup name).getD name

/-- How all keys together are named. -/
def anyKey : String := "<any>"

/-- The keys that move, which go with every modifier. -/
def movingKeys : List String :=
  ["left", "right", "up", "down", "home", "end", "insert", "delete", "pageup", "pagedown"]

/-- The characters that go with the control key, with or without the shift key the digits. -/
def controlKeys : List Char :=
  "@abcdefghijklmnopqrstuvwxyz1234567890\\]^_".toList

/-- The function keys. -/
def functionKeys : List String :=
  (List.range 24).map fun n => s!"f{n + 1}"

/-- What is no key of a keyboard but comes in like one. -/
def reports : List String :=
  ["<any>", "<scroll-up>", "<scroll-down>", "<cursor-position-response>", "<vt100-mouse-event>",
    "<windows-mouse-event>", "<bracketed-paste>", "<sigint>", "<ignore>"]

/-- The names of keys that are longer than one character. -/
def keyNames : List String :=
  ["escape", "s-escape", "s-tab"] ++
    controlKeys.map (fun c => s!"c-{c}") ++
    (controlKeys.filter Char.isDigit).map (fun c => s!"c-s-{c}") ++
    ["", "c-", "s-", "c-s-"].flatMap (fun modifier => movingKeys.map (modifier ++ ·)) ++
    functionKeys ++ functionKeys.map ("c-" ++ ·) ++ reports

/-- Whether a name is that of a key; a character is its own. -/
def isKey (name : String) : Bool :=
  (keyOf name).length = 1 || keyNames.contains (keyOf name)

/-- The binding of a named key to a handler. -/
def bind (name : String) (handler : Handler) : Except Breakdown Binding :=
  if ! isKey name then .error (.unknownKey name)
  else .ok ⟨if name = anyKey then none else some (keyOf name), handler⟩

/-- The keys of navigation and the names that are handed on for them. -/
def namedKeys : List (String × String) :=
  [("up", "ArrowUp"), ("down", "ArrowDown"), ("left", "ArrowLeft"), ("right", "ArrowRight"),
    ("home", "Home"), ("end", "End"), ("delete", "Delete"), ("pageup", "PageUp"),
    ("pagedown", "PageDown")]

/-- The bindings with those that listening adds. -/
def listen (bindings : List Binding) : List Binding :=
  bindings ++ ⟨none, .printable⟩ :: namedKeys.map fun (key, name) => ⟨some key, .named name⟩

/-- The bindings of the given keys, which report them, and those that listening adds. -/
def ofBound (keys : List String) : Except Breakdown (List Binding) := do
  return listen (← keys.mapM fun key => bind key (.chord key))

/-- The handler that runs for a key. -/
def handler? (bindings : List Binding) (name : String) : Option Handler :=
  let latest (key : Option String) := bindings.reverse.find? fun b => b.key = key
  ((latest (some (keyOf name))).or (latest none)).map Binding.handler

/-- What is reported when a key is pressed. -/
def press (bindings : List Binding) (name data : String) : List Dispatch :=
  match handler? bindings name with
  | some handler => handler.run data
  | none => []

end Keyboard

end VariantScript.Surroundings
