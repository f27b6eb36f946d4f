import VariantScript.Breakdown
import VariantScript.Number.Text
import VariantScript.Syntax.Term

/-!
# Values

What scripts compute: numbers, strings, arrays, records, variants of two closed families, functions
and the built-in operations.  Every value but a string or a built-in operation has an identity, which
tells apart objects that were made at different times; the unit array, the two truth values and the
empty list exist once.

Booleans and lists are variants.  A boolean carries the unit array; a list is empty or a head, which
carries an element and the rest of the list.

The program around a script has values of its own, plain data in which values of the language may lie
at any depth.  It may also hand such data to a script as they are; a script can pass these foreign
values on, but no operation of the language takes them.
-/

namespace VariantScript

open Syntax

/-- What tells objects apart. -/
structure Identity where
  serial : Nat
deriving DecidableEq, Repr

namespace Identity

/-- The identity of the unit array. -/
def unit : Identity := ⟨0⟩

/-- The identity of truth. -/
def yes : Identity := ⟨1⟩

/-- The identity of falsehood. -/
def no : Identity := ⟨2⟩

/-- The identity of the empty list. -/
def empty : Identity := ⟨3⟩

/-- The first identity that no object has from the start. -/
def firstFree : Nat := 4

end Identity

/-- The place of a scope in a store. -/
structure ScopeId where
  index : Nat
deriving DecidableEq, Repr

/-- The families of variants. -/
inductive Family where
  | boolean
  | list
deriving DecidableEq, Repr

/-- The branches of both families. -/
inductive Tag where
  | yes
  | no
  | empty
  | head
deriving DecidableEq, Repr

/-- The branches of a family, in order. -/
def Family.branches : Family → List Tag
  | .boolean => [.yes, .no]
  | .list => [.empty, .head]

/-- The name of a family in messages. -/
def Family.name : Family → String
  | .boolean => "boolean"
  | .list => "list"

/-- The family that a branch belongs to. -/
def Tag.family : Tag → Family
  | .yes | .no => .boolean
  | .empty | .head => .list

/-- The name of a branch. -/
def Tag.name : Tag → String
  | .yes => "True"
  | .no => "False"
  | .empty => "Empty"
  | .head => "Head"

theorem Tag.mem_branches (t : Tag) : t ∈ t.family.branches := by
  cases t <;> decide

/-- The branch of a family that has a name. -/
def Family.branch? (f : Family) (name : String) : Option Tag :=
  f.branches.find? fun t => t.name == name

/-- The built-in operations. -/
inductive Builtin where
  | split
  | debug
  | equal
deriving DecidableEq, Repr

/-- The built-in operations, in the order in which they are offered. -/
def Builtin.all : List Builtin := [.split, .debug, .equal]

/-- The name of a built-in operation. -/
def Builtin.name : Builtin → String
  | .split => "split"
  | .debug => "debug"
  | .equal => "equal"

/-- How a function was written. -/
inductive FunctionKind where
  | arrow
  | function
deriving DecidableEq, Repr

/-- How a kind of function is called in messages. -/
def FunctionKind.name : FunctionKind → String
  | .arrow => "arrow"
  | .function => "function"

/-- A function of a script with the scope in which it was made. -/
structure Closure where
  params : List Pattern
  body : Term
  scope : ScopeId
  name : Option String
  kind : FunctionKind

/-- What a function is called in messages. -/
def Closure.label (f : Closure) (unnamed : String) : String :=
  match f.name with
  | some name => if name.isEmpty then unnamed else name
  | none => unnamed

mutual
/-- The values of scripts. -/
inductive Value where
  | number (id : Identity) (amount : Float)
  | string (text : String)
  | array (id : Identity) (items : List Value)
  | record (id : Identity) (slots : List (String × Value))
  | variant (id : Identity) (tag : Tag) (payload : Value)
  | closure (id : Identity) (function : Closure)
  | builtin (operation : Builtin)
  /-- A value of the surrounding program, handed in as it is. -/
  | foreign (id : Identity) (data : Host)

/-- The values of the surrounding program. -/
inductive Host where
  | null
  | truth (flag : Bool)
  | whole (n : Int)
  | float (x : Float)
  | text (s : String)
  | list (items : List Host)
  | tuple (items : List Host)
  | map (entries : List (Host × Host))
  | bytes (content : String)
  | opaqueObject
  | value (v : Value)
end

/-- The fields of a record in order; no name occurs twice. -/
abbrev Slots := List (String × Value)

namespace Slots

/-- Sets a field: a name that occurs keeps its place and takes the new value, a new name goes to the
end. -/
def set (name : String) (value : Value) : Slots → Slots
  | [] => [(name, value)]
  | (k, v) :: rest =>
      if k = name then (k, value) :: rest else (k, v) :: set name value rest

/-- The names of the fields. -/
def names (slots : Slots) : List String :=
  slots.map Prod.fst

/-- The value of a field. -/
def get? (slots : Slots) (name : String) : Option Value :=
  slots.lookup name

/-- Whether a field exists. -/
def has (slots : Slots) (name : String) : Bool :=
  (slots.get? name).isSome

/-- The fields of a sequence of names and values, of which the last for each name counts. -/
def ofPairs (pairs : List (String × Value)) : Slots :=
  pairs.foldl (fun slots (name, value) => slots.set name value) []

end Slots

namespace Value

/-! ## The objects that exist once -/

/-- The unit array, which functions give that return nothing. -/
def unit : Value := .array .unit []

/-- The truth values. -/
def truth : Bool → Value
  | true => .variant .yes .yes unit
  | false => .variant .no .no unit

/-- The empty list. -/
def emptyList : Value := .variant .empty .empty unit

/-- A list cell made of two new objects, the first identity being free. -/
def cell (next : Nat) (element rest : Value) : Value :=
  .variant ⟨next + 1⟩ .head (.array ⟨next⟩ [element, rest])

/-- A new list of some elements, and the first identity that is still free. -/
def listFrom (next : Nat) : List Value → Value × Nat
  | [] => (emptyList, next)
  | v :: vs =>
      let (rest, next) := listFrom next vs
      (cell next v rest, next + 2)

/-! ## Telling values apart -/

/-- Whether a value is an array without items. -/
def isUnit : Value → Bool
  | .array _ [] => true
  | _ => false

/-- Whether a value is a boolean. -/
def isBoolean : Value → Bool
  | .variant _ tag _ => tag.family = .boolean
  | _ => false

/-- Whether a value is a list. -/
def isList : Value → Bool
  | .variant _ tag _ => tag.family = .list
  | _ => false

/-- Whether a value is one of the surrounding program. -/
def isForeign : Value → Bool
  | .foreign _ _ => true
  | _ => false

/-- The truth value that a boolean stands for. -/
def truth? : Value → Option Bool
  | .variant _ .yes _ => some true
  | .variant _ .no _ => some false
  | _ => none

end Value

mutual
/-- The name of the type of a value in messages. -/
def Value.typeName : Value → String
  | .number _ _ => "EygNumber"
  | .string _ => "EygString"
  | .array _ _ => "EygArray"
  | .record _ _ => "EygRecord"
  | .variant _ _ _ => "EygVariant"
  | .closure _ _ => "EygClosure"
  | .builtin _ => "EygBuiltin"
  | .foreign _ data => data.typeName

/-- The name of the type of a host value in messages. -/
def Host.typeName : Host → String
  | .null => "NoneType"
  | .truth _ => "bool"
  | .whole _ => "int"
  | .float _ => "float"
  | .text _ => "str"
  | .list _ => "list"
  | .tuple _ => "tuple"
  | .map _ => "dict"
  | .bytes _ => "bytes"
  | .opaqueObject => "object"
  | .value v => v.typeName
end

namespace Value

/-! ## Lists

A list that was put together by hand may hold cells that are no pair, or end in a value that is no
variant; taking such a list apart breaks down.  A list that ends in a variant of another kind just
ends.
-/

/-- The breakdown of taking the payload of a cell apart, which is no pair. -/
def pairBreakdown : Value → Breakdown
  | .array _ items => .ofParts 2 items.length
  | .foreign _ (.map _) => .notUnpackable "builtin_function_or_method"
  | v => .noAttribute v.typeName "items"

/-- The elements of a list. -/
def elements : Value → Except Breakdown (List Value)
  | .variant _ .head (.array _ [element, rest]) => do
      let others ← elements rest
      return element :: others
  | .variant _ .head payload => .error payload.pairBreakdown
  | .variant _ _ _ => .ok []
  | v => .error (.noAttribute v.typeName "tag")

/-! ## Values outside of scripts -/

/-- The value as the surrounding program has it. -/
def toHost : Value → Host
  | .foreign _ data => data
  | v => .value v

end Value

/-- The value as a script has it; data that are no value of the language are an object with the given
identity. -/
def Host.toValue (id : Identity) : Host → Value
  | .value v => v
  | data => .foreign id data

end VariantScript
