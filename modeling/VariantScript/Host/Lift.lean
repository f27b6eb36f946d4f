import VariantScript.Host.Marshal

/-!
# Lifting host values

How host values become values of the script language.  Flags become booleans, numbers of both kinds
doubles, lists and tuples arrays, maps with text keys records; values of the language stay what they
are.  All that is made gets an identity of its own.
-/

namespace VariantScript

/-- The making of values: a supply of identities, and what stops it. -/
abbrev Making := StateT Nat (Except MarshalStop)

namespace Making

/-- Stops with an error. -/
def refuse {α : Type} (e : MarshalError) : Making α :=
  throw e.stop

/-- Goes on with a result or breaks down. -/
def ofExcept {α : Type} (result : Except Breakdown α) : Making α :=
  liftM (result.mapError MarshalStop.breakdown)

/-- An identity that no object has. -/
def freshIdentity : Making Identity :=
  modifyGet fun next => (⟨next⟩, next + 1)

/-- A new list cell. -/
def makeCell (element rest : Value) : Making Value :=
  modifyGet fun next => (Value.cell next element rest, next + 2)

end Making

/-! ## Values -/

mutual
/-- The value of the language that a value becomes; only foreign values change. -/
def Value.lift : Value → Making Value
  | .foreign _ data => Host.lift data
  | v => return v

/-- The value of the language that a host value becomes. -/
def Host.lift : Host → Making Value
  | .value v => Value.lift v
  | .truth flag => return Value.truth flag
  | .whole n =>
      match Number.ofWhole? n with
      | some x => do return .number (← Making.freshIdentity) x
      | none => throw (.breakdown .tooLarge)
  | .float x => do return .number (← Making.freshIdentity) x
  | .text s => return .string s
  | .list items => do
      let vs ← Host.liftAll items
      return .array (← Making.freshIdentity) vs
  | .tuple items => do
      let vs ← Host.liftAll items
      return .array (← Making.freshIdentity) vs
  | .map entries => do
      let slots ← Host.liftEntries entries []
      return .record (← Making.freshIdentity) slots
  | other => Making.refuse (.unsupported other.typeName)

/-- Lifts host values from left to right. -/
def Host.liftAll : List Host → Making (List Value)
  | [] => return []
  | h :: hs => do
      let v ← Host.lift h
      let vs ← Host.liftAll hs
      return v :: vs

/-- Lifts the entries of a map onto the fields before them. -/
def Host.liftEntries : List (Host × Host) → Slots → Making Slots
  | [], slots => return slots
  | (.text name, h) :: rest, slots => do
      let v ← Host.lift h
      Host.liftEntries rest (slots.set name v)
  | (key, _) :: _, _ => Making.refuse (.keyTypeNotText key.typeName)
end

/-! ## Booleans, lists and variants -/

/-- Whether a host value counts as true where a flag is asked for. -/
def Host.counts : Host → Bool
  | .null => false
  | .truth flag => flag
  | .whole n => n ≠ 0
  | .float x => ! (x == 0)
  | .text s => ! s.isEmpty
  | .list items => ! items.isEmpty
  | .tuple items => ! items.isEmpty
  | .map entries => ! entries.isEmpty
  | .bytes content => ! content.isEmpty
  | .opaqueObject => true
  | .value _ => true

/-- Whether a value counts as true where a flag is asked for; values of the language do. -/
def Value.counts (v : Value) : Bool :=
  v.toHost.counts

/-- The items of a host value that is a sequence: the characters of a text, the keys of a map. -/
def Host.items? : Host → Except Breakdown (List Host)
  | .list items => .ok items
  | .tuple items => .ok items
  | .text s => .ok (s.toList.map fun c => .text (String.ofList [c]))
  | .map entries => .ok (entries.map Prod.fst)
  | .bytes content => .ok (content.toUTF8.toList.map fun b => .whole b.toNat)
  | other => .error (.notIterable other.typeName)

namespace Value

/-- A new list of lifted items, the last of which is lifted first. -/
def ofItems : List Host → Making Value
  | [] => return emptyList
  | h :: hs => do
      let rest ← ofItems hs
      let v ← h.lift
      Making.makeCell v rest

/-- The list of the items of a sequence. -/
def ofSequence (v : Value) : Making Value := do
  ofItems (← Making.ofExcept v.toHost.items?)

/-- A list cell in front of a list. -/
def makeHead (element rest : Value) : Making Value :=
  if rest.isList then Making.makeCell element rest else Making.refuse (.tailNotAList rest)

/-- The variant of a family with a named branch. -/
def makeVariant (family : Family) (name : String) (payload : Value) : Making Value :=
  match family.branch? name with
  | some tag => do return .variant (← Making.freshIdentity) tag payload
  | none => Making.refuse (.unknownBranch name family)

end Value

/-! ## Records from entries -/

namespace Host

/-- An entry with the array of a script taken for a tuple. -/
def asEntry : Host → Host
  | .value (.array _ items) => .tuple (items.map Value.toHost)
  | h => h

/-- The key and the item of an entry. -/
def entryPair (entry : Host) : Making (Host × Host) :=
  match entry.asEntry with
  | .list [key, item] => return (key, item)
  | .tuple [key, item] => return (key, item)
  | other => Making.refuse (.notAPair other)

/-- The name that a key of an entry is. -/
def entryName : Host → Making String
  | .text name => return name
  | .value (.string name) => return name
  | other => Making.refuse (.keyNotText other)

/-- Lifts entries onto the fields before them: a name that occurs again keeps its place and takes the
last value. -/
def liftPairs : List Host → Slots → Making Slots
  | [], slots => return slots
  | entry :: rest, slots => do
      let (key, item) ← entryPair entry
      let name ← entryName key
      let v ← item.lift
      liftPairs rest (slots.set name v)

end Host

/-- The record of a sequence of entries. -/
def Value.recordOf (entries : Value) : Making Value := do
  let slots ← Host.liftPairs (← Making.ofExcept entries.toHost.items?) []
  return .record (← Making.freshIdentity) slots

end VariantScript
