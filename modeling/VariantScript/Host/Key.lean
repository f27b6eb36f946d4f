import VariantScript.Value.Basic

/-!
# Keys of maps

The keys of a map are host values or values of scripts.  Two keys are one if they are the same object
or equal: numbers and flags as exact numbers, texts by their characters, compound keys part by part.
Lists, maps and records cannot be keys, nor can what holds one of them.
-/

namespace VariantScript

/-! ## Equal keys -/

/-- The whole number that a host value counts as. -/
def Host.count? : Host → Option Int
  | .truth flag => some (if flag then 1 else 0)
  | .whole n => some n
  | _ => none

/-- Whether two host values are equal numbers. -/
def Host.sameNumber (a b : Host) : Bool :=
  match a, b with
  | .float x, .float y => x == y
  | .float x, h | h, .float x => h.count?.isSome && h.count? = Number.whole? x
  | a, b => a.count?.isSome && a.count? = b.count?

mutual
/-- Whether two values are one key. -/
def Value.isSameKey : Value → Value → Bool
  | .number i x, .number j y => i = j || x == y
  | .string s, .string t => s = t
  | .array i xs, .array j ys => i = j || Value.areSameKeys xs ys
  | .record i _, .record j _ => i = j
  | .variant i t p, .variant j u q => i = j || (t = u && Value.isSameKey p q)
  | .closure i _, .closure j _ => i = j
  | .builtin f, .builtin g => f = g
  | .foreign i d, .foreign j e => i = j || Host.isSameKey d e
  | _, _ => false

/-- Whether values side by side are one key each. -/
def Value.areSameKeys : List Value → List Value → Bool
  | [], [] => true
  | x :: xs, y :: ys => Value.isSameKey x y && Value.areSameKeys xs ys
  | _, _ => false

/-- Whether two host values are one key. -/
def Host.isSameKey : Host → Host → Bool
  | .null, .null => true
  | .text s, .text t => s = t
  | .bytes s, .bytes t => s = t
  | .tuple xs, .tuple ys => Host.areSameKeys xs ys
  | .value v, .value w => Value.isSameKey v w
  | a, b => Host.sameNumber a b

/-- Whether host values side by side are one key each. -/
def Host.areSameKeys : List Host → List Host → Bool
  | [], [] => true
  | x :: xs, y :: ys => Host.isSameKey x y && Host.areSameKeys xs ys
  | _, _ => false
end

/-! ## What can be a key -/

mutual
/-- Why a value cannot be a key. -/
def Value.keyDefect? : Value → Option Breakdown
  | .array _ items => Value.firstKeyDefect? items
  | .record _ _ => some (.unhashable (Host.map []).typeName)
  | .variant _ _ payload => Value.keyDefect? payload
  | .foreign _ data => Host.keyDefect? data
  | _ => none

/-- Why the first of some values that cannot be a key cannot be one. -/
def Value.firstKeyDefect? : List Value → Option Breakdown
  | [] => none
  | v :: vs => (Value.keyDefect? v).or (Value.firstKeyDefect? vs)

/-- Why a host value cannot be a key. -/
def Host.keyDefect? : Host → Option Breakdown
  | .list items => some (.unhashable (Host.list items).typeName)
  | .map entries => some (.unhashable (Host.map entries).typeName)
  | .tuple items => Host.firstKeyDefect? items
  | .value v => Value.keyDefect? v
  | _ => none

/-- Why the first of some host values that cannot be a key cannot be one. -/
def Host.firstKeyDefect? : List Host → Option Breakdown
  | [] => none
  | h :: hs => (Host.keyDefect? h).or (Host.firstKeyDefect? hs)
end

/-! ## Maps -/

/-- Sets an entry of a map: a key that occurs keeps its place and takes the new item. -/
def setEntry {κ α : Type} (same : κ → κ → Bool) (key : κ) (item : α) : List (κ × α) → List (κ × α)
  | [] => [(key, item)]
  | (k, i) :: rest =>
      if same k key then (k, item) :: rest else (k, i) :: setEntry same key item rest

namespace Host

/-- The entries of a map with one more, whose key has to be one. -/
def insertEntry (entries : List (Value × Value)) (key item : Value) :
    Except Breakdown (List (Value × Value)) :=
  match key.keyDefect? with
  | some b => .error b
  | none => .ok (setEntry Value.isSameKey key item entries)

/-- The map of entries with different keys. -/
def ofEntries (entries : List (Value × Value)) : Host :=
  .map (entries.map fun (key, item) => (key.toHost, item.toHost))

/-- The map of a sequence of names and items, of which the last for each name counts. -/
def ofNamed (pairs : List (String × Host)) : Host :=
  let entries := pairs.foldl (fun built (name, item) => setEntry (· == ·) name item built) []
  .map (entries.map fun (name, item) => (.text name, item))

end Host

end VariantScript
