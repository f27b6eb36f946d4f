import VariantScript.Evaluation.Fault

/-!
# The world of a running script

What evaluation reads and changes: the scopes, the supply of identities, the settings that every
scope shares, and what has been shown to the observer.  An evaluation is a change of the world that
ends in a result or stops early.
-/

namespace VariantScript

/-- Names and their values in order of definition, inside an older scope.  A scope that a call opened
is marked. -/
structure Scope where
  parent : Option ScopeId
  vars : Slots
  isCall : Bool

/-- What becomes of the values that a script shows. -/
inductive Observer where
  /-- Values are logged. -/
  | absent
  /-- Values are recorded. -/
  | recording
  /-- A value is recorded, and then the observer fails with a text. -/
  | failing (text : String)
deriving DecidableEq, Repr

/-- What is told about running scripts, in the order in which it happens. -/
inductive Event where
  /-- A text of some length starts to run. -/
  | started (length : Nat)
  /-- A value was shown to the observer. -/
  | observed (value : Value)
  /-- A value was shown where there is no observer. -/
  | logged (value : Value)
  /-- A text was run and gave a value. -/
  | finished (value : Value)
  /-- A text failed. -/
  | failed (message : String)

/-- The value that reached an observer. -/
def Event.observed? : Event → Option Value
  | observed value => some value
  | _ => none

/-- All that evaluation reads and changes. -/
structure World where
  scopes : Array Scope
  nextSerial : Nat
  legacy : Bool
  observer : Observer
  events : Array Event

/-- How an evaluation ends early. -/
inductive Stop where
  /-- A fault of the script. -/
  | fault (fault : Fault)
  /-- A `return` on its way to the call that it ends. -/
  | returned (value : Value)
  /-- Calls are nested too deeply. -/
  | tooDeep
  /-- A breakdown, which is no fault of the script. -/
  | breakdown (breakdown : Breakdown)

/-- An evaluation. -/
abbrev Eval := ExceptT Stop (StateM World)

namespace World

/-- A world without scopes. -/
def new (legacy : Bool) (observer : Observer) : World :=
  ⟨#[], Identity.firstFree, legacy, observer, #[]⟩

/-- The value that a name has in a scope or the nearest scope around it. -/
def lookup? (w : World) (s : ScopeId) (name : String) : Option Value :=
  match w.scopes[s.index]? with
  | none => none
  | some scope =>
      match scope.vars.get? name with
      | some value => some value
      | none =>
          match scope.parent with
          -- A scope lies inside an older one, so the index goes down.
          | some parent => if parent.index < s.index then w.lookup? parent name else none
          | none => none
termination_by s.index

/-- Whether a scope lies inside a call. -/
def isInCall (w : World) (s : ScopeId) : Bool :=
  match w.scopes[s.index]? with
  | none => false
  | some scope =>
      if scope.isCall then true
      else
        match scope.parent with
        | some parent => if parent.index < s.index then w.isInCall parent else false
        | none => false
termination_by s.index

/-- The names of a scope in order of definition. -/
def names (w : World) (s : ScopeId) : List String :=
  match w.scopes[s.index]? with
  | some scope => scope.vars.names
  | none => []

/-- The world with one more event. -/
def note (w : World) (e : Event) : World :=
  { w with events := w.events.push e }

/-- The values that reached the observer, in order. -/
def observations (w : World) : List Value :=
  w.events.toList.filterMap Event.observed?

/-- The names that every script finds, `harness` being a record of the built-in operations. -/
def rootVars (harness : Identity) : Slots :=
  [("harness", .record harness (Builtin.all.map fun f => (f.name, .builtin f))),
    ("equal", .builtin .equal)]

/-- Opens a scope with the names that every script finds. -/
def openRoot (w : World) : ScopeId × World :=
  let scope : Scope := ⟨none, rootVars ⟨w.nextSerial⟩, false⟩
  (⟨w.scopes.size⟩, { w with scopes := w.scopes.push scope, nextSerial := w.nextSerial + 1 })

end World

namespace Eval

/-- Breaks down. -/
def breakDown {α : Type} (b : Breakdown) : Eval α :=
  throw (.breakdown b)

/-- Stops with a cause that has no place yet, or with the breakdown of saying it. -/
def fail {α : Type} (cause : Cause) : Eval α :=
  match cause.defect? with
  | some b => breakDown b
  | none => throw (.fault ⟨cause, none⟩)

/-- Goes on with a result or stops with its cause. -/
def ofExcept {α : Type} : Except Cause α → Eval α
  | .ok value => pure value
  | .error cause => fail cause

/-- Runs an evaluation and gives faults that have no place the place of a term. -/
def locate {α : Type} (pos : Option Position) (act : Eval α) : Eval α :=
  ExceptT.mk do
    match ← act.run with
    | .error (.fault f) => pure (.error (.fault (f.locate pos)))
    | other => pure other

/-- An identity that no object has. -/
def freshIdentity : Eval Identity :=
  modifyGet fun w => (⟨w.nextSerial⟩, { w with nextSerial := w.nextSerial + 1 })

/-- A new number. -/
def makeNumber (x : Float) : Eval Value := do
  return .number (← freshIdentity) x

/-- A new array. -/
def makeArray (items : List Value) : Eval Value := do
  return .array (← freshIdentity) items

/-- A new record. -/
def makeRecord (slots : Slots) : Eval Value := do
  return .record (← freshIdentity) slots

/-- A new function. -/
def makeClosure (f : Closure) : Eval Value := do
  return .closure (← freshIdentity) f

/-- A new list of some elements. -/
def makeList (elements : List Value) : Eval Value :=
  modifyGet fun w =>
    let (list, next) := Value.listFrom w.nextSerial elements
    (list, { w with nextSerial := next })

/-- Opens a scope inside another one. -/
def openScope (parent : Option ScopeId) (isCall : Bool) : Eval ScopeId :=
  modifyGet fun w =>
    (⟨w.scopes.size⟩, { w with scopes := w.scopes.push ⟨parent, [], isCall⟩ })

/-- Defines a name in a scope in which it is not defined yet. -/
def define (s : ScopeId) (name : String) (value : Value) : Eval Unit := do
  match (← get).scopes[s.index]? with
  | none => pure ()
  | some scope =>
      if scope.vars.has name then fail (.alreadyDeclared name)
      else
        modify fun w =>
          { w with scopes := w.scopes.modify s.index fun scope =>
              { scope with vars := scope.vars ++ [(name, value)] } }

/-- The value of a name. -/
def resolve (s : ScopeId) (name : String) : Eval Value := do
  match (← get).lookup? s name with
  | some value => pure value
  | none => fail (.notDefined name)

/-- Shows a value to the observer. -/
def observe (value : Value) : Eval Unit := do
  match (← get).observer with
  | .absent => modify fun w => w.note (.logged value)
  | .recording => modify fun w => w.note (.observed value)
  | .failing text =>
      modify fun w => w.note (.observed value)
      fail (.observerFailed text)

end Eval

end VariantScript
