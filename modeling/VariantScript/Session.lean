import VariantScript.Evaluation.Evaluate
import VariantScript.Syntax.Program

/-!
# Sessions

A session is a world with a scope in it, in which texts are run one after the other.  A run gives a
value or a failure; whatever it has defined before it fails stays defined.
-/

namespace VariantScript

/-- How a run breaks down without a fault of the script. -/
inductive Crash where
  | breakdown (breakdown : Breakdown)
  /-- A `return` that no call ends. -/
  | escapedReturn (value : Value)

/-- What is said about a breakdown. -/
def Crash.message : Crash → String
  | .breakdown b => b.message
  | .escapedReturn value => value.display

/-- Why a run gives no value. -/
inductive Failure where
  | syntaxError (error : Syntax.SyntaxError)
  | fault (fault : Fault)
  | tooDeep
  | crash (crash : Crash)

namespace Failure

/-- What is said about a failure. -/
def message : Failure → String
  | syntaxError e => e.message
  | fault f => f.message
  | tooDeep => "maximum recursion depth exceeded"
  | crash c => c.message

/-- The failure of an evaluation that stopped early. -/
def ofStop : Stop → Failure
  | .fault f => fault f
  | .returned value => crash (.escapedReturn value)
  | .tooDeep => tooDeep
  | .breakdown b => crash (.breakdown b)

end Failure

/-- The event that ends a run; a breakdown ends it without one. -/
def Event.ofResult? : Except Failure Value → Option Event
  | .ok value => some (.finished value)
  | .error (.crash _) => none
  | .error failure => some (.failed failure.message)

/-- How deep calls of script functions may nest. -/
def callBound : Nat := 4000

/-- A world and the scope in which texts are run. -/
structure Session where
  world : World
  scope : ScopeId

namespace Session

/-- A session with a new scope. -/
def ofWorld (w : World) : Session :=
  let (scope, world) := w.openRoot
  ⟨world, scope⟩

/-- A new session. -/
def start (legacy : Bool) (observer : Observer) : Session :=
  ofWorld (.new legacy observer)

/-- The session with a new scope in place of its own. -/
def reset (s : Session) : Session :=
  ofWorld s.world

/-- The session with a setting of legacy counting. -/
def setLegacy (legacy : Bool) (s : Session) : Session :=
  { s with world := { s.world with legacy := legacy } }

/-- The names of the scope in order of definition. -/
def names (s : Session) : List String :=
  s.world.names s.scope

/-- The session without the events so far. -/
def clearEvents (s : Session) : Session :=
  { s with world := { s.world with events := #[] } }

/-- Runs an evaluation in the world of the session. -/
def perform {α : Type} (act : Eval α) (s : Session) : Except Failure α × Session :=
  let (result, world) := act.run.run s.world
  (result.mapError Failure.ofStop, { s with world := world })

/-- Evaluates a term in the scope of the session. -/
def evaluateTerm (t : Syntax.Term) (s : Session) : Except Failure Value × Session :=
  s.perform (VariantScript.evaluate (callAt callBound) s.scope t)

/-- Reads and evaluates a text in the scope of the session. -/
def evaluateText (code : String) (s : Session) : Except Failure Value × Session :=
  match Syntax.Program.read code.toList with
  | .ok program => s.evaluateTerm program
  | .error e => (.error (.syntaxError e), s)

/-- Runs a text in the scope of the session and notes how it starts and ends. -/
def run (code : String) (s : Session) : Except Failure Value × Session :=
  let (result, s) := { s with world := s.world.note (.started code.length) }.evaluateText code
  match Event.ofResult? result with
  | some e => (result, { s with world := s.world.note e })
  | none => (result, s)

end Session

/-- Runs a text in a session of its own; gives the result and the events on the way. -/
def runText (code : String) (legacy : Bool) (observer : Observer) :
    Except Failure Value × List Event :=
  let (result, s) := (Session.start legacy observer).run code
  (result, s.world.events.toList)

end VariantScript
