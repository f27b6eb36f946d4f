import VariantScript.Evaluation.World

/-!
# Log entries

What is written down about the running of scripts and about the surroundings.  An entry has a level
and an origin; entries below a threshold are left out.
-/

namespace VariantScript.Log

/-- How grave an entry is. -/
inductive Level where
  | debug
  | info
  | warning
  | error
  | critical
deriving DecidableEq, Repr

/-- How the level is written. -/
def Level.name : Level → String
  | .debug => "DEBUG"
  | .info => "INFO"
  | .warning => "WARNING"
  | .error => "ERROR"
  | .critical => "CRITICAL"

/-- The rank of the level among thresholds. -/
def Level.rank : Level → Nat
  | .debug => 10
  | .info => 20
  | .warning => 30
  | .error => 40
  | .critical => 50

/-- The part of the program that an entry comes from. -/
inductive Origin where
  | session
  | script
  | surroundings
deriving DecidableEq, Repr

/-- How the origin is written. -/
def Origin.name : Origin → String
  | .session => "eyg_harness.sandbox"
  | .script => "eyg_harness.intrinsics"
  | .surroundings => "eyg_harness.services"

/-- An entry of the log. -/
structure Entry where
  level : Level
  origin : Origin
  text : String
deriving DecidableEq, Repr

/-- The entry on a line. -/
def Entry.line (e : Entry) : String :=
  s!"{e.level.name} {e.origin.name}: {e.text}"

/-! ## Thresholds -/

/-- The rank from which on entries are written. -/
structure Threshold where
  rank : Nat
deriving DecidableEq, Repr

namespace Threshold

/-- The threshold at a level. -/
def ofLevel (level : Level) : Threshold := ⟨level.rank⟩

/-- The threshold where none is chosen. -/
def standard : Threshold := ofLevel .warning

/-- The names of thresholds; two levels have a second name, and one threshold lies below them all. -/
def named : List (String × Threshold) :=
  [("DEBUG", ofLevel .debug), ("INFO", ofLevel .info), ("WARNING", ofLevel .warning),
    ("WARN", ofLevel .warning), ("ERROR", ofLevel .error), ("CRITICAL", ofLevel .critical),
    ("FATAL", ofLevel .critical), ("NOTSET", ⟨0⟩)]

/-- The name among those of thresholds under which the layout of entries is kept. -/
def layoutName : String := "BASIC_FORMAT"

/-- The layout of entries that is kept there. -/
def layoutText : String := "%(levelname)s:%(name)s:%(message)s"

/-- The threshold of a name; an unknown name gives the standard one. -/
def ofName (name : String) : Threshold :=
  (named.lookup name).getD standard

/-- The lower of two thresholds. -/
def lower (s t : Threshold) : Threshold := ⟨min s.rank t.rank⟩

/-- Whether an entry is written. -/
def admits (t : Threshold) (e : Entry) : Bool :=
  t.rank ≤ e.level.rank

end Threshold

end VariantScript.Log

namespace VariantScript

/-- The log entry of an event; values that reached an observer are not logged. -/
def Event.entry? : Event → Option Log.Entry
  | started length => some ⟨.debug, .session, s!"running {length} characters of generated code"⟩
  | observed _ => none
  | logged value => some ⟨.info, .script, s!"debug: {value.display}"⟩
  | finished value => some ⟨.debug, .session, s!"execution finished with {value.display}"⟩
  | failed message => some ⟨.debug, .session, s!"execution failed: {message}"⟩

end VariantScript
