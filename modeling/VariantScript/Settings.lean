import VariantScript.Log
import VariantScript.Text.Blank
import VariantScript.Text.Upper

/-!
# Settings

What can be set from the environment and changed afterwards.
-/

namespace VariantScript

/-- The variables of the environment. -/
abbrev Environment := List (String × String)

namespace Environment

/-- The words that switch a flag on. -/
def truthyWords : List String := ["1", "true", "yes", "on"]

/-- Whether a flag is switched on: by one of the words in either case, with blanks around it. -/
def flag (env : Environment) (name : String) : Bool :=
  let value := (env.lookup name).getD ""
  truthyWords.contains (String.ofList (Text.lower (Text.trim value.toList)))

end Environment

/-- What can be set. -/
structure Settings where
  /-- Whether `equal` counts the keys of the left operand only. -/
  legacyKeys : Bool
  /-- Where the saved program is fetched from. -/
  sourceUrl : String
  /-- The name of the threshold of the log. -/
  logLevel : String
  /-- Whether the prompt shows how an error came up. -/
  traceback : Bool
deriving DecidableEq, Repr

namespace Settings

/-- Where the saved program lies unless something else is set. -/
def defaultUrl : String := "http://localhost:8080/saved.json"

/-- The variable for legacy counting. -/
def legacyKeysVariable : String := "EYG_HARNESS_LEGACY_KEYS"

/-- The variable for the address of the saved program. -/
def sourceUrlVariable : String := "EYG_HARNESS_SOURCE_URL"

/-- The variable for the threshold of the log. -/
def logLevelVariable : String := "EYG_HARNESS_LOG_LEVEL"

/-- The variable for the way that errors came up. -/
def tracebackVariable : String := "EYG_HARNESS_DEBUG_PY_TRACE"

/-- The variables that settings are read from. -/
def variableNames : List String :=
  [legacyKeysVariable, sourceUrlVariable, logLevelVariable, tracebackVariable]

/-- The settings of an environment. -/
def ofEnvironment (env : Environment) : Settings where
  legacyKeys := env.flag legacyKeysVariable
  sourceUrl := (env.lookup sourceUrlVariable).getD defaultUrl
  logLevel :=
    let name := (env.lookup logLevelVariable).getD "WARNING"
    String.ofList (Text.upper name.toList)
  traceback := env.flag tracebackVariable

/-- New values for some of the settings. -/
structure Changes where
  legacyKeys : Option Bool
  sourceUrl : Option String
  logLevel : Option String
  traceback : Option Bool

/-- The settings with some of them changed. -/
def change (s : Settings) (c : Changes) : Settings where
  legacyKeys := c.legacyKeys.getD s.legacyKeys
  sourceUrl := c.sourceUrl.getD s.sourceUrl
  logLevel := c.logLevel.getD s.logLevel
  traceback := c.traceback.getD s.traceback

/-- The threshold of the log; raising the verbosity lowers it, first to the level of information and
then to the lowest level, where the name of the threshold no longer counts. -/
def threshold (s : Settings) (verbosity : Nat) : Except Breakdown Log.Threshold :=
  if 2 ≤ verbosity then .ok (.ofLevel .debug)
  else if s.logLevel = Log.Threshold.layoutName then
    .error (if verbosity = 0 then .notALevel Log.Threshold.layoutText else .incomparableLevel)
  else
    let named := Log.Threshold.ofName s.logLevel
    .ok (if verbosity = 0 then named else named.lower (.ofLevel .info))

end Settings

end VariantScript
