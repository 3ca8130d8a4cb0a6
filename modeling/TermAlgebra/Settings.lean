import TermAlgebra.Text.Uppercase

/-!
# Settings

What the environment decides about a session. Main definition: `Settings.ofEnvironment`.
-/

namespace TermAlgebra

/-- The settings of a session: whether debug mode is on at its start, the name of the level from
which events are logged, and the prompt. -/
structure Settings where
  debug : Bool
  logLevel : String
  prompt : String
deriving DecidableEq, Repr

namespace Settings

/-- The texts, in any case, that turn a setting on. -/
def affirmatives : List String := ["true", "on", "1"]

/-- Whether a text turns a setting on. -/
def isAffirmative (text : String) : Bool :=
  affirmatives.contains (String.ofList (text.toList.map Char.toLower))

/-- The settings that an environment makes, with defaults for the variables that it lacks. -/
def ofEnvironment (value? : String → Option String) : Settings where
  debug := ((value? "SYMBOLIC_DEBUG").map isAffirmative).getD false
  logLevel := ((value? "SYMBOLIC_LOG_LEVEL").map Text.uppercase).getD "WARNING"
  prompt := (value? "SYMBOLIC_PROMPT").getD "> "

/-- The settings of an empty environment. -/
def default : Settings := ofEnvironment fun _ => none

end Settings

end TermAlgebra
