import TermAlgebra.Expr.Dump
import TermAlgebra.Simplify.Trace
import TermAlgebra.Text.Uppercase

/-!
# The log

What the program tells about its work, apart from its answers. Every event has a level, and only
those from a chosen level on are reported. Main definitions: `Log.Level`, `Log.Event` and
`Log.lines`.
-/

namespace TermAlgebra.Log

/-- How much an event matters. -/
inductive Level
  | debug
  | info
  | warning
  | error
deriving DecidableEq, Repr

namespace Level

/-- The levels in ascending order. -/
def all : List Level := [debug, info, warning, error]

/-- The name of a level. -/
def name : Level → String
  | debug => "DEBUG"
  | info => "INFO"
  | warning => "WARNING"
  | error => "ERROR"

/-- The place of a level in the ascending order. -/
def rank : Level → Nat
  | debug => 0
  | info => 1
  | warning => 2
  | error => 3

/-- The level of a name in capitals. -/
def ofName? (name : String) : Option Level :=
  all.find? fun level => level.name = name

end Level

/-- What is worth telling: the tokens and the expression of a text, notes of a simplification, and
why a line of input was refused. -/
inductive Event
  | tokenized (text : String) (tokens : List Token)
  | assembled (expr : Expr)
  | simplification (note : Simplify.Note)
  | noTokens (line : String) (fault : Fault)
  | mismatchedParentheses (line : String)
  | noExpression (line : String) (fault : Fault)

namespace Event

/-- The level of an event. -/
def level : Event → Level
  | tokenized .. | assembled _ | simplification (.step ..) => .debug
  | simplification (.unsettled ..) => .warning
  | noTokens .. | mismatchedParentheses _ | noExpression .. => .info

/-- The part of the program that an event comes from. -/
def source : Event → String
  | tokenized .. => "symbolic.tokenizer"
  | assembled _ => "symbolic.assembler"
  | simplification _ => "symbolic.simplify"
  | noTokens .. | mismatchedParentheses _ | noExpression .. => "symbolic.shell"

/-- The texts of some tokens between brackets. -/
def tokensText (tokens : List Token) : String :=
  "[" ++ ", ".intercalate (tokens.map Token.text) ++ "]"

/-- The wording of an event, unless it is about an expression that cannot be written. -/
def message? : Event → Option String
  | tokenized text tokens =>
    some ("tokenized " ++ Text.quoted text ++ " into " ++ tokensText tokens)
  | assembled e => e.dump?.toOption.map ("assembled " ++ ·)
  | simplification (.step e direct collected) =>
    e.dump?.toOption.map fun dump =>
      "simplify " ++ dump ++ ": direct " ++ Numeral.text direct ++ ", collected " ++
        Numeral.text collected
  | simplification (.unsettled e steps) =>
    e.dump?.toOption.map fun dump =>
      "simplify " ++ dump ++ ": no fixed point after " ++ Numeral.text steps ++ " steps"
  | noTokens line fault =>
    some ("tokenization failed for " ++ Text.quoted line ++ ": " ++ fault.message)
  | mismatchedParentheses line => some ("mismatched parentheses in " ++ Text.quoted line)
  | noExpression line fault =>
    some ("assembly failed for " ++ Text.quoted line ++ ": " ++ fault.message)

/-- The line of the log that reports an event. -/
def line? (event : Event) : Option String :=
  event.message?.map fun message =>
    event.level.name ++ "  " ++ event.source ++ "  " ++ message

end Event

/-- The lines of the log for the events from a level on. -/
def lines (threshold : Level) (events : List Event) : List String :=
  (events.filter fun event => threshold.rank ≤ event.level.rank).filterMap Event.line?

end TermAlgebra.Log
