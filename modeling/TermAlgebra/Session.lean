import TermAlgebra.Expr.Assembly
import TermAlgebra.Expr.Formula
import TermAlgebra.Log
import TermAlgebra.Simplify.Run

/-!
# Sessions

A session answers one line of input after another. A line asks for an expression to be simplified,
turns debug mode on or off, is blank or ends the session. Main definitions: `Session.Request`,
`Session.answer` and `Session.run`.
-/

namespace TermAlgebra.Session

/-! ### Output -/

/-- A printed line: a text, nothing at all, or how long the answer has taken. -/
inductive Printed
  | text (text : String)
  | blank
  | elapsed
deriving DecidableEq, Repr

/-- What is written for a printed line, given the number of milliseconds as text. -/
def Printed.render (milliseconds : String) : Printed → String
  | text s => "  " ++ s ++ "\n"
  | blank => "\n"
  | elapsed => "  Query completed in " ++ milliseconds ++ " ms.\n"

/-- The output between two attempts to read a line, which ends with the prompt for the next one if
there is a next one. -/
structure Chunk where
  printed : List Printed
  prompts : Bool
deriving DecidableEq, Repr

/-- What is written for a chunk. -/
def Chunk.render (milliseconds prompt : String) (chunk : Chunk) : String :=
  String.join (chunk.printed.map (Printed.render milliseconds)) ++
    if chunk.prompts then "\n" ++ prompt else ""

/-! ### Answering an expression -/

/-- What comes of a line: the printed lines, the events to be logged, and whether the line was an
expression, or the fault that ends the session. -/
structure Answer where
  printed : List Printed
  events : List Log.Event
  outcome : Except Fault Bool

/-- The events of reading a text as an expression. -/
def readingEvents (line : String) : List Log.Event :=
  match Token.ofText line with
  | .error _ => []
  | .ok tokens =>
    .tokenized line tokens :: match Expr.assemble tokens with
      | .ok .empty | .error _ => []
      | .ok e => [.assembled e]

/-- How a line that is no expression is refused. A fault that does not lie in the form of the text
is not dealt with here. -/
def refusal? (line : String) (fault : Fault) : Option (Log.Event × String) :=
  match fault with
  | .invalidToken _ =>
    some (.noTokens line fault, "Problem parsing the input: " ++ fault.message)
  | .mismatchedParenthesis =>
    some (.mismatchedParentheses line, "Input has mismatched parentheses.")
  | _ =>
    if fault.isSyntactic then
      some (.noExpression line fault,
        "Failure to construct expression from input: " ++ fault.message)
    else none

/-- The lines that report an expression and its simplified form. -/
def report (debug : Bool) (e simplified : Expr) : List (Except Fault Printed) :=
  let labelled (label : String) (text : Except Fault String) : Except Fault Printed :=
    (fun s => .text (label ++ s)) <$> text
  [labelled "Input:                 " e.formula?,
    labelled "Simplified:            " simplified.formula?] ++
  if debug then
    [labelled "With types:            " e.dump?,
      labelled "Simplified with types: " simplified.dump?, .ok .blank, .ok .elapsed]
  else []

/-- The results up to the first fault, and that fault. -/
def untilFault {α : Type} : List (Except Fault α) → List α × Option Fault
  | [] => ([], none)
  | .error fault :: _ => ([], some fault)
  | .ok a :: rest => let (as, fault) := untilFault rest; (a :: as, fault)

/-- The answer to a line that asks for an expression to be simplified. -/
def answer (debug : Bool) (line : String) : Answer :=
  let reading := readingEvents line
  match Expr.parse line with
  | .error fault =>
    match refusal? line fault with
    | some (event, message) => ⟨[.text ("ERROR: " ++ message)], reading ++ [event], .ok false⟩
    | none => ⟨[], reading, .error fault⟩
  | .ok e =>
    let simplified := e.simplifyTraced
    let events := reading ++ simplified.notes.map .simplification
    match simplified.result with
    | .error fault => ⟨[], events, .error fault⟩
    | .ok simple =>
      let (printed, fault) := untilFault (report debug e simple)
      ⟨printed, events, fault.elim (.ok true) .error⟩

/-! ### The loop -/

/-- What a line of input asks for. -/
inductive Request
  | exit
  | toggleDebug
  | nothing
  | simplify (line : String)
deriving DecidableEq, Repr

/-- The request of a line. The words are recognised in any case and between blanks. -/
def Request.ofLine (line : String) : Request :=
  let word := String.ofList ((Text.trim line.toList).map Char.toLower)
  if word = "exit" then exit
  else if word = "debug" then toggleDebug
  else if word = "" then nothing
  else simplify line

/-- What a session has written, the events it has logged, the fault that has broken it off if one
has, and whether debug mode is on at the end. -/
structure Transcript where
  chunks : List Chunk
  events : List Log.Event
  fault : Option Fault
  debug : Bool

/-- A transcript with a chunk and events before it. -/
def Transcript.after (chunk : Chunk) (events : List Log.Event) (t : Transcript) : Transcript :=
  { t with chunks := chunk :: t.chunks, events := events ++ t.events }

/-- What a switch of debug mode prints. -/
def debugNotice (debug : Bool) : Printed :=
  .text (if debug then "Debug mode enabled." else "Debug mode disabled.")

/-- The transcript from the attempt to read the first of the lines on. -/
def resume (debug : Bool) : List String → Transcript
  | [] => ⟨[⟨[], false⟩], [], none, debug⟩
  | line :: rest =>
    match Request.ofLine line with
    | .exit => ⟨[⟨[], false⟩], [], none, debug⟩
    | .toggleDebug => (resume (!debug) rest).after ⟨[debugNotice !debug], true⟩ []
    | .nothing => (resume debug rest).after ⟨[], true⟩ []
    | .simplify line =>
      let reply := answer debug line
      match reply.outcome with
      | .error fault => ⟨[⟨reply.printed, false⟩], reply.events, some fault, debug⟩
      | .ok _ => (resume debug rest).after ⟨reply.printed, true⟩ reply.events

/-- The transcript of a session that is given the lines. -/
def run (debug : Bool) (lines : List String) : Transcript :=
  (resume debug lines).after ⟨[.text ""], true⟩ []

end TermAlgebra.Session
