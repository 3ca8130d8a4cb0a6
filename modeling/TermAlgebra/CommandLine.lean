import TermAlgebra.Session
import TermAlgebra.Settings
import TermAlgebra.Text.Digit

/-!
# The command line

The arguments of the program are options, some of which take a value: the next argument, or the
rest of the same one. Main definitions: `CommandLine.Piece` for an argument as it is understood on
its own, `CommandLine.parse` for all of them together, and `CommandLine.run`.
-/

namespace TermAlgebra.CommandLine

/-! ### Options -/

/-- The options of the program. -/
inductive Flag
  | help
  | expression
  | debug
  | logLevel
deriving DecidableEq, Repr

/-- Whether an option takes a value. -/
def Flag.takesValue : Flag → Bool
  | help | debug => false
  | expression | logLevel => true

/-- The spellings of the options. -/
def spellings : List (String × Flag) := [
  ("-h", .help), ("--help", .help), ("-e", .expression), ("--expression", .expression),
  ("-d", .debug), ("--debug", .debug), ("--log-level", .logLevel)]

/-- The option of a spelling. -/
def Flag.ofSpelling? (spelling : String) : Option Flag :=
  spellings.lookup spelling

/-- The rest of an argument after an option: what it is, and whether an equals sign introduces
it. -/
structure Attachment where
  equals : Bool
  text : List Char
deriving DecidableEq, Repr

/-! ### Single arguments -/

/-- An argument on its own: a value, the separator after which there are no options, an option
with what is attached to it, or what looks like an option and is none. A letter option can share
its argument with others. -/
inductive Piece
  | value (text : String)
  | separator
  | option (flag : Flag) (isLetter : Bool) (attached : Option Attachment)
  | unknown
deriving DecidableEq, Repr

/-- Whether an argument is a negative number in positional notation. -/
def looksNegative (cs : List Char) : Bool :=
  match cs with
  | '-' :: number =>
    let number := if number.getLast? = some '\n' then number.dropLast else number
    match number.dropWhile Text.isScriptDigit with
    | [] => !number.isEmpty
    | '.' :: fraction => !fraction.isEmpty && fraction.all Text.isScriptDigit
    | _ => false
  | _ => false

/-- The options that the start of an argument can be short for. -/
def abbreviated (start : List Char) : List Flag :=
  (spellings.filter fun spelling => start.isPrefixOf spelling.1.toList).map (·.2)

/-- An argument that starts with a dash and is no complete option. An ambiguous abbreviation is
none. -/
def Piece.ofDashed? (cs : List Char) : Option Piece :=
  let name := cs.takeWhile (· ≠ '=')
  let equals := (cs.dropWhile (· ≠ '=')).tail
  let attached := if cs.contains '=' then some ⟨true, equals⟩ else none
  let leftover := if looksNegative cs || cs.contains ' ' then value (String.ofList cs) else unknown
  match cs.contains '=', Flag.ofSpelling? (String.ofList name) with
  | true, some flag => some (option flag (name.length = 2) attached)
  | _, _ =>
    if cs.take 2 = ['-', '-'] then
      match abbreviated name with
      | [] => some leftover
      | [flag] => some (option flag false attached)
      | _ => none
    else match Flag.ofSpelling? (String.ofList (cs.take 2)) with
      | some flag => some (option flag true (some ⟨false, cs.drop 2⟩))
      | none => some leftover

/-- An argument on its own, if it can be understood. -/
def Piece.ofArgument? (argument : String) : Option Piece :=
  match argument.toList with
  | '-' :: rest =>
    match Flag.ofSpelling? argument with
    | some flag => some (option flag (rest.length = 1) none)
    | none =>
      if rest = [] then some (value argument)
      else if rest = ['-'] then some separator
      else Piece.ofDashed? ('-' :: rest)
  | _ => some (value argument)

/-- The arguments one by one. All arguments after a separator are values. -/
def pieces? : List String → Option (List Piece)
  | [] => some []
  | argument :: rest => do
    match ← Piece.ofArgument? argument with
    | .separator => return .separator :: rest.map .value
    | piece => return piece :: (← pieces? rest)

/-! ### All arguments -/

/-- What the arguments ask for. -/
structure Options where
  expression : Option String
  debug : Bool
  logLevel : Log.Level
deriving DecidableEq, Repr

/-- The status with which the program ends if it is told nothing sensible. -/
def usageStatus : Nat := 2

/-- The effect of one option, with its value if it takes one. The program can end here, with a
status. -/
def Flag.apply (flag : Flag) (argument : String) (options : Options) : Except Nat Options :=
  match flag with
  | help => .error 0
  | expression => .ok { options with expression := some argument }
  | debug => .ok { options with debug := true }
  | logLevel =>
    match Log.Level.ofName? (Text.uppercase argument) with
    | some level => .ok { options with logLevel := level }
    | none => .error usageStatus

/-- The options in one argument: those that stand alone, then what remains to be done with the last
one. -/
inductive Reading
  /-- The last option has no value, or has it in the same argument. -/
  | complete (effects : List (Flag × String))
  /-- The last option takes the next argument as its value. -/
  | awaiting (effects : List (Flag × String)) (flag : Flag)
  /-- A letter is no option. -/
  | unknownLetter (effects : List (Flag × String))
  /-- The last option takes no value and has one. -/
  | refused

/-- A reading with one more option before it. -/
def Reading.after (flag : Flag) : Reading → Reading
  | complete effects => complete ((flag, "") :: effects)
  | awaiting effects last => awaiting ((flag, "") :: effects) last
  | unknownLetter effects => unknownLetter ((flag, "") :: effects)
  | refused => refused

/-- The reading of an option letter and the letters after it. -/
def readLetters (flag : Flag) : List Char → Reading
  | [] => if flag.takesValue then .awaiting [] flag else .complete [(flag, "")]
  | c :: rest =>
    if flag.takesValue then
      .complete [(flag, String.ofList (if c = '=' then rest else c :: rest))]
    else if c = '=' || c = '-' then .refused
    else match Flag.ofSpelling? (String.ofList ['-', c]) with
      | some next => (readLetters next rest).after flag
      | none => .unknownLetter [(flag, "")]

/-- The reading of an option with what is attached to it. -/
def readOption (flag : Flag) (isLetter : Bool) : Option Attachment → Reading
  | none => if flag.takesValue then .awaiting [] flag else .complete [(flag, "")]
  | some attached =>
    if flag.takesValue then .complete [(flag, String.ofList attached.text)]
    else if isLetter && !attached.equals then readLetters flag attached.text
    else .refused

/-- The effects of several options one after another. -/
def applyAll (effects : List (Flag × String)) (options : Options) : Except Nat Options :=
  effects.foldlM (fun options (flag, argument) => flag.apply argument options) options

/-- The options of the arguments, on top of some options. Arguments that nothing asks for are
remembered, and end the program when the others have had their effect. -/
def readPieces (surplus : Bool) (options : Options) : List Piece → Except Nat Options
  | [] => if surplus then .error usageStatus else .ok options
  | .option flag isLetter attached :: rest =>
    match readOption flag isLetter attached with
    | .complete effects => do readPieces surplus (← applyAll effects options) rest
    | .unknownLetter effects => do readPieces true (← applyAll effects options) rest
    | .refused => .error usageStatus
    | .awaiting effects flag =>
      match rest with
      | .value argument :: rest => do
        readPieces surplus (← applyAll (effects ++ [(flag, argument)]) options) rest
      | _ => .error usageStatus
  | _ :: rest => readPieces true options rest

/-- The options of the arguments, or the status with which the program ends. -/
def parse (options : Options) (arguments : List String) : Except Nat Options :=
  match pieces? arguments with
  | some pieces => readPieces false options pieces
  | none => .error usageStatus

/-! ### The program -/

/-- What the program does: it answers one expression, or it starts a session. -/
inductive Task
  | single (debug : Bool) (line : String)
  | session (debug : Bool)
deriving DecidableEq, Repr

/-- What options ask the program to do. -/
def Options.task (options : Options) : Task :=
  match options.expression with
  | some line => .single options.debug line
  | none => .session options.debug

/-- The status with which the program ends after it has answered a single expression. -/
def answerStatus (accepted : Bool) : Nat :=
  if accepted then 0 else 1

/-- The run of the program: what it writes, the lines it logs, and its status or the fault that
breaks it off. -/
structure Run where
  chunks : List Session.Chunk
  log : List String
  outcome : Except Fault Nat

/-- The run of the program with the given options and lines of input. -/
def Options.run (options : Options) (lines : List String) : Run :=
  match options.task with
  | .single debug line =>
    let reply := Session.answer debug line
    { chunks := [⟨reply.printed, false⟩]
      log := Log.lines options.logLevel reply.events
      outcome := answerStatus <$> reply.outcome }
  | .session debug =>
    let transcript := Session.run debug lines
    { chunks := transcript.chunks
      log := Log.lines options.logLevel transcript.events
      outcome := transcript.fault.elim (.ok 0) .error }

end TermAlgebra.CommandLine
