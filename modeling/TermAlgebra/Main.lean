import TermAlgebra.CommandLine

/-!
# The program

Reads the arguments, the environment and the lines of standard input, and writes what
`CommandLine.Options.run` and `Session.answer` say.
-/

namespace TermAlgebra.Program

/-- The text of a fault that breaks the program off. -/
def reportFault (fault : Fault) : IO UInt32 := do
  IO.eprintln fault.message
  return 1

/-- Writes the log of some events. -/
def writeLog (level : Log.Level) (events : List Log.Event) : IO Unit :=
  for line in Log.lines level events do IO.eprintln line

/-- Answers one line and tells how long that took. -/
def answer (options : CommandLine.Options) (debug : Bool) (line : String) :
    IO (Except Fault Bool) := do
  let start ← IO.monoMsNow
  let reply ← IO.lazyPure fun _ => Session.answer debug line
  let stop ← IO.monoMsNow
  writeLog options.logLevel reply.events
  let elapsed := Numeral.text (stop - start : Nat)
  IO.print ((Session.Chunk.mk reply.printed false).render elapsed "")
  return reply.outcome

/-- Answers line after line until the input or the session ends. -/
partial def loop (options : CommandLine.Options) (prompt : String) (debug : Bool) : IO UInt32 := do
  IO.print ("\n" ++ prompt)
  let stdout ← IO.getStdout
  stdout.flush
  let line ← (← IO.getStdin).getLine
  if line = "" then return 0
  let line := if line.endsWith "\n" then (line.dropEnd 1).toString else line
  match Session.Request.ofLine line with
  | .exit => return 0
  | .nothing => loop options prompt debug
  | .toggleDebug =>
    IO.print ((Session.debugNotice !debug).render "")
    loop options prompt !debug
  | .simplify line =>
    match ← answer options debug line with
    | .ok _ => loop options prompt debug
    | .error fault => reportFault fault

/-- The settings that the environment makes. -/
def settings : IO Settings := do
  let debug ← IO.getEnv "SYMBOLIC_DEBUG"
  let logLevel ← IO.getEnv "SYMBOLIC_LOG_LEVEL"
  let prompt ← IO.getEnv "SYMBOLIC_PROMPT"
  return Settings.ofEnvironment fun name =>
    ([("SYMBOLIC_DEBUG", debug), ("SYMBOLIC_LOG_LEVEL", logLevel),
      ("SYMBOLIC_PROMPT", prompt)].lookup name).join

/-- Does what the options ask for. -/
def perform (options : CommandLine.Options) (prompt : String) : IO UInt32 := do
  match options.task with
  | .single debug line =>
    match ← answer options debug line with
    | .ok accepted => return (CommandLine.answerStatus accepted).toUInt32
    | .error fault => reportFault fault
  | .session debug =>
    IO.print ((Session.Printed.text "").render "")
    loop options prompt debug

end TermAlgebra.Program

/-- The program simplifies one expression, or line after line of standard input. -/
def main (arguments : List String) : IO UInt32 := do
  let settings ← TermAlgebra.Program.settings
  let level := (TermAlgebra.Log.Level.ofName? settings.logLevel).getD .warning
  match TermAlgebra.CommandLine.parse ⟨none, settings.debug, level⟩ arguments with
  | .ok options => TermAlgebra.Program.perform options settings.prompt
  | .error status => return status.toUInt32
