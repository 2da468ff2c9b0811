import RandomText.Console.Command
import RandomText.Draw.Mixer

/-!
# The program

Reads the command line, the environment and the input, and writes what the command says.
-/

namespace RandomText.Program

open Console

/-- Writes the pieces of a transcript. -/
def write (transcript : Transcript) : IO Unit := do
  let output ← IO.getStdout
  let errors ← IO.getStderr
  for piece in transcript do
    match piece with
    | .output text => output.putStr text.toString
    | .errors text => errors.putStr text.toString
    | .log record => errors.putStr s!"{← IO.monoMsNow} {record.text.toString}\n"
  output.flush
  errors.flush

/-- Reports why a run breaks off. -/
def report (failure : Failure) : IO UInt32 := do
  write [.errors (complaint failure.message)]
  return 1

/-- Answers line after line. -/
partial def converse (settings : SessionSettings) (draws : Draws UInt64) : IO UInt32 := do
  write [.output prompt]
  let line ← (← IO.getStdin).getLine
  if line.isEmpty then
    write (Session.farewell settings .ended)
    return 0
  else
    match Session.answer settings Mixer.source (Text.ofString line) draws with
    | (.ok transcript, draws) => do
      write transcript
      converse settings draws
    | (.error e, _) => report (.answer e)

/-- A counter that nobody can foresee. -/
def seed : IO UInt64 := do
  let octets ← IO.getRandomBytes 8
  return octets.foldl (fun n octet => n * 256 + octet.toUInt64) 0

def run (words : List String) : IO UInt32 := do
  let setting := (← IO.getEnv "GENPASS_DEBUG").map Text.ofString
  let draws : Draws UInt64 := .start (← seed)
  match Command.readArguments (words.map Text.ofString) with
  | .error outcome => do
    write outcome.transcript
    return outcome.status.toUInt32
  | .ok a =>
    let debug := a.debug || asksForLog setting
    match a.pattern with
    | none => converse ⟨a.strict, debug, ← (← IO.getStdin).isTty⟩ draws
    | some pattern =>
      match (Command.runPattern Mixer.source a debug pattern).outcome draws with
      | (.ok outcome, _) => do
        write outcome.transcript
        return outcome.status.toUInt32
      | (.error failure, _) => report failure

end RandomText.Program

def main (words : List String) : IO UInt32 := RandomText.Program.run words
