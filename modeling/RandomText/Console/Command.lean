import RandomText.Console.Arguments
import RandomText.Console.Session
import RandomText.Console.Usage
import RandomText.Stored.Dump
import RandomText.Stored.OfNode
import RandomText.Text.LowerCase

/-!
# The command

With a pattern the command prints generated texts, the lowered text or the tree; without one it
starts a session.
-/

namespace RandomText.Console

/-- Whether a setting of the environment asks for the log. -/
def asksForLog (setting : Option Text) : Bool :=
  match setting with
  | none => false
  | some t => (["1", "true", "yes", "on"] : List Text).contains t.trimmed.lowerCase

namespace Command

variable {σ : Type}

/-- The name of the pattern in positions. -/
def origin : Text := "<argv>"

/-- The text of a tree. -/
def treeText (format : TreeFormat) (root : Node) : Except Failure Text := do
  let data ← ((Stored.Value.ofNode root).dumpTree true).mapError .tree
  match format with
  | .json => do
    let text ← (Json.write (some 2) data).mapError .json
    return text ++ "\n"
  | .yaml => (Yaml.write data).mapError .yaml

/-- So many generated texts, each on a line. -/
def generateLines (source : Source σ) (root : Node) : Nat → Drawing σ GenerateError Text
  | 0 => return []
  | n + 1 => do
    let first ← root.generate source
    let others ← generateLines source root n
    return first ++ "\n" ++ others

/-- What is printed about a tree. -/
def treeOutput (source : Source σ) (a : Arguments) (count : Int) (root : Node) :
    Drawing σ Failure Text :=
  match a.ast with
  | some (some format) => .ofExcept (treeText format root)
  | _ =>
    if a.source then
      .ofExcept ((root.lower.mapError .numeral).map fun (t : Text) => t ++ "\n")
    else (generateLines source root count.toNat).mapError .generation

/-- The run for a pattern, of which `count` texts are asked for. -/
def runCounted (source : Source σ) (a : Arguments) (debug : Bool) (count : Int) (pattern : Text) :
    Drawing σ Failure Outcome :=
  if count < 1 then return ⟨[.errors (complaint "--count must be at least 1")], 2⟩
  else
    let reading := Pattern.reading { origin := origin, strict := a.strict } pattern
    let log := logged debug (reading.progress.events.map .reading)
    match reading.result with
    | .error (.numeral e) => throw (.numeral e)
    | .error (.fault f) => do
      let shown ← .ofExcept ((f.caret 0).mapError (.answer ∘ .caret))
      return ⟨log ++ [.errors (pattern ++ "\n" ++ shown ++ "\n")], 1⟩
    | .ok root => do
      let text ← treeOutput source a count root
      return ⟨log ++ [.output text], 0⟩

/-- The run for a pattern. -/
def runPattern (source : Source σ) (a : Arguments) (debug : Bool) (pattern : Text) :
    Drawing σ Failure Outcome :=
  match a.count with
  | none => throw .noCount
  | some count => runCounted source a debug count pattern

/-- The run for a command line that cannot be obeyed. -/
def refuse (e : ArgumentError) : Outcome :=
  ⟨[.errors (usage ++ complaint ("error: " ++ e.message))], 2⟩

/-- What a command line asks for, or the run that it ends in at once. -/
def readArguments (words : List Text) : Except Outcome Arguments :=
  (Arguments.read words).mapError fun stop => match stop with
    | .help => ⟨[.output help], 0⟩
    | .error e => refuse e

/-- The run for a command line. `attempts` are the attempts to read the input and `setting` is the
setting of the environment that may ask for the log. -/
def run [Expr.CallStack] (source : Source σ) (words : List Text) (attempts : List Attempt) (setting : Option Text) :
    Drawing σ Failure Outcome :=
  match readArguments words with
  | .error outcome => return outcome
  | .ok a =>
    let debug := a.debug || asksForLog setting
    match a.pattern with
    | some pattern => runPattern source a debug pattern
    | none => fun d =>
      let (r, d) := Session.run ⟨a.strict, debug, false⟩ source attempts d
      (r.mapError Failure.answer, d)

end Command

end RandomText.Console
