import RandomText.Console.Transcript

/-!
# An interactive session

Every line is taken as a pattern and answered with its lowered text and one generated text. Faults
go to the error output. The session ends with the input or with an interrupt.
-/

namespace RandomText.Console

/-- What stands before every line. -/
def prompt : Text := ">>> "

/-- An attempt to read a line. -/
inductive Attempt where
  | line (text : Text)
  | ended
  | interrupted
deriving DecidableEq

structure SessionSettings where
  strict : Bool
  debug : Bool
  /-- Whether the input is a terminal. -/
  terminal : Bool

namespace Session

/-- The lines of an input, each with its line feed. -/
def lines : Text → List Text
  | [] => []
  | c :: rest =>
    if c = '\n' then [c] :: lines rest
    else match lines rest with
      | [] => [[c]]
      | line :: others => (c :: line) :: others

/-- A line without the carriage returns and line feeds at its end. -/
def stripped (line : Text) : Text :=
  (line.reverse.dropWhile fun (c : CodePoint) => c.val = 10 || c.val = 13).reverse

/-- The attempts to read all of an input; the attempt with the number `interruptAt`, counted from
one, is interrupted. -/
def attempts (input : Text) (interruptAt : Option Nat) : List Attempt :=
  let all := (lines input).map Attempt.line ++ [.ended]
  match interruptAt with
  | some n => if 1 ≤ n ∧ n ≤ all.length then all.take (n - 1) ++ [.interrupted] else all
  | none => all

variable {σ : Type} [Expr.CallStack]

/-- The answer to a line. -/
def answer (settings : SessionSettings) (source : Source σ) (line : Text) :
    StateM (Draws σ) (Except AnswerError Transcript) :=
  fun d =>
    let pattern : Pattern.Settings := { strict := settings.strict }
    let (traced, d) := compileAndRun pattern prompt.length source (stripped line) d
    let log := logged settings.debug traced.records
    let shown := traced.outcome.map fun a =>
      log ++ [if a.succeeded then .output (a.text ++ "\n") else .errors (a.text ++ "\n")]
    (shown, d)

/-- The end of a session. -/
def farewell (settings : SessionSettings) : Attempt → Transcript
  | .interrupted => [.output "\n"]
  | _ => if settings.terminal then [.output "\n"] else []

/-- A whole session, which ends with status zero. -/
def run (settings : SessionSettings) (source : Source σ) :
    List Attempt → StateM (Draws σ) (Except AnswerError Outcome)
  | .line text :: rest => fun d =>
    match answer settings source text d with
    | (.error e, d) => (.error e, d)
    | (.ok answered, d) =>
      match run settings source rest d with
      | (.error e, d) => (.error e, d)
      | (.ok others, d) =>
        (.ok { others with transcript := .output prompt :: answered ++ others.transcript }, d)
  | last :: _ => fun d => (.ok ⟨.output prompt :: farewell settings last, 0⟩, d)
  | [] => fun d => (.ok ⟨.output prompt :: farewell settings .ended, 0⟩, d)

end Session

end RandomText.Console
