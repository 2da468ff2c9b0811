import RandomText.Expr.Evaluate
import RandomText.Fault
import RandomText.Pattern.Generate
import RandomText.Pattern.Lower
import RandomText.Pattern.Reader

/-!
# Compiling and running a pattern

A pattern is read, lowered, and the lowered text is run. The answer shows the lowered text and what
it generated, or a caret under the place where the pattern is at fault. On the way a trace is kept
of what a debugging user wants to see.
-/

namespace RandomText

/-- Why a pattern has no lowered text. -/
inductive CompileError where
  | fault (fault : Pattern.Fault)
  | numeral (error : NumeralError)
deriving DecidableEq

/-- An unreadable pattern as a pattern that cannot be compiled. -/
def CompileError.ofReadError : Pattern.ReadError → CompileError
  | .fault f => fault f
  | .numeral e => numeral e

/-- The lowered text of a pattern. -/
def compile (settings : Pattern.Settings) (pattern : Text) : Except CompileError Text := do
  let root ← (Pattern.read settings pattern).mapError .ofReadError
  root.lower.mapError .numeral

/-- The caret under a fault of a pattern that stands behind a prompt of the given width. -/
def Pattern.Fault.caret (fault : Pattern.Fault) (promptWidth : Int) : Except CaretError Text :=
  RandomText.Fault.rendered ⟨.pattern, fault.message, some fault.index⟩ promptWidth

/-- A line of the trace. -/
inductive Record where
  | reading (event : Pattern.Event)
  | refused (fault : Pattern.Fault)
  | running (source : Text)
  | failed (message : Text)

namespace Record

/-- The part of the program that a record comes from. -/
def logger : Record → Text
  | reading _ => "genpass.ast.builder"
  | refused _ => "genpass.compiler"
  | running _ => "genpass.runtime"
  | failed _ => "genpass.compiler"

def message : Record → Text
  | reading (.opened kind index) =>
    "Opened " ++ kind.name ++ " frame at index " ++ Numeral.digits index
  | reading (.closed kind start) =>
    "Closed " ++ kind.name ++ " frame opened at index " ++ Numeral.digits start
  | reading (.ignored c index) =>
    "Ignoring " ++ Text.inspect [c] ++ " at index " ++ Numeral.digits index
  | refused fault =>
    "Syntax fault at index " ++ Numeral.digits fault.index ++ ": " ++ fault.message
  | running source => "Evaluating " ++ source
  | failed message => "Evaluation fault: " ++ message

/-- The record on one line. -/
def text (r : Record) : Text := r.logger ++ " DEBUG: " ++ r.message

end Record

/-- What is shown for a pattern, and whether the pattern was free of faults. -/
structure Answer where
  text : Text
  succeeded : Bool
deriving DecidableEq

/-- Why a pattern has no answer. -/
inductive AnswerError where
  | numeral (error : NumeralError)
  /-- The prompt is so wide that there is no place for the caret. -/
  | caret (error : CaretError)
deriving DecidableEq

/-- The wording of a failure to answer. -/
def AnswerError.message : AnswerError → Text
  | numeral error => error.message
  | caret error => error.message

/-- The trace of an answer, and the answer if there is one. -/
structure Traced where
  records : List Record
  outcome : Except AnswerError Answer

variable {σ : Type} [Expr.CallStack]

/-- Runs lowered text for its answer, after the `records`. -/
def answerLowered (source : Source σ) (records : List Record) (lowered : Text) :
    StateM (Draws σ) Traced :=
  fun d =>
    let records := records ++ [.running lowered]
    let shown (output : Text) : Answer := ⟨lowered ++ "\n" ++ output, true⟩
    match (Expr.run source lowered).outcome d with
    | (.ok output, d) => (⟨records, .ok (shown output)⟩, d)
    | (.error (.unreadable (.numeral e)), d) => (⟨records, .error (.numeral e)⟩, d)
    | (.error e, d) =>
      let message := e.message lowered
      (⟨records ++ [.failed message], .ok (shown message)⟩, d)

/-- Compiles a pattern and runs it. A failure while running stands in place of the generated
text. -/
def compileAndRun (settings : Pattern.Settings) (promptWidth : Int) (source : Source σ)
    (pattern : Text) : StateM (Draws σ) Traced :=
  fun d =>
    let reading := Pattern.reading settings pattern
    let records := reading.progress.events.map Record.reading
    match reading.result with
    | .error (.fault f) =>
      let shown := (f.caret promptWidth).mapError AnswerError.caret
      (⟨records ++ [.refused f], shown.map (⟨·, false⟩)⟩, d)
    | .error (.numeral e) => (⟨records, .error (.numeral e)⟩, d)
    | .ok root =>
      match root.lower with
      | .error e => (⟨records, .error (.numeral e)⟩, d)
      | .ok lowered => answerLowered source records lowered d

end RandomText
