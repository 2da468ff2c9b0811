import RandomText.Compile
import RandomText.Json.Writer
import RandomText.Stored.Error
import RandomText.Yaml.Writer

/-!
# What a run of the program writes

A transcript lists in order what goes to the output, to the error output and to the log. A run ends
with a status unless a number turns out to be too long.
-/

namespace RandomText.Console

inductive Piece where
  | output (text : Text)
  | errors (text : Text)
  /-- A line of the log, which stands in the error output. -/
  | log (record : Record)

/-- The pieces that a run writes, in order. -/
abbrev Transcript := List Piece

namespace Transcript

/-- The text of the output. -/
def output (t : Transcript) : Text :=
  t.flatMap fun piece => match piece with
    | .output text => text
    | _ => []

/-- The text of the error output; `stamp` stands before the lines of the log. -/
def errors (stamp : Text) (t : Transcript) : Text :=
  t.flatMap fun piece => match piece with
    | .errors text => text
    | .log record => stamp ++ " " ++ record.text ++ "\n"
    | _ => []

end Transcript

/-- What a run writes, and its status. -/
structure Outcome where
  transcript : Transcript
  status : Nat

/-- Why a run breaks off. -/
inductive Failure where
  /-- The option that counts the texts is given without a value. -/
  | noCount
  | answer (error : AnswerError)
  | numeral (error : NumeralError)
  | generation (error : GenerateError)
  | tree (error : Stored.Error)
  | json (error : Json.WriteError)
  | yaml (error : Yaml.WriteError)

def Failure.message : Failure → Text
  | noCount => "'<' not supported between instances of 'list' and 'int'"
  | answer e => e.message
  | numeral e => e.message
  | generation e => e.message
  | tree e => e.message
  | json e => e.message
  | yaml e => e.message

/-- The log of some records, if there is to be one. -/
def logged (debug : Bool) (records : List Record) : Transcript :=
  if debug then records.map .log else []

end RandomText.Console
