import RandomText.Pattern.Node

/-!
# Faults of pattern text

A fault names its cause and the index of the code point that it is about, or the end of the text
where something is missing there.
-/

namespace RandomText.Pattern

/-- What is wrong with a pattern text. -/
inductive Cause where
  /-- The text ends before one of the `closers`. -/
  | unclosed (closers : List CodePoint)
  | emptySampleSet
  | repeatNotANumber
  | repeatZero
  | nothingToRepeat
  | repeatedTwice
  /-- A range segment without a dash. -/
  | segmentWithoutDash (segment : Text)
  /-- A segment that starts with a number and does not end with one. -/
  | rangeEndNotANumber (last : Text)
  | rangeReversed (first last : Nat)
  /-- A segment between texts that are neither two numbers nor two characters. -/
  | charRangeBounds (segment : Text)
  | charRangeReversed (first last : CodePoint)
  | nestedTooDeeply
  | emptyChoice
  /-- A character without meaning, where these are refused. -/
  | unexpected (c : CodePoint)
deriving DecidableEq

namespace Cause

/-- A code point between single quotes. -/
def named (c : CodePoint) : Text := "'" ++ [c] ++ "'"

/-- The closers that a message asks for. -/
def closersText : List CodePoint → Text
  | [c] => named c
  | closers => "one of (" ++ Text.joined ", " (closers.map named) ++ ")"

def message : Cause → Text
  | unclosed closers => "Expected " ++ closersText closers ++ " but got EOF"
  | emptySampleSet => "Sample set must contain at least one character"
  | repeatNotANumber => "Repeat modifier must be a number"
  | repeatZero => "Repeat modifier must be at least 1"
  | nothingToRepeat => "Repeat modifier has nothing to repeat"
  | repeatedTwice => "Repeat modifier already applied to this element"
  | segmentWithoutDash segment => "Range '" ++ segment ++ "' must have the form start-end"
  | rangeEndNotANumber last => "Range end '" ++ last ++ "' must be a number"
  | rangeReversed first last =>
    "Range " ++ Numeral.digits first ++ "-" ++ Numeral.digits last ++ " is reversed"
  | charRangeBounds segment =>
    "Character range '" ++ segment ++ "' must have single character bounds"
  | charRangeReversed first last =>
    "Character range '" ++ [first] ++ "-" ++ [last] ++ "' is reversed"
  | nestedTooDeeply => "Groups nested too deeply"
  | emptyChoice => "Choice group must contain at least one element"
  | unexpected c => "Unexpected character " ++ named c

end Cause

structure Fault where
  cause : Cause
  index : Nat
deriving DecidableEq

namespace Fault

def message (fault : Fault) : Text := fault.cause.message

end Fault

/-- Why a pattern text has no tree. -/
inductive ReadError where
  | fault (fault : Fault)
  /-- A number that cannot be read. -/
  | numeral (error : NumeralError)
deriving DecidableEq

end RandomText.Pattern
