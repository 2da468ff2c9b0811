import RandomText.Text.Printable

/-!
# Text shown inside messages

A text is shown between quotes, with everything that cannot be printed escaped: tab, line feed and
carriage return by a letter, other code points by two, four or eight hexadecimal digits.
-/

namespace RandomText.Text

/-- Single quotes, unless the text holds a single quote and no double quote. -/
def inspectQuote (t : Text) : CodePoint :=
  if t.contains (CodePoint.ofChar '\'') && !t.contains (CodePoint.ofChar '"') then '"' else '\''

/-- One code point of a text shown between `quote`s. -/
def inspectUnit (quote c : CodePoint) : Text :=
  if c = quote ∨ c.val = 92 then [CodePoint.ofChar '\\', c]
  else if c.val = 9 then "\\t"
  else if c.val = 10 then "\\n"
  else if c.val = 13 then "\\r"
  else if c.isPrintable then [c]
  else if c.val < 0x100 then "\\x" ++ hex 2 c.val
  else if c.val < 0x10000 then "\\u" ++ hex 4 c.val
  else "\\U" ++ hex 8 c.val

/-- The text as messages show it. -/
def inspect (t : Text) : Text :=
  let quote := inspectQuote t
  [quote] ++ t.flatMap (inspectUnit quote) ++ [quote]

end RandomText.Text
