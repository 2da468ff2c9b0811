import RandomText.Pattern.Node

/-!
# Lowering

A tree is lowered to an expression of a small language of strings, integers, lists and calls, which
computes from the same draws what the tree generates. Lowering fails only at an integer that has
too many digits to be written.
-/

namespace RandomText

namespace Text

/-- The text with a backslash before each backslash and double quote. -/
def escaped (t : Text) : Text :=
  t.flatMap fun (c : CodePoint) => if c = '\\' ∨ c = '"' then ['\\', c] else [c]

/-- The text as a literal between double quotes. -/
def quoted (t : Text) : Text := "\"" ++ t.escaped ++ "\""

end Text

namespace Atom

/-- A draw of one character of `chars`. -/
def lowerSample (chars : Text) : Text := "sample(" ++ chars.quoted ++ ")"

/-- A draw from `[low, high)`, rendered by `function`. -/
def lowerRange (function : Text) (low high : Int) : Except NumeralError Text := do
  let low ← Numeral.write low
  let high ← Numeral.write high
  return function ++ "(rand_range(" ++ low ++ ", " ++ high ++ "))"

def lower : Atom → Except NumeralError Text
  | literal text => return text.quoted
  | any => lowerRange "chr" printableStart printableStop
  | alpha uppercase => return lowerSample (letters uppercase)
  | numeric => lowerRange "str" 0 10
  | symbol => return lowerSample symbols
  | basicSymbol => return lowerSample basicSymbols
  | sampleSet chars _ => return lowerSample chars
  | range first last _ => lowerRange "str" first (last + 1)
  | charRange first last _ => lowerRange "chr" first.val (last.val + 1)

end Atom

namespace Node

/-- `atom` as often as the tag says; once is the bare atom. -/
def lowerRepeated (repeatCount : Nat) (atom : Text) : Except NumeralError Text :=
  if repeatCount = 1 then return atom
  else do
    let count ← Numeral.write repeatCount
    return "repeat(" ++ count ++ ", " ++ atom ++ ")"

/-- A list of lowered children, combined as the group's kind says. -/
def lowerGroup (kind : GroupKind) (items : List Text) : Text :=
  (match kind with
    | .choice => "sample(["
    | _ => "join([") ++ Text.joined ", " items ++ "])"

mutual

def lower : Node → Except NumeralError Text
  | leaf tag atom => do lowerRepeated tag.repeatCount (← atom.lower)
  | group tag kind children => do
    lowerRepeated tag.repeatCount (lowerGroup kind (← lowerAll children))

def lowerAll : List Node → Except NumeralError (List Text)
  | [] => return []
  | node :: rest => do
    let first ← lower node
    let others ← lowerAll rest
    return first :: others

end

end Node

end RandomText
