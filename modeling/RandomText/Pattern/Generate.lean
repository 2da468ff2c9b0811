import RandomText.Draw.Source
import RandomText.Pattern.Node

/-!
# Generating text from a tree

The tree is walked from left to right and each repetition is drawn on its own; a choice draws the
index of a child and then what the child draws.
-/

namespace RandomText

/-- Why a tree generates nothing. -/
inductive GenerateError where
  /-- A choice without children. -/
  | empty (range : EmptyRange)
  /-- A drawn integer has too many digits to be written. -/
  | numeral (error : NumeralError)
deriving DecidableEq

/-- The wording of a failure. -/
def GenerateError.message : GenerateError → Text
  | empty range => range.message
  | numeral error => error.message

namespace Drawing

variable {σ : Type}

/-- The decimal text of an integer with `low ≤ i < high`. -/
def decimalInRange (source : Source σ) (low high : Int) : Drawing σ GenerateError Text := do
  let n ← (inRange source low high).mapError .empty
  (ofExcept (Numeral.write n)).mapError .numeral

/-- A character whose code `i` has `low ≤ i < high`. -/
def codeInRange (source : Source σ) (low high : Int) : Drawing σ GenerateError Text := do
  let n ← (inRange source low high).mapError .empty
  return (CodePoint.ofNat? n.toNat).toList

/-- One of the characters of a text. -/
def character (source : Source σ) (chars : Text) : Drawing σ GenerateError Text := do
  let c ← (element source chars).mapError .empty
  return [c]

end Drawing

variable {σ : Type}

/-- One instance of a leaf. -/
def Atom.generate (source : Source σ) : Atom → Drawing σ GenerateError Text
  | literal text => return text
  | any => Drawing.codeInRange source printableStart printableStop
  | alpha uppercase => Drawing.character source (letters uppercase)
  | numeric => Drawing.decimalInRange source 0 10
  | symbol => Drawing.character source symbols
  | basicSymbol => Drawing.character source basicSymbols
  | sampleSet chars _ => Drawing.character source chars
  | range first last _ => Drawing.decimalInRange source first (last + 1)
  | charRange first last _ => Drawing.codeInRange source first.val (last.val + 1)

namespace Node

mutual

/-- The text that a node generates, all its repetitions included. -/
def generate (source : Source σ) : Node → Drawing σ GenerateError Text
  | leaf tag atom => Drawing.repeated tag.repeatCount (atom.generate source)
  | group tag .choice children =>
    Drawing.repeated tag.repeatCount do
      let i ← (Drawing.inRange source 0 children.length).mapError .empty
      generateAt source i.toNat children
  | group tag _ children =>
    Drawing.repeated tag.repeatCount (generateAll source children)

/-- The texts of all nodes, one after the other. -/
def generateAll (source : Source σ) : List Node → Drawing σ GenerateError Text
  | [] => return []
  | node :: rest => do
    let first ← generate source node
    let others ← generateAll source rest
    return first ++ others

/-- The text of the node with index `i`. -/
def generateAt (source : Source σ) (i : Nat) : List Node → Drawing σ GenerateError Text
  | [] => return []
  | node :: rest =>
    match i with
    | 0 => generate source node
    | i + 1 => generateAt source i rest

end

end Node

end RandomText
