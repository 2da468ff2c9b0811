import RandomText.Pattern.Generate
import RandomText.Stored.Check

/-!
# Generating text from stored trees

A stored tree generates as a pattern tree does, as far as the types of its fields allow. What was
drawn before a failure stays drawn.
-/

namespace RandomText.Stored.Value

variable {σ : Type}

/-- An outcome that draws nothing. -/
def fixed {α : Type} (r : Except Error α) : Drawing σ Error α := Drawing.ofExcept r

/-- The number of elements of a range between two values. -/
def rangeSize (low high : Value) : Except Error (Int × Nat) := do
  if ← before .atMost high low then throw (.emptyRange (← low.message) (← high.message))
  match low.toInteger?, high.toInteger? with
  | some m, some n => return (m, (n - m).toNat)
  | _, _ => throw (.noDifference high.typeName low.typeName)

/-- An integer `i` with `low ≤ i < high`. -/
def inRange (source : Source σ) (low high : Value) : Drawing σ Error Int := do
  let (start, size) ← fixed (rangeSize low high)
  let n ← Drawing.below source size
  return start + n

/-- The decimal text of an integer drawn from a range. -/
def decimalInRange (source : Source σ) (low high : Value) : Drawing σ Error Value := do
  let n ← inRange source low high
  return .text (← fixed ((Numeral.write n).mapError .numeral))

/-- The character with a given code. -/
def ofCode (n : Int) : Except Error Text :=
  if 2147483647 < n ∨ n < -2147483648 then .error .codeTooLarge
  else if n < 0 then .error .notACode
  else match CodePoint.ofNat? n.toNat with
    | some c => .ok [c]
    | none => .error .notACode

/-- A character whose code is drawn from a range. -/
def codeInRange (source : Source σ) (low high : Value) : Drawing σ Error Value := do
  let n ← inRange source low high
  return .text (← fixed (ofCode n))

/-- An index into a value that has a length. -/
def indexInto (source : Source σ) (v : Value) : Drawing σ Error Nat := do
  let length ← fixed v.length
  let i ← inRange source (.integer 0) (.integer length)
  return i.toNat

/-- The element with a given index. -/
def element (i : Nat) : Value → Except Error Value
  | text t =>
    match t[i]? with
    | some c => .ok (.text [c])
    | none => .error (.indexOutOfRange "str")
  | list items =>
    match items[i]? with
    | some v => .ok v
    | none => .error (.indexOutOfRange "list")
  | raw (.map _) => .error (.missingKey (Numeral.digits i))
  | v => .error (.noEntries v.typeName)

/-- One of the elements of a value. -/
def sample (source : Source σ) (v : Value) : Drawing σ Error Value := do
  let i ← indexInto source v
  fixed (v.element i)

/-- One instance of a leaf. -/
def generateAtom (source : Source σ) (kind : NodeKind) (fields : List Value) :
    Drawing σ Error Value :=
  match kind, fields with
  | .literal, [t] => return t
  | .any, _ => codeInRange source (.integer Atom.printableStart) (.integer Atom.printableStop)
  | .alpha, [uppercase] => sample source (.text (Atom.letters uppercase.isTrue))
  | .numeric, _ => decimalInRange source (.integer 0) (.integer 10)
  | .symbol, _ => sample source (.text Atom.symbols)
  | .basicSymbol, _ => sample source (.text Atom.basicSymbols)
  | .sampleSet, [chars] => sample source chars
  | .range, [start, _, stop] => decimalInRange source start stop
  | .charRange, [_, _, start, stop] => codeInRange source start stop
  | kind, _ => throw (.noAttribute kind.name "generate_one")

/-- The concatenation of values that are texts. -/
def concatenated (index : Nat) : List Value → Except Error Text
  | [] => .ok []
  | text t :: rest => do return t ++ (← concatenated (index + 1) rest)
  | v :: _ => .error (.itemNotText index v.typeName)

/-- Runs `x` so often and adds its outputs to `latest`, which stand latest first. -/
def collected (x : Drawing σ Error Value) : Nat → List Value → Drawing σ Error (List Value)
  | 0, latest => return latest.reverse
  | n + 1, latest => do
    let v ← x
    collected x n (v :: latest)

/-- The texts of as many instances as the repeat count says. -/
def generateRepeated (count : Value) (x : Drawing σ Error Value) : Drawing σ Error Text := do
  match count.toInteger? with
  | some n => do
    let parts ← collected x n.toNat []
    fixed (concatenated 0 parts)
  | none => throw (.notACount count.typeName)

mutual

/-- The text that a value generates. -/
def generate (source : Source σ) : Value → Drawing σ Error Text
  | node kind _ count [children, sequential] =>
    match kind with
    | .group | .root =>
      generateRepeated count do
        if sequential.isTrue then return .text (← generateChildren source children)
        else
          let i ← indexInto source children
          return .text (← generateChild source i children)
    | kind => generateRepeated count (generateAtom source kind [children, sequential])
  | node kind _ count fields => generateRepeated count (generateAtom source kind fields)
  | v => throw (.noAttribute v.typeName "generate")

/-- The texts of all elements of a value. -/
def generateChildren (source : Source σ) : Value → Drawing σ Error Text
  | list items => generateAll source items
  | text [] => return []
  | text (_ :: _) => throw (.noAttribute "str" "generate")
  | raw (.map []) => return []
  | raw (.map ((key, _) :: _)) => throw (.noAttribute key.typeName "generate")
  | v => throw (.notIterable v.typeName)

/-- The text of the element with index `i`. -/
def generateChild (source : Source σ) (i : Nat) : Value → Drawing σ Error Text
  | list items => generateAt source i items
  | v => do
    let child ← fixed (v.element i)
    throw (.noAttribute child.typeName "generate")

def generateAll (source : Source σ) : List Value → Drawing σ Error Text
  | [] => return []
  | v :: rest => do
    let first ← generate source v
    let others ← generateAll source rest
    return first ++ others

def generateAt (source : Source σ) (i : Nat) : List Value → Drawing σ Error Text
  | [] => throw (.indexOutOfRange "list")
  | v :: rest =>
    match i with
    | 0 => generate source v
    | i + 1 => generateAt source i rest

end

/-- One instance of a node. -/
def generateOne (source : Source σ) : Value → Drawing σ Error Value
  | node kind _ _ [children, sequential] =>
    match kind with
    | .group | .root => do
      if sequential.isTrue then return .text (← generateChildren source children)
      else
        let i ← indexInto source children
        return .text (← generateChild source i children)
    | kind => generateAtom source kind [children, sequential]
  | node kind _ _ fields => generateAtom source kind fields
  | v => throw (.noAttribute v.typeName "generate_one")

end RandomText.Stored.Value
