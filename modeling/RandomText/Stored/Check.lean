import RandomText.Stored.Error

/-!
# Making nodes

A node is made from the values of some of its fields. The others get their defaults or are computed,
and the conditions of its kind are checked as far as the types of the values have the operations
that the check needs.
-/

namespace RandomText.Stored

namespace Value

/-- A value as messages show it. -/
def message (v : Value) : Except Error Text := v.shown.mapError .numeral

/-- A value with texts between quotes. -/
def inspected (v : Value) : Except Error Text := v.inspect.mapError .numeral

/-- Whether `m` stands before `n`. -/
def compareIntegers (comparison : Comparison) (m n : Int) : Bool :=
  match comparison with
  | .less => m < n
  | .atMost => m ≤ n

/-- Whether `s` stands before `t` in the order of their first different code points. -/
def textBefore (comparison : Comparison) : Text → Text → Bool
  | [], [] => comparison = .atMost
  | [], _ :: _ => true
  | _ :: _, [] => false
  | c :: s, d :: t => if c = d then textBefore comparison s t else c.val < d.val

/-- Whether `x` stands before `y`. -/
def compareDoubles (comparison : Comparison) (x y : Double) : Bool :=
  x.lt y || (comparison = .atMost && x.equal y)

mutual

/-- Whether a value stands before another, if values of their types have an order: numbers, texts,
and lists, which are compared at their first difference. -/
def before (comparison : Comparison) : Value → Value → Except Error Bool
  | text s, text t => .ok (textBefore comparison s t)
  | list xs, list ys => listBefore comparison xs ys
  | float x, float y => .ok (compareDoubles comparison x y)
  | float x, v =>
    match v.toInteger? with
    | some n => .ok (x.ltInt n || (comparison = .atMost && x.eqInt n))
    | none => .error (.noOrder comparison "float" v.typeName)
  | u, float y =>
    match u.toInteger? with
    | some n => .ok (y.intLt n || (comparison = .atMost && y.eqInt n))
    | none => .error (.noOrder comparison u.typeName "float")
  | u, v =>
    match u.toInteger?, v.toInteger? with
    | some m, some n => .ok (compareIntegers comparison m n)
    | _, _ => .error (.noOrder comparison u.typeName v.typeName)

def listBefore (comparison : Comparison) : List Value → List Value → Except Error Bool
  | [], [] => .ok (comparison = .atMost)
  | [], _ :: _ => .ok true
  | _ :: _, [] => .ok false
  | x :: xs, y :: ys =>
    if x.equal y then listBefore comparison xs ys else before comparison x y

end

/-- How many elements a value has. -/
def length : Value → Except Error Nat
  | text t => .ok t.length
  | list items => .ok items.length
  | raw (.map entries) => .ok entries.length
  | raw (.bytes octets) => .ok octets.length
  | raw (.set elements) => .ok elements.length
  | v => .error (.noLength v.typeName)

/-- The code of a value of length one. -/
def code : Value → Except Error Int
  | text [c] => .ok c.val
  | v => .error (.notACharacter v.typeName)

/-- A value plus one. -/
def successor (v : Value) : Except Error Value :=
  match v.toInteger? with
  | some n => .ok (integer (n + 1))
  | none => .error (.noSum v.typeName)

end Value

open Value

/-- Refuses a repeat count below one. -/
def checkRepeatCount (count : Value) : Except Error Unit := do
  if ← before .less count (.integer 1) then
    throw (.repeatCountTooSmall (← count.message))

/-- A range from `first` to `last` and the bound after it. -/
def rangeFields (first last : Value) : Except Error (List Value) := do
  if ← before .less last first then
    throw (.rangeReversed (← last.message) (← first.message))
  let stop ← last.successor
  return [first, last, stop]

/-- Refuses bounds that are not of length one; the second is looked at only if the first is. -/
def checkBounds (first last : Value) : Except Error Unit := do
  let refusal : Except Error Unit := do
    throw (.boundsNotCharacters (← first.inspected) (← last.inspected))
  if (← first.length) ≠ 1 then refusal
  else if (← last.length) ≠ 1 then refusal

/-- A range between two characters and the codes of its bounds. -/
def charRangeFields (first last : Value) : Except Error (List Value) := do
  checkBounds first last
  let start ← first.code
  let stop := (← last.code) + 1
  if stop ≤ start then throw (.charRangeReversed (← first.inspected) (← last.inspected))
  return [first, last, .integer start, .integer stop]

/-- Values for fields, by name. -/
abbrev Given := List (Text × Value)

namespace Given

def get? (given : Given) (name : Text) : Option Value :=
  (given.find? (·.1 = name)).map (·.2)

def get (given : Given) (name : Text) (absent : Value) : Value := (given.get? name).getD absent

/-- The required fields of a kind that have no value. -/
def missing (given : Given) (kind : NodeKind) : List Text :=
  (kind.fields.filter fun f => f.role = .required && (given.get? f.name).isNone).map (·.name)

end Given

/-- All fields of a node, checked. -/
def fieldsOf (kind : NodeKind) (given : Given) : Except Error (List Value) :=
  match kind with
  | .literal => return [given.get "text" .null]
  | .alpha => return [given.get "uppercase" (.bool false)]
  | .sampleSet =>
    let chars := given.get "chars" .null
    if chars.isTrue then return [chars] else throw .emptySampleSet
  | .range => rangeFields (given.get "start" .null) (given.get "end" .null)
  | .charRange => charRangeFields (given.get "first" .null) (given.get "last" .null)
  | .group => return [given.get "children" (.list []), given.get "sequential" (.bool true)]
  | .root => return [given.get "children" (.list []), .bool true]
  | _ => return []

/-- A node of some kind, unless a required field is missing or a check fails. -/
def makeNode (kind : NodeKind) (place : Option Place) (given : Given) : Except Error Value := do
  let missing := given.missing kind
  if !missing.isEmpty then throw (.missingFields kind missing)
  let count := given.get repeatCountName (.integer 1)
  checkRepeatCount count
  let fields ← fieldsOf kind given
  return .node kind place count fields

end RandomText.Stored
