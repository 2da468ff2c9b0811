import RandomText.Draw.Source
import RandomText.Expr.Reader

/-!
# Evaluating expressions

Arguments are handed to functions unevaluated: a sample from a list evaluates the drawn element
only, and a repetition evaluates its body anew each time. A fault names the innermost call that
failed on its own account and carries its index.
-/

namespace RandomText.Expr

inductive Value where
  | text (text : Text)
  | integer (n : Int)
  | list (items : List Value)

/-- The name of a value's type in messages. -/
def Value.typeName : Value → Text
  | text _ => "str"
  | integer _ => "int"
  | list _ => "a list"

/-- The functions that expressions can call. -/
inductive Function where
  | randRange
  | sample
  | join
  | repeat
  | chr
  | str
deriving DecidableEq

namespace Function

def all : List Function := [randRange, sample, join, .repeat, chr, str]

def name : Function → Text
  | randRange => "rand_range"
  | sample => "sample"
  | join => "join"
  | .repeat => "repeat"
  | chr => "chr"
  | str => "str"

def ofName? (name : Text) : Option Function := all.find? (·.name = name)

/-- The names of a function's parameters. -/
def parameters : Function → List Text
  | randRange => ["low", "high"]
  | sample => ["population"]
  | join => ["items"]
  | .repeat => ["count", "body"]
  | chr => ["code"]
  | str => ["number"]

end Function

/-- Why a call failed on its own account. -/
inductive CallError where
  /-- The number of arguments is wrong. -/
  | arity (function : Function) (given : Nat)
  | expectedInteger (got : Text)
  | expectedString (got : Text)
  | expectedList
  | emptyList
  | emptyString
  | repeatCount (n : Int)
  /-- No code point has this number. -/
  | notACode
  /-- The number of a code point does not fit into 32 bits. -/
  | codeTooLarge
  | emptyRange (range : EmptyRange)
  | numeral (error : NumeralError)
deriving DecidableEq

namespace CallError

/-- The wording of a wrong number of arguments. -/
def arityMessage (function : Function) (given : Nat) : Text :=
  let shown := "Environment.call_" ++ function.name ++ "()"
  let count := function.parameters.length
  if count < given then
    shown ++ " takes " ++ Numeral.digits (count + 1) ++ " positional arguments but " ++
      Numeral.digits (given + 1) ++ " were given"
  else
    let missing := (function.parameters.drop given).map fun (p : Text) => "'" ++ p ++ "'"
    let noun : Text := if missing.length = 1 then "argument" else "arguments"
    shown ++ " missing " ++ Numeral.digits missing.length ++ " required positional " ++ noun ++
      ": " ++ Text.joined " and " missing

def message : CallError → Text
  | arity function given => arityMessage function given
  | expectedInteger got => "expected an integer, got " ++ got
  | expectedString got => "expected a string, got " ++ got
  | expectedList => "expected a list"
  | emptyList => "cannot sample from an empty list"
  | emptyString => "cannot sample from an empty string"
  | repeatCount n => "repeat count must be at least 1, got " ++ Numeral.signed n
  | notACode => "chr() arg not in range(0x110000)"
  | codeTooLarge => "Python int too large to convert to C int"
  | emptyRange range => range.message
  | numeral error => error.message

end CallError

/-- Why an expression has no value. -/
inductive Cause where
  | unknownFunction (name : Text)
  | failedCall (name : Text) (error : CallError)
deriving DecidableEq

def Cause.message : Cause → Text
  | unknownFunction name => "Unknown function '" ++ name ++ "'"
  | failedCall name error => name ++ "(): " ++ error.message

/-- A cause and the index of the call that it is about. -/
structure Fault where
  cause : Cause
  index : Nat
deriving DecidableEq

variable {σ : Type}

/-- The integer that a value is. -/
def Value.toInteger : Value → Except CallError Int
  | .integer n => .ok n
  | v => .error (.expectedInteger v.typeName)

/-- The text that a value is. -/
def Value.toText : Value → Except CallError Text
  | .text t => .ok t
  | v => .error (.expectedString v.typeName)

/-- The character with a given code. -/
def ofCode (n : Int) : Except CallError Text :=
  if 2147483647 < n ∨ n < -2147483648 then .error .codeTooLarge
  else if n < 0 then .error .notACode
  else match CodePoint.ofNat? n.toNat with
    | some c => .ok [c]
    | none => .error .notACode

/-- Where the own failures of a call go. -/
structure Call where
  index : Nat
  name : Text

namespace Call

/-- Runs a part of a call whose failures are the call's own. -/
def own {α : Type} (call : Call) (x : Drawing σ CallError α) : Drawing σ Fault α :=
  x.mapError fun e => ⟨.failedCall call.name e, call.index⟩

/-- The integer that an argument evaluates to. -/
def integer (call : Call) (x : Drawing σ Fault Value) : Drawing σ Fault Int := do
  let v ← x
  call.own (Drawing.ofExcept v.toInteger)

/-- The text that an argument evaluates to. -/
def text (call : Call) (x : Drawing σ Fault Value) : Drawing σ Fault Text := do
  let v ← x
  call.own (Drawing.ofExcept v.toText)

/-- An integer drawn with `low ≤ i < high`. -/
def draw (call : Call) (source : Source σ) (low high : Int) : Drawing σ Fault Int :=
  call.own ((Drawing.inRange source low high).mapError .emptyRange)

/-- A character drawn from a text. -/
def sampleText (call : Call) (source : Source σ) (chars : Text) : Drawing σ Fault Value := do
  if chars.isEmpty then call.own (throw .emptyString)
  else
    let c ← call.own ((Drawing.element source chars).mapError .emptyRange)
    return .text [c]

end Call

mutual

/-- The value of an expression. -/
def evaluate (source : Source σ) : Expr → Drawing σ Fault Value
  | .string _ value => return .text value
  | .integer _ value => return .integer value
  | .list _ items => do return .list (← evaluateAll source items)
  | .call index name args =>
    let call : Call := ⟨index, name⟩
    match Function.ofName? name, args with
    | none, _ => throw ⟨.unknownFunction name, index⟩
    | some .randRange, [low, high] => do
      let low ← call.integer (evaluate source low)
      let high ← call.integer (evaluate source high)
      return .integer (← call.draw source low high)
    | some .sample, [.list _ items] => do
      if items.isEmpty then call.own (throw .emptyList)
      else
        let i ← call.draw source 0 items.length
        return .text (← call.text (evaluateAt source i.toNat items))
    | some .sample, [population] => do
      call.sampleText source (← call.text (evaluate source population))
    | some .join, [.list _ items] => return .text (← joinAll source call items)
    | some .join, [_] => call.own (throw .expectedList)
    | some .repeat, [count, body] => do
      let times ← call.integer (evaluate source count)
      if times < 1 then call.own (throw (.repeatCount times))
      else return .text (← Drawing.repeated times.toNat (call.text (evaluate source body)))
    | some .chr, [code] => do
      let n ← call.integer (evaluate source code)
      return .text (← call.own (Drawing.ofExcept (ofCode n)))
    | some .str, [number] => do
      let n ← call.integer (evaluate source number)
      return .text (← call.own (Drawing.ofExcept ((Numeral.write n).mapError .numeral)))
    | some function, args => call.own (throw (.arity function args.length))

/-- The values of all expressions, in order. -/
def evaluateAll (source : Source σ) : List Expr → Drawing σ Fault (List Value)
  | [] => return []
  | e :: rest => do
    let first ← evaluate source e
    let others ← evaluateAll source rest
    return first :: others

/-- The value of the expression with index `i`. -/
def evaluateAt (source : Source σ) (i : Nat) : List Expr → Drawing σ Fault Value
  | [] => return .list []
  | e :: rest =>
    match i with
    | 0 => evaluate source e
    | i + 1 => evaluateAt source i rest

/-- The texts that all expressions evaluate to, one after the other. -/
def joinAll (source : Source σ) (call : Call) : List Expr → Drawing σ Fault Text
  | [] => return []
  | e :: rest => do
    let first ← call.text (evaluate source e)
    let others ← joinAll source call rest
    return first ++ others

end

/-- Why expression text yields no text. -/
inductive RunError where
  | unreadable (error : ReadError)
  | fault (fault : Fault)
  /-- The whole expression, at `index`, has a value of another type. -/
  | notAText (typeName : Text) (index : Nat)
deriving DecidableEq

namespace RunError

/-- The wording of a failure to run `source`. -/
def message (source : Text) : RunError → Text
  | unreadable (.malformed index expected) => malformedMessage source index expected
  | unreadable .nestedTooDeeply => "Source nested too deeply to evaluate"
  | unreadable (.numeral error) => error.message
  | fault f => f.cause.message
  | notAText typeName _ => "Source evaluated to " ++ typeName ++ ", not a string"

/-- The index that a failure is about. -/
def index? : RunError → Option Nat
  | unreadable (.malformed index _) => some index
  | unreadable _ => none
  | fault f => some f.index
  | notAText _ index => some index

end RunError

/-- Reads an expression and evaluates it to a text. -/
def run [CallStack] (source : Source σ) (text : Text) : Drawing σ RunError Text := do
  let e ← (Drawing.ofExcept (read text)).mapError .unreadable
  match ← (evaluate source e).mapError .fault with
  | .text t => return t
  | v => throw (.notAText v.typeName e.index)

end RandomText.Expr
