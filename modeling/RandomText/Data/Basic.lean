import RandomText.Number.Double

/-!
# Plain data

What a JSON or YAML document holds: scalars, lists and maps. Maps keep the order of their entries.
Documents of the second kind have further scalars, and may hold themselves.
-/

namespace RandomText

/-- A day of the calendar. -/
structure Date where
  year : Nat
  month : Nat
  day : Nat
deriving DecidableEq

/-- A day and a time; the offset from universal time is in minutes. -/
structure Moment where
  date : Date
  hour : Nat
  minute : Nat
  second : Nat
  microsecond : Nat
  offset : Option Int
deriving DecidableEq

/-- The two kinds of collections that may hold collections. -/
inductive Collection where
  | list
  | map
deriving DecidableEq

inductive Data where
  | null
  | bool (b : Bool)
  | integer (n : Int)
  | float (x : Double)
  | text (t : Text)
  | list (items : List Data)
  | map (entries : List (Data × Data))
  | bytes (octets : List Nat)
  | date (date : Date)
  | moment (moment : Moment)
  /-- Elements without order or repetition. -/
  | set (elements : List Data)
  /-- A key and a value. -/
  | pair (key value : Data)
  /-- A collection in which collections are nested without end, where it is no longer unfolded. -/
  | cycle (collection : Collection)

instance : Inhabited Data := ⟨.null⟩

namespace Data

/-- The name of the type of a value in messages. -/
def typeName : Data → Text
  | null => "NoneType"
  | bool _ => "bool"
  | integer _ => "int"
  | float _ => "float"
  | text _ => "str"
  | list _ => "list"
  | map _ => "dict"
  | bytes _ => "bytes"
  | date _ => "datetime.date"
  | moment _ => "datetime.datetime"
  | set _ => "set"
  | pair _ _ => "tuple"
  | cycle .list => "list"
  | cycle .map => "dict"

/-- The number that a scalar counts as: the truth values count as zero and one. -/
def toInteger? : Data → Option Int
  | integer n => some n
  | bool b => some (if b then 1 else 0)
  | _ => none

mutual

/-- Equality of values: numbers are compared across their types, collections element by element. -/
def equal : Data → Data → Bool
  | null, null => true
  | bool a, bool b => a = b
  | bool a, integer n => (if a then 1 else 0) = n
  | integer n, bool a => (if a then 1 else 0) = n
  | bool a, float x => x.eqInt (if a then 1 else 0)
  | float x, bool a => x.eqInt (if a then 1 else 0)
  | integer m, integer n => m = n
  | integer n, float x => x.eqInt n
  | float x, integer n => x.eqInt n
  | float x, float y => x.equal y
  | text s, text t => s = t
  | bytes s, bytes t => s = t
  | date s, date t => s = t
  | moment s, moment t => s = t
  | list xs, list ys => equalAll xs ys
  | pair a b, pair c d => equal a c && equal b d
  | map xs, map ys => equalEntries xs ys
  | set xs, set ys => equalAll xs ys
  | _, _ => false

def equalAll : List Data → List Data → Bool
  | [], [] => true
  | x :: xs, y :: ys => equal x y && equalAll xs ys
  | _, _ => false

def equalEntries : List (Data × Data) → List (Data × Data) → Bool
  | [], [] => true
  | (k, v) :: xs, (l, w) :: ys => equal k l && equal v w && equalEntries xs ys
  | _, _ => false

end

variable {α : Type}

/-- What a key leads to. -/
def lookup (key : Data) : List (Data × α) → Option α
  | [] => none
  | (k, v) :: rest => if k.equal key then some v else lookup key rest

/-- Sets what a key leads to: in place, if the key is there, else at the end. -/
def insert (key : Data) (value : α) : List (Data × α) → List (Data × α)
  | [] => [(key, value)]
  | (k, v) :: rest => if k.equal key then (k, value) :: rest else (k, v) :: insert key value rest

/-- The map of some entries; of equal keys the first one is kept, with the last value. -/
def mapOf (entries : List (Data × α)) : List (Data × α) :=
  entries.foldl (fun m e => insert e.1 e.2 m) []

end Data

end RandomText
