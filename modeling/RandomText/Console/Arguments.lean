import RandomText.Text.Integer

/-!
# The command line

The words of a command line are options with their values and at most one pattern. Options have long
and short names; a long name may be cut short as long as only one begins so. A word of two hyphens
ends the options.
-/

namespace RandomText.Console

/-- The options, in the order in which they are listed. -/
inductive Switch where
  | help
  | count
  | source
  | ast
  | strict
  | debug
deriving DecidableEq

/-- The formats in which a tree can be shown. -/
inductive TreeFormat where
  | json
  | yaml
deriving DecidableEq

/-- What a command line asks for. A value of two hyphens is dropped, which leaves an option that is
given without a value. -/
structure Arguments where
  pattern : Option Text
  /-- How many texts to generate; `none` if the value was dropped. -/
  count : Option Int
  source : Bool
  /-- The format of the tree, if one is asked for; the inner `none` if the value was dropped. -/
  ast : Option (Option TreeFormat)
  strict : Bool
  debug : Bool
deriving DecidableEq

/-- What an empty command line asks for. -/
def Arguments.initial : Arguments := ⟨none, some 1, false, none, false, false⟩

namespace Switch

/-- All names with their options. -/
def names : List (Text × Switch) :=
  [("-h", help), ("--help", help), ("-n", count), ("--count", count), ("--source", source),
    ("--ast", ast), ("--strict", strict), ("--debug", debug)]

def ofName? (name : Text) : Option Switch := (names.find? (·.1 = name)).map (·.2)

/-- The names of an option in messages. -/
def label (s : Switch) : Text :=
  Text.joined "/" ((names.filter (·.2 = s)).map (·.1))

/-- Whether an option has a value. -/
def takesValue : Switch → Bool
  | count => true
  | ast => true
  | _ => false

end Switch

/-- Why a command line cannot be obeyed. -/
inductive ArgumentError where
  /-- More than one long name begins with a word. -/
  | ambiguous (word : Text) (names : List Text)
  | noValue (switch : Switch)
  /-- A value for an option without one. -/
  | uselessValue (switch : Switch) (value : Text)
  | notAnInteger (switch : Switch) (value : Text)
  | notATreeFormat (switch : Switch) (value : Text)
  /-- Two options that exclude each other. -/
  | conflict (switch other : Switch)
  | unrecognized (words : List Text)
deriving DecidableEq

/-- The wording about one option. -/
def about (switch : Switch) (message : Text) : Text :=
  "argument " ++ switch.label ++ ": " ++ message

def ArgumentError.message : ArgumentError → Text
  | ambiguous word names =>
    "ambiguous option: " ++ word ++ " could match " ++ Text.joined ", " names
  | noValue switch => about switch "expected one argument"
  | uselessValue switch value => about switch ("ignored explicit argument " ++ value.inspect)
  | notAnInteger switch value => about switch ("invalid int value: " ++ value.inspect)
  | notATreeFormat switch value =>
    about switch ("invalid choice: " ++ value.inspect ++ " (choose from 'json', 'yaml')")
  | conflict switch other => about switch ("not allowed with argument " ++ other.label)
  | unrecognized words => "unrecognized arguments: " ++ Text.joined " " words

/-! ## Words -/

inductive Word where
  /-- The pattern or the value of an option. -/
  | plain (text : Text)
  /-- An option and what stands behind its name or its equals sign; `short` if its name has one
  hyphen. -/
  | switch (switch : Switch) (short : Bool) (attached : Option Text)
  /-- A word that looks like an option and is none. -/
  | stray (text : Text)
deriving DecidableEq

namespace Word

/-- Whether a text is a decimal number behind a hyphen; a line feed may end it. -/
def isNegativeNumber (t : Text) : Bool :=
  let isDigit (c : CodePoint) : Bool := c.decimalValue?.isSome
  let body := if t.getLast? = some (CodePoint.ofChar '\n') then t.dropLast else t
  match body with
  | hyphen :: number =>
    let rest := number.dropWhile isDigit
    hyphen = '-' && match rest with
      | [] => !number.isEmpty
      | point :: fraction => point = '.' && !fraction.isEmpty && fraction.all isDigit
  | [] => false

/-- The name and the value of a word with an equals sign. -/
def cut (t : Text) : Text × Option Text :=
  match t.split? '=' with
  | some (name, value) => (name, some value)
  | none => (t, none)

/-- The word for a text that begins with two hyphens and is no full name. -/
def ofLong (t : Text) : Except ArgumentError Word :=
  let (start, attached) := cut t
  match Switch.names.filter fun e => start.isPrefixOf e.1 with
  | [] => .ok (if t.contains (CodePoint.ofChar ' ') then plain t else stray t)
  | [(_, s)] => .ok (switch s false attached)
  | names => .error (.ambiguous t (names.map (·.1)))

/-- The word for a text that begins with one hyphen and is no full name. -/
def ofShort (t : Text) : Word :=
  match Switch.ofName? (t.take 2) with
  | some s => switch s true (some (t.drop 2))
  | none => if isNegativeNumber t || t.contains (CodePoint.ofChar ' ') then plain t else stray t

/-- Whether a text begins with a hyphen and has more behind it. -/
def looksLikeSwitch (t : Text) : Bool :=
  t.head? = some (CodePoint.ofChar '-') && !t.tail.isEmpty

/-- Whether a name has a single hyphen. -/
def isShort (t : Text) : Bool := t.tail.head? ≠ some (CodePoint.ofChar '-')

/-- What a text in front of the end of the options is. -/
def ofText (t : Text) : Except ArgumentError Word :=
  if !looksLikeSwitch t then .ok (plain t)
  else
    match Switch.ofName? t with
    | some s => .ok (switch s (isShort t) none)
    | none =>
      match cut t with
      | (name, some attached) =>
        match Switch.ofName? name with
        | some s => .ok (switch s (isShort t) (some attached))
        | none => if isShort t then .ok (ofShort t) else ofLong t
      | _ => if isShort t then .ok (ofShort t) else ofLong t

end Word

/-- The words in front of the end of the options, and the texts behind it if it is there. -/
def splitWords : List Text → Except ArgumentError (List Word × Option (List Text))
  | [] => .ok ([], none)
  | t :: rest =>
    if t = "--" then .ok ([], some rest)
    else do
      let word ← Word.ofText t
      let (words, others) ← splitWords rest
      return (word :: words, others)

/-! ## Options -/

/-- Why reading stops. -/
inductive Stop where
  | error (error : ArgumentError)
  | help
deriving DecidableEq

/-- The format that a value names. -/
def TreeFormat.ofName? (name : Text) : Option TreeFormat :=
  if name = "json" then some json else if name = "yaml" then some yaml else none

/-- What is kept of the value of an option. -/
def keptValue (t : Text) : Option Text := if t = "--" then none else some t

/-- The count that a value asks for. -/
def Arguments.withCount (value : Text) (a : Arguments) : Except Stop Arguments :=
  match keptValue value with
  | none => .ok { a with count := none }
  | some t =>
    match Numeral.integer 10 t with
    | .ok n => .ok { a with count := some n }
    | .error _ => .error (.error (.notAnInteger .count t))

/-- The tree in the format that a value asks for. -/
def Arguments.withAst (value : Text) (a : Arguments) : Except Stop Arguments := do
  let format ← match keptValue value with
    | none => pure none
    | some t =>
      match TreeFormat.ofName? t with
      | some format => pure (some format)
      | none => throw (.error (.notATreeFormat .ast t))
  if a.source then throw (.error (.conflict .ast .source))
  return { a with ast := some format }

/-- Obeys an option; an option without a value ignores `value`. -/
def Switch.obey (value : Text) (a : Arguments) : Switch → Except Stop Arguments
  | help => .error .help
  | count => a.withCount value
  | source =>
    if a.ast.isSome then .error (.error (.conflict source ast)) else .ok { a with source := true }
  | ast => a.withAst value
  | strict => .ok { a with strict := true }
  | debug => .ok { a with debug := true }

/-- The options of one word: those without a value, and the last one with its value. -/
structure Bundle where
  flags : List Switch
  last : Switch
  /-- The value of the last option; without one it may be the next word. -/
  value : Option Text
deriving DecidableEq

namespace Bundle

/-- Puts an option without a value in front. -/
def behind (s : Switch) (b : Bundle) : Bundle := { b with flags := s :: b.flags }

/-- The options of a short option and what stands behind it: its value if it has one, otherwise
letters of further options. -/
def ofLetters (s : Switch) : (letters : Text) → Except ArgumentError Bundle
  | [] => if s.takesValue then .ok ⟨[], s, some []⟩ else .error (.uselessValue s [])
  | c :: rest =>
    if s.takesValue then .ok ⟨[], s, some (c :: rest)⟩
    else
      match Switch.ofName? ['-', c], rest with
      | none, _ => .error (.uselessValue s (c :: rest))
      | some next, [] => .ok ⟨[s], next, none⟩
      | some next, d :: letters => (ofLetters next (d :: letters)).map (behind s)

/-- The options of a word. -/
def ofWord (s : Switch) (short : Bool) : Option Text → Except ArgumentError Bundle
  | none => .ok ⟨[], s, none⟩
  | some attached =>
    if short then ofLetters s attached
    else if s.takesValue then .ok ⟨[], s, some attached⟩
    else .error (.uselessValue s attached)

/-- Whether the value of the last option is the next word. -/
def awaitsValue (b : Bundle) : Bool := b.last.takesValue && b.value.isNone

/-- Obeys the options one after the other. -/
def obey (b : Bundle) (a : Arguments) : Except Stop Arguments := do
  let a ← b.flags.foldlM (fun a s => s.obey [] a) a
  b.last.obey (b.value.getD []) a

end Bundle

/-! ## The whole line -/

/-- A command line that has been read so far. -/
structure Progress where
  arguments : Arguments
  /-- Words without a meaning. -/
  extras : List Text
  /-- Whether the pattern is the word that was read last. -/
  atPattern : Bool
deriving DecidableEq

namespace Progress

/-- Takes a word that is no option and no value of one: the first is the pattern. -/
def takePlain (t : Text) (p : Progress) : Progress :=
  if p.arguments.pattern.isNone then
    ⟨{ p.arguments with pattern := some t }, p.extras, true⟩
  else ⟨p.arguments, p.extras ++ [t], false⟩

/-- Obeys the options of a word. -/
def obey (b : Bundle) (p : Progress) : Except Stop Progress := do
  return ⟨← b.obey p.arguments, p.extras, false⟩

/-- Reads the words in front of the end of the options. -/
def readWords : List Word → Progress → Except Stop Progress
  | [], p => .ok p
  | .plain t :: rest, p => readWords rest (p.takePlain t)
  | .stray t :: rest, p => readWords rest ⟨p.arguments, p.extras ++ [t], false⟩
  | .switch s short attached :: rest, p =>
    match Bundle.ofWord s short attached with
    | .error e => .error (.error e)
    | .ok bundle =>
      if bundle.awaitsValue then
        match rest with
        | .plain value :: rest => do
          readWords rest (← p.obey { bundle with value := some value })
        | _ => .error (.error (.noValue bundle.last))
      else do readWords rest (← p.obey bundle)

/-- Reads the texts behind the end of the options. The mark of the end itself is a word without a
meaning, unless the pattern stands beside it. -/
def readTexts (texts : List Text) (p : Progress) : Progress :=
  match p.arguments.pattern, texts with
  | none, [] => p
  | none, t :: rest => { p.takePlain t with extras := p.extras ++ rest }
  | some _, texts =>
    { p with extras := p.extras ++ (if p.atPattern then [] else [("--" : Text)]) ++ texts }

end Progress

/-- Reads the words of a command line. -/
def Arguments.read (texts : List Text) : Except Stop Arguments := do
  let (words, others) ← (splitWords texts).mapError .error
  let p ← Progress.readWords words ⟨.initial, [], false⟩
  let p := match others with
    | some texts => p.readTexts texts
    | none => p
  if p.extras.isEmpty then return p.arguments
  else throw (.error (.unrecognized p.extras))

end RandomText.Console
