import RandomText.Expr.Basic
import RandomText.Expr.Token
import RandomText.Pattern.Position

/-!
# Reading expressions

Tokens are read onto a stack with one level for each bracket that is open. A text that is no
expression is refused at the first token that cannot follow, with the tokens that could. The brackets
that are open take frames of a call stack, which has room for so many.
-/

namespace RandomText.Expr

/-- The call stack that expressions are read on. -/
class CallStack where
  /-- The most frames that may be in use where an expression is tried. -/
  room : Nat

/-- Of a stack of a thousand frames, what callers and tokens leave. -/
instance : CallStack := ⟨980⟩

/-- What a token may be at some place, as messages name it. -/
inductive Expected where
  | string
  | integer
  | name
  | comma
  | opening (bracket : Bracket)
  | closing (bracket : Bracket)
  | finish
deriving DecidableEq

/-- Why a text is no expression. -/
inductive ReadError where
  /-- The token or place at `index` is none of the `expected`. -/
  | malformed (index : Nat) (expected : List Expected)
  /-- The call stack has no room for the brackets that are open. -/
  | nestedTooDeeply
  /-- An integer that cannot be read. -/
  | numeral (error : NumeralError)
deriving DecidableEq

namespace Expected

def text : Expected → Text
  | string => "TOK_STRING"
  | integer => "TOK_INTEGER"
  | name => "TOK_ID"
  | comma => "TOK_COMMA"
  | opening .square => "'['"
  | opening .round => "'('"
  | closing .square => "']'"
  | closing .round => "')'"
  | finish => "EOF"

/-- What an expression may begin with, in the order in which it is tried. -/
def starts : List Expected := [string, integer, opening .square, name]

end Expected

/-- The surroundings of an index on one line: up to ten code points on both sides of a star. -/
def surroundings (source : Text) (index : Nat) : Text :=
  let shown := (source.take index).drop (index - 10) ++ "*" ++ (source.drop index).take 10
  shown.flatMap fun (c : CodePoint) => if c = '\n' then " " else if c = '\r' then "" else [c]

/-- The message of a text that is refused at `index`. -/
def malformedMessage (source : Text) (index : Nat) (expected : List Expected) : Text :=
  let position : Position := ⟨[], index, source⟩
  "Malformed source: Expected " ++ Text.joined " or " (expected.map Expected.text) ++
    " at position (" ++ Numeral.digits position.line ++ ", " ++ Numeral.digits position.column ++
    ") => '" ++ surroundings source index ++ "'."

/-- A bracket that is open: where its expression begins, the name of its call unless it is a list,
and the expressions read inside, latest first. -/
structure Level where
  index : Nat
  function : Option Text
  latest : List Expr

namespace Level

def bracket (level : Level) : Bracket := if level.function.isSome then .round else .square

/-- The expression of a level that is closed. -/
def close (level : Level) : Expr :=
  match level.function with
  | some name => .call level.index name level.latest.reverse
  | none => .list level.index level.latest.reverse

end Level

/-- What was read last, and with it what may follow. -/
inductive Phase where
  /-- Nothing, or a comma: an expression follows. -/
  | start
  /-- An opening bracket: an expression or its closing bracket follows. -/
  | opened
  /-- A name: the bracket of its arguments follows. -/
  | named (index : Nat) (name : Text)
  /-- An expression: a comma or a closing bracket follows, or the end. -/
  | item

/-- The open levels, the innermost first, the phase, and the expression outside of all brackets. -/
structure Progress where
  levels : List Level
  phase : Phase
  whole : Option Expr

namespace Progress

def start : Progress := ⟨[], .start, none⟩

/-- What may follow. -/
def expected (p : Progress) : List Expected :=
  match p.phase, p.levels with
  | .start, _ => Expected.starts
  | .opened, level :: _ => Expected.starts ++ [.closing level.bracket]
  | .opened, [] => Expected.starts
  | .named _ _, _ => [.opening .round]
  | .item, level :: _ => [.comma, .closing level.bracket]
  | .item, [] => [.finish]

/-- Adds an expression that is complete. -/
def add (e : Expr) (p : Progress) : Progress :=
  match p.levels with
  | [] => ⟨[], .item, some e⟩
  | level :: below => ⟨{ level with latest := e :: level.latest } :: below, .item, p.whole⟩

/-- Opens a bracket. -/
def enter (index : Nat) (function : Option Text) (p : Progress) : Progress :=
  ⟨⟨index, function, []⟩ :: p.levels, .opened, p.whole⟩

/-- A token where an expression begins, if it may begin one. -/
def begin? (lexeme : Lexeme) (p : Progress) : Option Progress :=
  match lexeme.token with
  | .string value => some (p.add (.string lexeme.index value))
  | .integer digits => some (p.add (.integer lexeme.index (Numeral.value digits)))
  | .name text => some { p with phase := .named lexeme.index text }
  | .opening .square => some (p.enter lexeme.index none)
  | _ => none

/-- A token that closes the innermost bracket, if it does. -/
def close? (token : Token) (p : Progress) : Option Progress :=
  match p.levels with
  | level :: below =>
    if token = .closing level.bracket then some (add level.close ⟨below, .item, p.whole⟩) else none
  | [] => none

/-- The progress after one more token, if the token may follow. -/
def step? (lexeme : Lexeme) (p : Progress) : Option Progress :=
  match p.phase with
  | .start => p.begin? lexeme
  | .opened => (p.begin? lexeme).or (p.close? lexeme.token)
  | .named index name =>
    if lexeme.token = .opening .round then some (p.enter index (some name)) else none
  | .item =>
    match p.levels with
    | [] => none
    | _ :: _ =>
      if lexeme.token = .comma then some { p with phase := .start } else p.close? lexeme.token

/-- The frames in use where the next expression of the innermost level is tried. Every open bracket
takes eight, and behind a comma an expression stands four deeper. -/
def frames : List Level → Nat
  | [] => 0
  | level :: below => frames below + 8 + (if level.latest.isEmpty then 0 else 4)

/-- The frames in use before the next token. -/
def used (p : Progress) : Nat :=
  match p.phase with
  | .start => frames p.levels
  | .opened => frames p.levels
  | _ => 0

variable [CallStack]

/-- Reads the tokens up to `stop`, where the text ends or no token begins. -/
def run (stop : Nat) (complete : Bool) (p : Progress) : List Lexeme → Except ReadError Expr
  | [] =>
    match complete, p.phase, p.levels, p.whole with
    | true, .item, [], some e => .ok e
    | _, _, _, _ => .error (.malformed stop p.expected)
  | lexeme :: rest =>
    match p.step? lexeme with
    | none => .error (.malformed lexeme.index p.expected)
    | some next =>
      if CallStack.room < next.used then .error .nestedTooDeeply
      else run stop complete next rest

end Progress

/-- The first integer that has too many digits to be read. -/
def checkNumerals : List Lexeme → Except ReadError Unit
  | [] => .ok ()
  | ⟨_, .integer digits⟩ :: rest =>
    if Numeral.maxDigits < digits.length then .error (.numeral (.tooLongToRead digits.length))
    else checkNumerals rest
  | _ :: rest => checkNumerals rest

/-- The expression that a text spells. -/
def read [CallStack] (source : Text) : Except ReadError Expr := do
  let lexed := Token.lex 0 source
  let e ← Progress.start.run lexed.stop lexed.complete lexed.lexemes
  checkNumerals lexed.lexemes
  return e

end RandomText.Expr
