import Mathlib.Data.List.Chain
import RandomText.Expr.Reader

/-!
# Renderings of expressions

The written form of the expression language, stated apart from its reader. A tree has lexemes
(`HasLexemes`): the tokens of its nodes in order, each node standing at the index of its first one.
Lexemes have texts (`Written`): each token in one of its spellings at its index, with any blanks
before, between and behind them. A text renders a tree if it is a text of lexemes of the tree.

`HasLexemes.unique` says that lexemes belong to one tree only, even with more lexemes behind them.
-/

namespace RandomText.Expr

/-! ### Spellings -/

/-- The units of the body of a string and the code points that they stand for: a unit is a code
point other than quote and backslash, or a backslash with any code point behind it. -/
inductive Unescapes : Text → Text → Prop where
  | nil : Unescapes [] []
  | plain {c : CodePoint} {body value : Text} : c ≠ '"' → c ≠ '\\' → Unescapes body value →
      Unescapes (c :: body) (c :: value)
  | escaped {c : CodePoint} {body value : Text} : Unescapes body value →
      Unescapes ('\\' :: c :: body) (c :: value)

/-- The texts that spell a token. -/
inductive Token.Spelt : Token → Text → Prop where
  | string {body value : Text} : Unescapes body value →
      Spelt (.string value) ('"' :: (body ++ [CodePoint.ofChar '"']))
  | integer {c : CodePoint} {digits : Text} : c.isDigit = true → (∀ d ∈ digits, d.isDigit = true) →
      Spelt (.integer (c :: digits)) (c :: digits)
  | name {c : CodePoint} {part : Text} : Token.isNameStart c = true →
      (∀ d ∈ part, Token.isNamePart d = true) → Spelt (.name (c :: part)) (c :: part)
  | openSquare : Spelt (.opening .square) ['[']
  | closeSquare : Spelt (.closing .square) [']']
  | openRound : Spelt (.opening .round) ['(']
  | closeRound : Spelt (.closing .round) [')']
  | comma : Spelt .comma [',']

/-- A run of tabs, line feeds, carriage returns and spaces. -/
def IsGap (t : Text) : Prop := ∀ c ∈ t, Token.isBlank c = true

/-- The texts of a list of lexemes, for a text that begins at the given index. -/
inductive Written : Nat → List Lexeme → Text → Prop where
  | nil {i : Nat} {gap : Text} : IsGap gap → Written i [] gap
  | cons {i : Nat} {gap word t : Text} {lexeme : Lexeme} {rest : List Lexeme} :
      IsGap gap → lexeme.index = i + gap.length → lexeme.token.Spelt word →
      Written (lexeme.index + word.length) rest t → Written i (lexeme :: rest) (gap ++ (word ++ t))

/-! ### Lexemes of a tree -/

mutual

/-- The lexemes of an expression. -/
inductive HasLexemes : Expr → List Lexeme → Prop where
  | string {i : Nat} {value : Text} : HasLexemes (.string i value) [⟨i, .string value⟩]
  | integer {i : Nat} {digits : Text} :
      HasLexemes (.integer i (Numeral.value digits)) [⟨i, .integer digits⟩]
  | list {i j : Nat} {items : List Expr} {inner : List Lexeme} : ItemsHaveLexemes items inner →
      HasLexemes (.list i items) (⟨i, .opening .square⟩ :: (inner ++ [⟨j, .closing .square⟩]))
  | call {i j k : Nat} {name : Text} {args : List Expr} {inner : List Lexeme} :
      ItemsHaveLexemes args inner →
      HasLexemes (.call i name args)
        (⟨i, .name name⟩ :: ⟨j, .opening .round⟩ :: (inner ++ [⟨k, .closing .round⟩]))

/-- The lexemes of expressions with commas between them. -/
inductive ItemsHaveLexemes : List Expr → List Lexeme → Prop where
  | nil : ItemsHaveLexemes [] []
  | one {e : Expr} {ls : List Lexeme} : HasLexemes e ls → ItemsHaveLexemes [e] ls
  | more {j : Nat} {e : Expr} {ls others : List Lexeme} {rest : List Expr} : rest ≠ [] →
      HasLexemes e ls → ItemsHaveLexemes rest others →
      ItemsHaveLexemes (e :: rest) (ls ++ ⟨j, .comma⟩ :: others)

end

/-- The text, which begins at index `i`, renders the expression. -/
def RendersAt (i : Nat) (t : Text) (e : Expr) : Prop := ∃ ls, HasLexemes e ls ∧ Written i ls t

/-- The whole text renders the expression. -/
def Renders (source : Text) (e : Expr) : Prop := RendersAt 0 source e

/-! ### Nodes -/

mutual

/-- An expression and all expressions in it. -/
def nodes : Expr → List Expr
  | string i value => [string i value]
  | integer i value => [integer i value]
  | list i items => list i items :: nodesAll items
  | call i name args => call i name args :: nodesAll args

def nodesAll : List Expr → List Expr
  | [] => []
  | e :: rest => nodes e ++ nodesAll rest

end

mutual

/-- The most brackets that are open at once in the text of an expression. -/
def depth : Expr → Nat
  | string _ _ => 0
  | integer _ _ => 0
  | list _ items => depthAll items + 1
  | call _ _ args => depthAll args + 1

def depthAll : List Expr → Nat
  | [] => 0
  | e :: rest => max (depth e) (depthAll rest)

end

mutual

/-- The frames that reading the text of an expression takes. -/
def frames : Expr → Nat
  | string _ _ => 0
  | integer _ _ => 0
  | list _ items => 8 + framesFirst items
  | call _ _ args => 8 + framesFirst args

/-- The frames that the expressions in a bracket take. -/
def framesFirst : List Expr → Nat
  | [] => 0
  | e :: rest => max (frames e) (framesRest rest)

/-- The frames that expressions behind a comma take, which stand four deeper. -/
def framesRest : List Expr → Nat
  | [] => 0
  | e :: rest => max (4 + frames e) (framesRest rest)

end

/-- A token that an expression may begin with. -/
def Token.begins : Token → Bool
  | closing _ => false
  | comma => false
  | _ => true

/-- A token that would run on into digits or letters behind it. -/
def Token.isWord : Token → Bool
  | integer _ => true
  | name _ => true
  | _ => false

theorem HasLexemes.head {e : Expr} {ls : List Lexeme} (h : HasLexemes e ls) :
    ∃ token rest, ls = ⟨e.index, token⟩ :: rest ∧ token.begins = true := by
  cases h with
  | string => exact ⟨_, _, rfl, rfl⟩
  | integer => exact ⟨_, _, rfl, rfl⟩
  | list => exact ⟨_, _, rfl, rfl⟩
  | call => exact ⟨_, _, rfl, rfl⟩

/-! ### One tree for each list of lexemes -/

theorem itemsHaveLexemes_nil_of_closing {es : List Expr} {ls r r' : List Lexeme} {j : Nat}
    {b : Bracket} (h : ItemsHaveLexemes es ls) (heq : ⟨j, .closing b⟩ :: r = ls ++ r') :
    es = [] ∧ ls = [] := by
  have hfalse : ∀ {e : Expr} {front back : List Lexeme}, HasLexemes e front →
      ⟨j, .closing b⟩ :: r = front ++ back → False := by
    intro e front back hfront hback
    obtain ⟨token, rest, rfl, hbegins⟩ := hfront.head
    obtain ⟨hhead, -⟩ := List.cons.inj hback
    rw [← (Lexeme.mk.inj hhead).2] at hbegins
    simp [Token.begins] at hbegins
  cases h with
  | nil => exact ⟨rfl, rfl⟩
  | one hone => exact (hfalse hone heq).elim
  | more _ hfirst _ => exact (hfalse hfirst (by rw [heq, List.append_assoc])).elim

mutual

theorem HasLexemes.unique {e : Expr} {ls : List Lexeme} :
    HasLexemes e ls → ∀ {e' : Expr} {ls' r r' : List Lexeme}, HasLexemes e' ls' →
      ls ++ r = ls' ++ r' → e = e' ∧ r = r'
  | .string, _, _, _, _, h', heq => by
    cases h' <;> simp_all
  | .integer, _, _, _, _, h', heq => by
    cases h' <;> simp_all
  | .list hitems, _, _, _, _, h', heq => by
    cases h' with
    | list hitems' =>
      simp only [List.cons_append, List.append_assoc, List.cons.injEq, Lexeme.mk.injEq, and_true,
        List.nil_append] at heq
      obtain ⟨rfl, heq⟩ := heq
      obtain ⟨rfl, hrest⟩ := hitems.unique hitems' heq
      exact ⟨rfl, hrest⟩
    | _ => simp at heq
  | .call hargs, _, _, _, _, h', heq => by
    cases h' with
    | call hargs' =>
      simp only [List.cons_append, List.append_assoc, List.cons.injEq, Lexeme.mk.injEq, and_true,
        List.nil_append, Token.name.injEq] at heq
      obtain ⟨⟨rfl, rfl⟩, rfl, heq⟩ := heq
      obtain ⟨rfl, hrest⟩ := hargs.unique hargs' heq
      exact ⟨rfl, hrest⟩
    | _ => simp at heq

theorem ItemsHaveLexemes.unique {es : List Expr} {ls : List Lexeme} :
    ItemsHaveLexemes es ls → ∀ {es' : List Expr} {ls' r r' : List Lexeme} {j j' : Nat}
      {b b' : Bracket}, ItemsHaveLexemes es' ls' →
      ls ++ ⟨j, .closing b⟩ :: r = ls' ++ ⟨j', .closing b'⟩ :: r' → es = es' ∧ r = r'
  | .nil, _, _, _, _, _, _, _, _, h', heq => by
    obtain ⟨rfl, rfl⟩ := itemsHaveLexemes_nil_of_closing h' heq
    exact ⟨rfl, (List.cons.inj heq).2⟩
  | .one hone, _, _, _, _, _, _, _, _, h', heq => by
    cases h' with
    | nil => exact absurd (itemsHaveLexemes_nil_of_closing (.one hone) heq.symm).1 (by simp)
    | one hone' =>
      obtain ⟨rfl, hrest⟩ := hone.unique hone' heq
      exact ⟨rfl, (List.cons.inj hrest).2⟩
    | more _ hfirst' _ =>
      rw [List.append_assoc] at heq
      obtain ⟨-, hrest⟩ := hone.unique hfirst' heq
      simp at hrest
  | .more hne hfirst hothers, _, _, _, _, _, _, _, _, h', heq => by
    rw [List.append_assoc] at heq
    cases h' with
    | nil =>
      have hnil := itemsHaveLexemes_nil_of_closing (.one hfirst) heq.symm
      simp at hnil
    | one hone' =>
      obtain ⟨-, hrest⟩ := hfirst.unique hone' heq
      simp at hrest
    | more _ hfirst' hothers' =>
      rw [List.append_assoc] at heq
      obtain ⟨rfl, hrest⟩ := hfirst.unique hfirst' heq
      obtain ⟨rfl, hrest⟩ := hothers.unique hothers' (List.cons.inj hrest).2
      exact ⟨rfl, hrest⟩

end

end RandomText.Expr
