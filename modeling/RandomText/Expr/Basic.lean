import RandomText.Text.Numeral

/-!
# Expressions

The expressions of the small language that patterns are lowered to, each with the index at which
its text begins.
-/

namespace RandomText

inductive Expr where
  | string (index : Nat) (value : Text)
  | integer (index : Nat) (value : Nat)
  | list (index : Nat) (items : List Expr)
  | call (index : Nat) (name : Text) (args : List Expr)

namespace Expr

def index : Expr → Nat
  | string index _ => index
  | integer index _ => index
  | list index _ => index
  | call index _ _ => index

end Expr

end RandomText
