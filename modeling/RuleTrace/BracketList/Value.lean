import RuleTrace.Text.Decimal

/-!
# Nested lists

The values of the list language: integers, and lists of values between brackets.
-/

namespace RuleTrace.BracketList

/-- An integer or a list of values. -/
inductive Value where
  | int (i : Int)
  | list (items : List Value)
deriving Repr

mutual

/-- A value as text. -/
def Value.print : Value → Text
  | .int i => Decimal.ofInt i
  | .list [] => "[]".toList
  | .list (v :: vs) => '[' :: v.print ++ printRest vs

/-- The items of a list after the first one, each after a comma and a blank, and the closing
bracket. -/
def Value.printRest : List Value → Text
  | [] => [']']
  | v :: vs => ',' :: ' ' :: v.print ++ printRest vs

end

end RuleTrace.BracketList
