/-!
# Ranges of code points

A class of characters is given by the ascending, disjoint ranges of its code points.
-/

namespace RuleTrace

/-- A range of code points, both ends included. -/
structure CharRange where
  first : Nat
  last : Nat
deriving DecidableEq, Repr

namespace CharRange

/-- Whether a code point lies in one of the ranges, which are in ascending order. -/
def anyContains : List CharRange → Nat → Bool
  | [], _ => false
  | r :: rs, n => decide (r.first ≤ n) && (decide (n ≤ r.last) || anyContains rs n)

end CharRange

end RuleTrace
