import RuleTrace.Call.Forest
import RuleTrace.Call.Tree
import RuleTrace.Pattern.Basic

/-!
# Views of a call tree

A view shows the calls that ended below a node. The full view leaves out the calls whose path is
hidden and puts what they called in their place. The failure view hides nothing, but shows only
the branches that lead to the frontier, and there may be none.
-/

namespace RuleTrace

/-- What to show of a call tree. -/
inductive View where
  | full
  | failure
deriving DecidableEq, Repr

/-- Whether one of the patterns hides a call. -/
def Node.isHidden (patterns : List Pattern) (n : Node) : Bool :=
  patterns.any (·.occursIn n.fullPath)

namespace CallTree

/-- Whether a call is in the frontier. -/
def inFrontier (t : CallTree) (n : Node) : Bool :=
  t.frontier.contains n.number

/-- The calls of a list, which were made by the call `i`, with all that ended below them. Calls
have greater numbers than their callers. -/
def branches (t : CallTree) (i : Nat) : List Nat → Forest Node
  | [] => .nil
  | c :: cs =>
    if i < c ∧ c < t.nodes.length then
      .node (t.node c) (branches t c (t.node c).children) (branches t i cs)
    else branches t i cs
termination_by cs => (t.nodes.length - i, cs.length)

/-- The calls below a call that ended, as did all between them and it. -/
def below (t : CallTree) (i : Nat) : Forest Node :=
  t.branches i (t.node i).children

/-- What a view shows below a node, or nothing when the node has no place in the view. -/
def extract (t : CallTree) (patterns : List Pattern) (view : View) (i : Nat) :
    Option (Forest Node) :=
  match view with
  | .full => some ((t.below i).splice (·.isHidden patterns))
  | .failure =>
    let shown := (t.below i).prune t.inFrontier
    if shown.isEmpty && !t.inFrontier (t.node i) then none else some shown

/-- The calls of a view in pre-order. -/
def flatten (t : CallTree) (patterns : List Pattern) (view : View) : List Node :=
  match t.extract patterns view 0 with
  | some shown => Forest.walk shown.trees.reverse
  | none => []

end CallTree

end RuleTrace
