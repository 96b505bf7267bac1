import RuleTrace.Event.Basic
import RuleTrace.Style.Basic
import RuleTrace.Text.Decimal

/-!
# Calls

A node is one call of a grammar rule. Nodes are known by their numbers: 0 is the root, which
stands for the caller of every rule that nothing else called, and the calls are numbered from 1 in
the order of their enter events.
-/

namespace RuleTrace

/-- How far a call is. -/
inductive NodeState where
  | pending
  | resolved (outcome : Outcome)
deriving DecidableEq, Repr

/-- The name of a state. -/
def NodeState.name : NodeState → Text
  | .pending => "PENDING".toList
  | .resolved .matched => "MATCHED".toList
  | .resolved .failed => "FAILED".toList

/-- A call of a rule: the path of its caller, its own rule and location, the number of its caller,
the numbers of the calls made by it that matched and that failed, in the order they ended, and the
style it was last drawn in. -/
structure Node where
  number : Nat
  path : Text
  rule : Text
  location : Location
  state : NodeState := .pending
  parent : Option Nat := none
  matched : List Nat := []
  failed : List Nat := []
  style : Option Style := none
deriving DecidableEq, Repr

namespace Node

/-- The caller of the first rules. -/
def root : Node :=
  { number := 0, path := [], rule := [], location := .origin }

/-- The path of a call. -/
def fullPath (n : Node) : Text :=
  n.path ++ n.rule

/-- The path given to the calls made by a call. -/
def childPath (n : Node) : Text :=
  n.path ++ n.rule ++ ['/']

/-- The calls made by a call that ended, those that matched first. -/
def children (n : Node) : List Nat :=
  n.matched ++ n.failed

/-- A call that ends at a location. -/
def resolve (n : Node) (outcome : Outcome) (location : Location) : Node :=
  { n with state := .resolved outcome, location := location }

/-- A call with one more call made by it that ended. -/
def addChild (n : Node) (outcome : Outcome) (child : Nat) : Node :=
  match outcome with
  | .matched => { n with matched := n.matched ++ [child] }
  | .failed => { n with failed := n.failed ++ [child] }

/-- Whether the failure of `n` adds nothing to that of `f`, which came before: `n` called the rule
that `f` is a call of, or is another call of the same rule from the same place. -/
def repeats (n f : Node) : Bool :=
  n.childPath == f.path || (n.path == f.path && n.rule == f.rule)

/-- A short description of a call. -/
def describe (n : Node) : Text :=
  "<Node #".toList ++ Decimal.digits n.number ++ ' ' :: n.fullPath ++ ' ' :: n.state.name ++ ['>']

end Node

end RuleTrace
