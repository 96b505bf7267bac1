/-!
# Forests

A forest is a list of trees. It is either empty, or has a first tree, with a label and a forest
below it, and the trees after that one.

* `Forest.walk_trees`: the walk along a stack of trees lists a forest in pre-order.
-/

namespace RuleTrace

/-- Trees in order, labels at their nodes. -/
inductive Forest (α : Type) where
  | nil
  | node (label : α) (below after : Forest α)
deriving DecidableEq, Repr

namespace Forest

variable {α : Type}

/-- The trees of one forest followed by those of another. -/
def append : Forest α → Forest α → Forest α
  | .nil, g => g
  | .node a below after, g => .node a below (after.append g)

/-- Whether there is no tree. -/
def isEmpty : Forest α → Bool
  | .nil => true
  | .node .. => false

/-- The labels, each before those below it. -/
def preorder : Forest α → List α
  | .nil => []
  | .node a below after => a :: (below.preorder ++ after.preorder)

/-- The forest without the nodes that a test holds for; what is below such a node takes its
place. -/
def splice (hidden : α → Bool) : Forest α → Forest α
  | .nil => .nil
  | .node a below after =>
    if hidden a then (below.splice hidden).append (after.splice hidden)
    else .node a (below.splice hidden) (after.splice hidden)

/-- The branches of a forest that lead to a node that a test holds for. -/
def prune (wanted : α → Bool) : Forest α → Forest α
  | .nil => .nil
  | .node a below after =>
    let below := below.prune wanted
    if below.isEmpty && !wanted a then after.prune wanted
    else .node a below (after.prune wanted)

/-- The count of nodes. -/
def size : Forest α → Nat
  | .nil => 0
  | .node _ below after => below.size + after.size + 1

/-- The trees one by one: the label of each and what is below it. -/
def trees : Forest α → List (α × Forest α)
  | .nil => []
  | .node a below after => (a, below) :: after.trees

/-- The count of nodes of a list of trees. -/
def treesSize : List (α × Forest α) → Nat
  | [] => 0
  | (_, below) :: ts => below.size + 1 + treesSize ts

theorem treesSize_trees (f : Forest α) : treesSize f.trees = f.size := by
  induction f with
  | nil => rfl
  | node a below after _ ih =>
    rw [trees, treesSize, size, ih]
    omega

theorem treesSize_append (l m : List (α × Forest α)) :
    treesSize (l ++ m) = treesSize l + treesSize m := by
  induction l with
  | nil => simp [treesSize]
  | cons t l ih =>
    rw [List.cons_append, treesSize, treesSize, ih]
    omega

theorem treesSize_reverse (l : List (α × Forest α)) : treesSize l.reverse = treesSize l := by
  induction l with
  | nil => rfl
  | cons t l ih =>
    rw [List.reverse_cons, treesSize_append, ih]
    simp only [treesSize]
    omega

/-- Lists the labels of a stack of trees, whose top is at the end. The tree at the top gives its
label and is replaced by the trees below it, the first of them on the top. -/
def walk (stack : List (α × Forest α)) : List α :=
  match _h : stack.getLast? with
  | none => []
  | some (a, below) => a :: walk (stack.dropLast ++ below.trees.reverse)
termination_by treesSize stack
decreasing_by
  obtain ⟨rest, rfl⟩ := List.getLast?_eq_some_iff.1 _h
  rw [List.dropLast_concat, treesSize_append, treesSize_append, treesSize_reverse,
    treesSize_trees]
  simp [treesSize]

/-- A forest is listed tree by tree. -/
theorem preorder_eq_flatMap (f : Forest α) :
    f.preorder = f.trees.flatMap fun t => t.1 :: t.2.preorder := by
  induction f with
  | nil => rfl
  | node a below after _ ih => simp [preorder, trees, ih]

theorem walk_eq_flatMap (stack : List (α × Forest α)) :
    walk stack = stack.reverse.flatMap fun t => t.1 :: t.2.preorder := by
  fun_induction walk stack with
  | case1 stack h =>
    rw [List.getLast?_eq_none_iff.1 h]
    rfl
  | case2 stack a below h ih =>
    obtain ⟨rest, rfl⟩ := List.getLast?_eq_some_iff.1 h
    rw [List.dropLast_concat] at ih ⊢
    simp [ih, preorder_eq_flatMap below]

/-- The walk lists a forest in pre-order. -/
theorem walk_trees (f : Forest α) : walk f.trees.reverse = f.preorder := by
  rw [walk_eq_flatMap, List.reverse_reverse, ← preorder_eq_flatMap]

end Forest

end RuleTrace
