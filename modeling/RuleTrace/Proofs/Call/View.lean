import RuleTrace.Proofs.Call.Descendants
import RuleTrace.Proofs.Call.Frontier

/-!
# What the views show

Both views are made from the forest below a call. They are compared here with the plain list of the
calls below it (`CallTree.descendants`): what a view shows is a filter of that list.

* `Session.full_view_run`: the full view drops the hidden calls and links every other one to its
  nearest caller that is left.
* `WellFormed.preorder_failure`, `WellFormed.extract_failure_eq_none_iff`,
  `WellFormed.flatten_failure`: the failure view keeps the members of the frontier and what leads
  to them.
* `WellFormed.extract_eq`: a view of a call is put together from the views of its children.
-/

namespace RuleTrace

namespace CallTree

/-- Whether the full view has a place for a call. -/
def isVisible (t : CallTree) (patterns : List Pattern) (i : Nat) : Bool :=
  !(t.node i).isHidden patterns

/-- The nearest caller of the call `d` below the call `n` that is not hidden; `n` when there is
none. -/
def visibleCaller (t : CallTree) (patterns : List Pattern) (n d : Nat) : Nat :=
  (((t.ancestors d).takeWhile (· ≠ n)).find? (t.isVisible patterns)).getD n

/-- Whether the call `d` is in the frontier, or has a member of it below it among the calls shown
below the call `n`. -/
def LeadsToFrontier (t : CallTree) (n d : Nat) : Prop :=
  d ∈ t.frontier ∨ ∃ f ∈ t.descendants n, f ∈ t.frontier ∧ d ∈ t.ancestors f

instance (t : CallTree) (n d : Nat) : Decidable (t.LeadsToFrontier n d) :=
  inferInstanceAs (Decidable (_ ∨ _))

/-- The view of a child in front of those of the children after it: nothing, the calls in the place
of a hidden one, or the child itself with what its view shows. -/
def viewChild (t : CallTree) (patterns : List Pattern) (view : View) (c : Nat)
    (after : Forest Node) : Forest Node :=
  match t.extract patterns view c with
  | none => after
  | some shown =>
    if view = .full ∧ (t.node c).isHidden patterns = true then shown.append after
    else .node (t.node c) shown after

section
variable {t : CallTree}

theorem extract_failure (patterns : List Pattern) (n : Nat) :
    t.extract patterns .failure n =
      if ((t.below n).prune t.inFrontier).isEmpty && !t.inFrontier (t.node n) then none
      else some ((t.below n).prune t.inFrontier) := rfl

theorem extract_failure_eq_some {patterns : List Pattern} {n : Nat} {shown : Forest Node}
    (hs : t.extract patterns .failure n = some shown) : shown = (t.below n).prune t.inFrontier := by
  rw [extract_failure] at hs
  split at hs
  · cases hs
  · exact (Option.some.inj hs).symm

namespace WellFormed

variable (h : t.WellFormed)
include h

theorem inFrontier_node {i : Nat} (hi : i < t.nodes.length) :
    t.inFrontier (t.node i) = decide (i ∈ t.frontier) := by
  rw [inFrontier, h.number i hi, List.contains_eq_mem]

theorem lt_of_mem_descendants {i d : Nat} (hi : i < t.nodes.length) (hd : d ∈ t.descendants i) :
    d < t.nodes.length := by
  cases (h.mem_descendants_iff hi).1 hd with
  | single hc => exact lt_of_parent hc.1
  | tail _ hc => exact lt_of_parent hc.1

/-! ## The full view -/

section
variable (patterns : List Pattern) {n : Nat} (hn : n < t.nodes.length)
include hn

theorem preorder_full :
    ((t.below n).splice (·.isHidden patterns)).preorder =
      ((t.descendants n).filter (t.isVisible patterns)).map t.node := by
  rw [Forest.preorder_splice, h.preorder_below hn, List.filter_map]
  rfl

theorem links_full :
    ((t.below n).splice (·.isHidden patterns)).links (t.node n) =
      ((t.descendants n).filter (t.isVisible patterns)).map fun d =>
        (t.node (t.visibleCaller patterns n d), t.node d) := by
  rw [Forest.links_splice, h.sites_below hn, List.filter_map, List.map_map]
  refine List.map_congr_left fun d _ => ?_
  simp only [Function.comp_apply, Forest.visibleAbove, List.find?_map, Option.getD_map]
  rfl

end

theorem flatten_full (patterns : List Pattern) :
    t.flatten patterns .full =
      ((t.descendants 0).filter (t.isVisible patterns)).map t.node := by
  rw [← h.preorder_full patterns h.nonempty]
  exact Forest.walk_trees _

/-! ## The failure view -/

section
variable {n : Nat} (hn : n < t.nodes.length)
include hn

theorem any_inFrontier_below :
    (t.below n).preorder.any t.inFrontier = decide (∃ f ∈ t.descendants n, f ∈ t.frontier) := by
  rw [h.preorder_below hn, List.any_map, Bool.eq_iff_iff, List.any_eq_true, decide_eq_true_eq]
  refine exists_congr fun f => and_congr_right fun hf => ?_
  rw [Function.comp_apply, h.inFrontier_node (h.lt_of_mem_descendants hn hf), decide_eq_true_eq]

theorem preorder_failure :
    ((t.below n).prune t.inFrontier).preorder =
      ((t.descendants n).filter fun d => t.LeadsToFrontier n d).map t.node := by
  rw [Forest.preorder_prune _ _ [], h.sites_below hn, List.filter_map, List.map_map]
  refine congrArg (List.map t.node) (List.filter_congr fun d hd => ?_)
  have hlt := h.lt_of_mem_descendants hn hd
  have hbelow := (h.mem_descendants_iff hn).1 hd
  simp only [Function.comp_apply, h.inFrontier_node hlt, h.any_inFrontier_below hlt]
  rw [← Bool.decide_or, decide_eq_decide, LeadsToFrontier]
  refine or_congr_right (exists_congr fun f => ?_)
  rw [h.mem_descendants_iff hlt, h.mem_descendants_iff hn,
    h.endedBelow_iff_mem_ancestors hbelow, and_assoc, and_comm (a := d ∈ t.ancestors f)]

theorem isEmpty_failure :
    ((t.below n).prune t.inFrontier).isEmpty = true ↔ ∀ f ∈ t.descendants n, f ∉ t.frontier := by
  rw [Forest.isEmpty_prune, h.any_inFrontier_below hn]
  simp

theorem extract_failure_eq_none_iff (patterns : List Pattern) :
    t.extract patterns .failure n = none ↔
      n ∉ t.frontier ∧ ∀ f ∈ t.descendants n, f ∉ t.frontier := by
  rw [← h.isEmpty_failure hn, extract_failure, h.inFrontier_node hn]
  cases ((t.below n).prune t.inFrontier).isEmpty <;> simp

end

theorem flatten_failure (patterns : List Pattern) :
    t.flatten patterns .failure =
      ((t.descendants 0).filter fun d => t.LeadsToFrontier 0 d).map t.node := by
  rw [flatten]
  split
  · next shown hs =>
    rw [Forest.walk_trees, extract_failure_eq_some hs, h.preorder_failure h.nonempty]
  · next hs =>
    rw [← h.preorder_failure h.nonempty]
    have hempty := (h.isEmpty_failure h.nonempty).2
      ((h.extract_failure_eq_none_iff h.nonempty patterns).1 hs).2
    rw [Forest.isEmpty_eq_preorder, List.isEmpty_iff] at hempty
    rw [hempty]

/-! ## Views from views of children -/

section
variable (patterns : List Pattern) {n : Nat} (hn : n < t.nodes.length) {cs : List Nat}
include hn

theorem splice_branches (hcs : ∀ c ∈ cs, c ∈ (t.node n).children) :
    (t.branches n cs).splice (·.isHidden patterns) =
      cs.foldr (t.viewChild patterns .full) .nil := by
  induction cs with
  | nil => rw [branches]; rfl
  | cons c cs ih =>
    have ih := ih fun c' hc' => hcs c' (List.mem_cons_of_mem _ hc')
    rw [h.branches_cons hn (hcs c List.mem_cons_self), Forest.splice, ih]
    simp only [List.foldr_cons, viewChild, extract, true_and]

theorem prune_branches (hcs : ∀ c ∈ cs, c ∈ (t.node n).children) :
    (t.branches n cs).prune t.inFrontier = cs.foldr (t.viewChild patterns .failure) .nil := by
  induction cs with
  | nil => rw [branches]; rfl
  | cons c cs ih =>
    have ih := ih fun c' hc' => hcs c' (List.mem_cons_of_mem _ hc')
    rw [h.branches_cons hn (hcs c List.mem_cons_self), Forest.prune, ih, List.foldr_cons, viewChild,
      extract_failure]
    split <;> simp

/-- A view is put together from the views of the children. -/
theorem extract_eq (view : View) :
    t.extract patterns view n =
      let shown := (t.node n).children.foldr (t.viewChild patterns view) .nil
      if view = .failure ∧ shown.isEmpty = true ∧ n ∉ t.frontier then none else some shown := by
  cases view with
  | full => simp [extract, below, h.splice_branches patterns hn fun _ hc => hc]
  | failure =>
    rw [extract_failure, h.inFrontier_node hn, below,
      h.prune_branches patterns hn fun _ hc => hc]
    simp

end

end WellFormed

end

end CallTree

namespace Session

/-- After every run, the calls shown below a call come in pre-order and are those that a chain of
ended calls leads to, each once. The full view has the ones that are not hidden, in the same order,
each linked to its nearest caller that is not hidden, and is listed so from the root. -/
theorem full_view_run (calls : List TreeCall) :
    let t := (run calls).tree
    (∀ n < t.nodes.length,
      (t.descendants n = (t.node n).children.flatMap fun c => c :: t.descendants c) ∧
      (∀ d, d ∈ t.descendants n ↔ t.EndedBelow n d) ∧
      (t.descendants n).Nodup ∧
      ∀ patterns, ∃ shown, t.extract patterns .full n = some shown ∧
        shown.preorder = ((t.descendants n).filter (t.isVisible patterns)).map t.node ∧
        shown.links (t.node n) = ((t.descendants n).filter (t.isVisible patterns)).map fun d =>
          (t.node (t.visibleCaller patterns n d), t.node d)) ∧
    ∀ patterns, t.flatten patterns .full =
      ((t.descendants 0).filter (t.isVisible patterns)).map t.node := by
  intro t
  have h : t.WellFormed := (run_inv calls).1.toWellFormed
  refine ⟨fun n hn => ⟨h.descendants_eq hn, fun d => h.mem_descendants_iff hn,
    h.nodup_descendants hn, fun patterns => ?_⟩, h.flatten_full⟩
  exact ⟨_, rfl, h.preorder_full patterns hn, h.links_full patterns hn⟩

/-- Calls of `a`, of `b` by it, and of `c` by that one, all ended. -/
def nestedCalls : List TreeCall :=
  [.enter ['a'] .origin, .enter ['b'] .origin, .enter ['c'] .origin,
    .leave .failed ['c'] .origin, .leave .matched ['b'] .origin, .leave .matched ['a'] .origin]

/-- Below the call of `a`, the full view has that of `c` in the place of the one of `b`, which is
hidden. -/
theorem full_view_run_nestedCalls :
    let t := (run nestedCalls).tree
    let patterns : List Pattern := [⟨['b', '$'], .seq (.chars (.single 'b')) (.anchor .lineStop)⟩]
    1 < t.nodes.length ∧ t.descendants 1 = [2, 3] ∧
      ∃ shown, t.extract patterns .full 1 = some shown ∧ shown.preorder = [t.node 3] ∧
        shown.links (t.node 1) = [(t.node 1, t.node 3)] := by
  intro t patterns
  have h := (full_view_run nestedCalls).1
  have h3 : t.descendants 3 = [] := (h 3 (by decide)).1
  have h2 : t.descendants 2 = [3] := by
    have h2 := (h 2 (by decide)).1
    rw [show ((run nestedCalls).tree.node 2).children = [3] by decide] at h2
    rw [h2, List.flatMap_singleton, h3]
  have h1 : t.descendants 1 = [2, 3] := by
    have h1 := (h 1 (by decide)).1
    rw [show ((run nestedCalls).tree.node 1).children = [2] by decide] at h1
    rw [h1, List.flatMap_singleton, h2]
  obtain ⟨shown, hs, hpre, hlinks⟩ := (h 1 (by decide)).2.2.2 patterns
  have hvis : (t.descendants 1).filter (t.isVisible patterns) = [3] := by
    rw [h1]
    decide
  have hup : t.ancestors 3 = [2, 1] := by
    rw [CallTree.ancestors_of_caller (p := 2) (by decide) (by decide),
      CallTree.ancestors_of_caller (p := 1) (by decide) (by decide),
      CallTree.ancestors_of_caller_eq_zero (by decide)]
  have hcaller : t.visibleCaller patterns 1 3 = 1 := by
    rw [CallTree.visibleCaller, hup]
    decide
  refine ⟨by decide, h1, shown, hs, ?_, ?_⟩
  · rw [hpre, hvis, List.map_singleton]
  · rw [hlinks, hvis, List.map_singleton, hcaller]

end Session

end RuleTrace
