import RuleTrace.Proofs.Call.Run
import RuleTrace.Proofs.Call.Update

/-!
# Well-formed call trees

`CallTree.WellFormed` says how the parts of a tree fit together: the calls under their numbers, the
paths and parents, the pending calls and the depth, and the lists of calls that ended. It is no
invariant by itself, since nothing in it keeps those lists in order. `CallTree.Inv` adds that a
pending call is newer than all that its caller has listed (`Inv.newest`): only the callers of
pending calls and the innermost call can still be given children.

* `Inv.enter`, `Inv.close`, `Inv.noteStyles`: the invariant is kept.
* `run_inv`: it holds after every run.
* `wellFormed_run`: so every tree is well-formed, and its counts are those of the accepted events.
-/

namespace RuleTrace

namespace CallTree

/-- The parents of a call from itself up to the root, the root itself left out. -/
inductive Callers (t : CallTree) : Nat → List Nat → Prop
  | root : Callers t 0 []
  | call {i p : Nat} {above : List Nat} :
    (t.node i).parent = some p → Callers t p above → Callers t i (i :: above)

/-- How the parts of a tree fit together. -/
structure WellFormed (t : CallTree) : Prop where
  number : ∀ i < t.nodes.length, (t.node i).number = i
  nonempty : 0 < t.nodes.length
  root : (t.node 0).parent = none ∧ (t.node 0).path = [] ∧ (t.node 0).rule = [] ∧
    (t.node 0).state = .pending
  parent : ∀ i < t.nodes.length, i ≠ 0 →
    ∃ p < i, (t.node i).parent = some p ∧ (t.node i).path = (t.node p).childPath
  cursor : t.cursor < t.nodes.length
  callers : t.Callers t.cursor t.pending
  pending : ∀ i < t.nodes.length, i ≠ 0 → ((t.node i).state = .pending ↔ i ∈ t.pending)
  depth : t.depth = t.pending.length
  ended : ∀ i < t.nodes.length, ∀ o, (t.node i).state = .resolved o →
    ∃ p < t.nodes.length, (t.node i).parent = some p ∧ ((t.node p).ended o).count i = 1
  only : ∀ p < t.nodes.length, ∀ o, ∀ i ∈ (t.node p).ended o,
    i < t.nodes.length ∧ (t.node i).state = .resolved o ∧ (t.node i).parent = some p
  sorted : ∀ p < t.nodes.length, ∀ o, ((t.node p).ended o).Pairwise (· < ·)

/-- The invariant of runs (module doc). -/
structure Inv (t : CallTree) : Prop extends WellFormed t where
  newest : ∀ i ∈ t.pending, ∀ o, ∀ j ∈ (t.node (t.caller i)).ended o, j < i

/-! ## Callers -/

section
variable {t : CallTree}

theorem callers_chain
    (hp : ∀ i < t.nodes.length, i ≠ 0 →
      ∃ p < i, (t.node i).parent = some p ∧ (t.node i).path = (t.node p).childPath)
    {i : Nat} (hi : i < t.nodes.length) : t.Callers i (t.chain i) := by
  induction i using Nat.strongRecOn with
  | _ i ih =>
    by_cases h0 : i = 0
    · subst h0
      rw [chain_zero]
      exact .root
    · obtain ⟨p, hlt, hpar, -⟩ := hp i hi h0
      have hc := caller_of_parent hpar
      rw [chain_of_lt (by rw [hc]; exact hlt), hc]
      exact .call hpar (ih p hlt (by omega))

namespace WellFormed

variable (h : t.WellFormed)
include h

theorem parent_caller {i : Nat} (hi : i < t.nodes.length) (h0 : i ≠ 0) :
    (t.node i).parent = some (t.caller i) := by
  obtain ⟨p, -, hp, -⟩ := h.parent i hi h0
  rw [hp, caller_of_parent hp]

theorem caller_lt {i : Nat} (h0 : i ≠ 0) : t.caller i < i := by
  rcases Nat.lt_or_ge i t.nodes.length with hi | hi
  · obtain ⟨p, hlt, hp, -⟩ := h.parent i hi h0
    rwa [caller_of_parent hp]
  · rw [caller, node_of_le hi]
    exact Nat.pos_of_ne_zero h0

theorem chain_of_ne_zero {i : Nat} (h0 : i ≠ 0) : t.chain i = i :: t.chain (t.caller i) :=
  chain_of_lt (h.caller_lt h0)

theorem ne_zero_of_parent {i p : Nat} (hp : (t.node i).parent = some p) : i ≠ 0 := by
  intro h0
  rw [h0, h.root.1] at hp
  cases hp

/-- The numbers of callers are smaller. -/
theorem lt_of_parent_eq {i p : Nat} (hp : (t.node i).parent = some p) : p < i := by
  rw [← caller_of_parent hp]
  exact h.caller_lt (h.ne_zero_of_parent hp)

theorem state_cursor (hc : t.cursor ≠ 0) : (t.node t.cursor).state = .pending := by
  refine (h.pending _ h.cursor hc).2 ?_
  rw [CallTree.pending, h.chain_of_ne_zero hc]
  exact List.mem_cons_self

/-- The innermost pending call is listed nowhere. -/
theorem cursor_notMem_ended (hc : t.cursor ≠ 0) {p : Nat} (hp : p < t.nodes.length) (o : Outcome) :
    t.cursor ∉ (t.node p).ended o := by
  intro hm
  have := (h.only p hp o _ hm).2.1
  rw [h.state_cursor hc] at this
  cases this

end WellFormed

end

/-! ## The invariant is kept -/

theorem inv_empty : empty.Inv where
  number i hi := by
    obtain rfl : i = 0 := by simpa [empty] using hi
    rfl
  nonempty := by decide
  root := ⟨rfl, rfl, rfl, rfl⟩
  parent i hi h0 := absurd hi (by simp [empty]; omega)
  cursor := by decide
  callers := by
    rw [pending, show empty.cursor = 0 from rfl, chain_zero]
    exact .root
  pending i hi h0 := absurd hi (by simp [empty]; omega)
  depth := by
    rw [pending, show empty.cursor = 0 from rfl, chain_zero]
    rfl
  ended i hi o hs := by
    obtain rfl : i = 0 := by simpa [empty] using hi
    cases hs
  only p hp o i hm := by
    obtain rfl : p = 0 := by simpa [empty] using hp
    cases o <;> cases hm
  sorted p hp o := by
    obtain rfl : p = 0 := by simpa [empty] using hp
    cases o <;> exact .nil
  newest i hi := by
    rw [pending, show empty.cursor = 0 from rfl, chain_zero] at hi
    cases hi

theorem Inv.noteStyles {t : CallTree} (h : t.Inv) (styles : List (Nat × Option Style)) :
    (t.noteStyles styles).Inv := by
  have hpend : (t.noteStyles styles).pending = t.pending := noteStyles_chain t styles t.cursor
  have hpar : ∀ i < (t.noteStyles styles).nodes.length, i ≠ 0 →
      ∃ p < i, ((t.noteStyles styles).node i).parent = some p ∧
        ((t.noteStyles styles).node i).path = ((t.noteStyles styles).node p).childPath := by
    simpa [Node.childPath] using h.parent
  exact
    { number := by simpa using h.number
      nonempty := by simpa using h.nonempty
      root := by simpa using h.root
      parent := hpar
      cursor := by simpa using h.cursor
      callers := callers_chain hpar (by simpa using h.cursor)
      pending := by simpa [hpend] using h.pending
      depth := by rw [hpend]; exact h.depth
      ended := by simpa using h.ended
      only := by simpa using h.only
      sorted := by simpa using h.sorted
      newest := by simpa [hpend] using h.newest }

section
variable {t : CallTree} (h : t.WellFormed) (rule : Text) (location : Location)
include h

theorem WellFormed.parent_enter : ∀ i < (t.enter rule location).1.nodes.length, i ≠ 0 →
    ∃ p < i, ((t.enter rule location).1.node i).parent = some p ∧
      ((t.enter rule location).1.node i).path =
        ((t.enter rule location).1.node p).childPath := by
  refine forall_enter t rule location (P := fun i n => i ≠ 0 → ∃ p < i, n.parent = some p ∧
    n.path = ((t.enter rule location).1.node p).childPath) (fun i hi h0 => ?_) fun _ => ?_
  · obtain ⟨p, hp, hpar, hpath⟩ := h.parent i hi h0
    exact ⟨p, hp, hpar, by rw [node_enter_of_lt t rule location (by omega), hpath]⟩
  · refine ⟨t.cursor, h.cursor, congrArg some (h.number _ h.cursor), ?_⟩
    rw [node_enter_of_lt t rule location h.cursor]
    rfl

theorem WellFormed.caller_enter_length :
    (t.enter rule location).1.caller t.nodes.length = t.cursor := by
  refine caller_of_parent ?_
  rw [node_enter_length]
  exact congrArg some (h.number _ h.cursor)

theorem WellFormed.pending_enter :
    (t.enter rule location).1.pending = t.nodes.length :: t.pending := by
  have hcaller := h.caller_enter_length rule location
  have hlt : (t.enter rule location).1.caller t.nodes.length < t.nodes.length := by
    rw [hcaller]
    exact h.cursor
  have hcur : (t.enter rule location).1.cursor = t.nodes.length := rfl
  rw [CallTree.pending, hcur, chain_of_lt hlt, hcaller, chain_enter_of_lt t rule location h.cursor,
    CallTree.pending]

end

theorem Inv.enter {t : CallTree} (h : t.Inv) (rule : Text) (location : Location) :
    (t.enter rule location).1.Inv := by
  have hold := fun i hi => node_enter_of_lt t rule location (i := i) hi
  have hlen := length_enter t rule location
  have hpend := h.pending_enter rule location
  have hcur : (t.enter rule location).1.cursor = t.nodes.length := rfl
  have hpar := h.parent_enter rule location
  refine
    { number := forall_enter t rule location (P := fun i n => n.number = i) h.number rfl
      nonempty := by omega
      root := by rw [hold 0 h.nonempty]; exact h.root
      parent := hpar
      cursor := by omega
      callers := callers_chain hpar (by omega)
      pending := ?_
      depth := by rw [hpend, List.length_cons, ← h.depth]; rfl
      ended := ?_
      only := ?_
      sorted := ?_
      newest := fun i hi o j hj => ?_ }
  · rw [hpend]
    refine forall_enter t rule location (P := fun i n => i ≠ 0 →
      (n.state = .pending ↔ i ∈ t.nodes.length :: t.pending)) (fun i hi h0 => ?_) fun _ => ?_
    · rw [h.pending i hi h0, List.mem_cons, or_iff_right (Nat.ne_of_lt hi)]
    · simp
  · refine forall_enter t rule location (P := fun i n => ∀ o, n.state = .resolved o →
      ∃ p < (t.enter rule location).1.nodes.length, n.parent = some p ∧
        (((t.enter rule location).1.node p).ended o).count i = 1) (fun i hi o hs => ?_)
      fun o hs => by cases hs
    obtain ⟨p, hp, hpar, hcount⟩ := h.ended i hi o hs
    exact ⟨p, by omega, hpar, by rw [hold p hp, hcount]⟩
  · refine forall_enter t rule location (P := fun p n => ∀ o, ∀ i ∈ n.ended o,
      i < (t.enter rule location).1.nodes.length ∧
        ((t.enter rule location).1.node i).state = .resolved o ∧
        ((t.enter rule location).1.node i).parent = some p) (fun p hp o i hm => ?_)
      fun o i hm => by cases o <;> cases hm
    obtain ⟨hi, hs, hpar⟩ := h.only p hp o i hm
    rw [hold i hi]
    exact ⟨by omega, hs, hpar⟩
  · exact forall_enter t rule location (P := fun _ n => ∀ o, (n.ended o).Pairwise (· < ·)) h.sorted
      fun o => by cases o <;> exact .nil
  · rw [hpend, List.mem_cons] at hi
    rcases hi with rfl | hi
    · rw [h.caller_enter_length, hold _ h.cursor] at hj
      exact (h.only _ h.cursor o j hj).1
    · have hb := pos_le_of_mem_chain hi
      have hc := h.cursor
      have hlt := h.caller_lt (Nat.ne_of_gt hb.1)
      rw [caller_enter_of_lt t rule location (by omega), hold _ (by omega)] at hj
      exact h.newest i hi o j hj

section
variable {t : CallTree} (h : t.WellFormed) (hc : t.cursor ≠ 0) (outcome : Outcome)
  (location : Location)
include h hc

theorem WellFormed.pending_close :
    t.pending = t.cursor :: (t.close outcome location).pending := by
  rw [CallTree.pending, h.chain_of_ne_zero hc, CallTree.pending, close_cursor, close_chain]

theorem WellFormed.caller_cursor_lt : t.caller t.cursor < t.nodes.length :=
  Nat.lt_trans (h.caller_lt hc) h.cursor

theorem WellFormed.mem_ended_close {p j : Nat} {o : Outcome} :
    j ∈ ((t.close outcome location).node p).ended o ↔
      j ∈ (t.node p).ended o ∨ (p = t.caller t.cursor ∧ o = outcome) ∧ j = t.cursor := by
  rw [t.ended_close outcome location (h.caller_cursor_lt hc)]
  split
  · next hpo => simp [hpo]
  · next hpo => simp [hpo]

/-- The call that ends is listed once with its caller, and the others as before. -/
theorem WellFormed.count_ended_close {i p : Nat} (hp : p < t.nodes.length) (o : Outcome) :
    (((t.close outcome location).node p).ended o).count i =
      if i = t.cursor then (if p = t.caller t.cursor ∧ o = outcome then 1 else 0)
      else ((t.node p).ended o).count i := by
  have hnone : ((t.node p).ended o).count t.cursor = 0 :=
    List.count_eq_zero_of_not_mem (h.cursor_notMem_ended hc hp o)
  rw [t.ended_close outcome location (h.caller_cursor_lt hc)]
  by_cases hi : i = t.cursor
  · subst hi
    rw [if_pos rfl]
    split
    · rw [List.count_append, hnone, List.count_singleton_self]
    · exact hnone
  · rw [if_neg hi]
    split
    · rw [List.count_append, List.count_singleton, if_neg (by simpa using Ne.symm hi),
        Nat.add_zero]
    · rfl

end

theorem Inv.close {t : CallTree} (h : t.Inv) (hc : t.cursor ≠ 0) (outcome : Outcome)
    (location : Location) : (t.close outcome location).Inv := by
  have hpc := h.caller_cursor_lt hc
  have hlen := t.length_close outcome location
  have hstate := t.state_close outcome location h.cursor
  have hpend := h.pending_close hc outcome location
  have hpar : ∀ i < (t.close outcome location).nodes.length, i ≠ 0 →
      ∃ p < i, ((t.close outcome location).node i).parent = some p ∧
        ((t.close outcome location).node i).path =
          ((t.close outcome location).node p).childPath := by
    simpa [Node.childPath] using h.parent
  refine
    { number := by simpa using h.number
      nonempty := by simpa using h.nonempty
      root := ?_
      parent := hpar
      cursor := by simpa using hpc
      callers := callers_chain hpar (by simpa using hpc)
      pending := fun i hi h0 => ?_
      depth := by rw [close_depth, h.depth, hpend]; rfl
      ended := fun i hi o hs => ?_
      only := fun p hp o i hm => ?_
      sorted := fun p hp o => ?_
      newest := fun i hi o j hj => ?_ }
  · rw [hstate, if_neg (Ne.symm hc)]
    simpa using h.root
  · have hiff := h.pending i (by omega) h0
    rw [hpend, List.mem_cons] at hiff
    rw [hstate]
    split
    · next hic =>
      have hnot : t.cursor ∉ (t.close outcome location).pending := by
        intro hm
        rw [pending, close_cursor] at hm
        have hle := (pos_le_of_mem_chain hm).2
        have hlt := h.caller_lt hc
        omega
      simp [hic, hnot]
    · next hic => rw [hiff, or_iff_right hic]
  · rw [hlen] at hi ⊢
    rw [hstate] at hs
    split at hs
    · next hic =>
      subst hic
      cases hs
      refine ⟨t.caller t.cursor, hpc, by simpa using h.parent_caller hi hc, ?_⟩
      rw [h.count_ended_close hc outcome location hpc, if_pos rfl, if_pos ⟨rfl, rfl⟩]
    · next hic =>
      obtain ⟨p, hp, hpar, hcount⟩ := h.ended i hi o hs
      refine ⟨p, hp, by simpa using hpar, ?_⟩
      rw [h.count_ended_close hc outcome location hp, if_neg hic, hcount]
  · rw [hlen] at hp ⊢
    rw [hstate, close_parent]
    rcases (h.mem_ended_close hc outcome location).1 hm with hm | ⟨⟨rfl, rfl⟩, rfl⟩
    · have hne : i ≠ t.cursor := fun he => h.cursor_notMem_ended hc hp o (he ▸ hm)
      rw [if_neg hne]
      exact h.only p hp o i hm
    · exact ⟨h.cursor, if_pos rfl, h.parent_caller h.cursor hc⟩
  · rw [hlen] at hp
    rw [t.ended_close outcome location hpc]
    split
    · next hpo =>
      obtain ⟨rfl, rfl⟩ := hpo
      refine List.pairwise_append.2 ⟨h.sorted _ hp _, List.pairwise_singleton _ _, ?_⟩
      intro j hj i hi
      rw [List.mem_singleton.1 hi]
      exact h.newest _ (by rw [hpend]; exact List.mem_cons_self) _ j hj
    · exact h.sorted p hp o
  · have hi' : i ∈ t.pending := by
      rw [hpend]
      exact List.mem_cons_of_mem _ hi
    rw [close_caller] at hj
    rcases (h.mem_ended_close hc outcome location).1 hj with hj | ⟨⟨hcaller, -⟩, -⟩
    · exact h.newest i hi' o j hj
    · -- the caller of a call that is still pending comes before the one that gets the new child
      rw [pending, close_cursor] at hi
      have hb := pos_le_of_mem_chain hi
      have hlt := h.caller_lt (Nat.ne_of_gt hb.1)
      omega

end CallTree

namespace Session

/-- The accepted events count the calls and the pending calls. -/
structure Counts (s : Session) : Prop where
  calls : s.tree.callCount = s.enters.length
  depth : (s.tree.depth : Int) = s.enters.length - s.ends.length

theorem Counts.enter {s : Session} (h : s.Counts) (hi : s.tree.Inv) (rule : Text)
    (location : Location) : (s.enter rule location).Counts where
  calls := by
    have hc : s.tree.nodes.length - 1 = s.enters.length := h.calls
    have := hi.nonempty
    rw [enters_enter, List.length_append, List.length_singleton, CallTree.callCount,
      Session.enter, CallTree.length_enter]
    omega
  depth := by
    have hd := h.depth
    have ht : (s.enter rule location).tree.depth = s.tree.depth + 1 := rfl
    rw [enters_enter, ends_enter, List.length_append, List.length_singleton, ht]
    omega

theorem Counts.close {s : Session} (h : s.Counts) (hi : s.tree.Inv) (hc : s.tree.cursor ≠ 0)
    (outcome : Outcome) (location : Location) : (s.close outcome location).Counts where
  calls := by
    rw [enters_close, ← h.calls, CallTree.callCount, Session.close, CallTree.length_close]
    rfl
  depth := by
    have hd := h.depth
    have ht : (s.close outcome location).tree.depth = s.tree.depth - 1 := by simp [Session.close]
    have hpos : 0 < s.tree.depth := by
      rw [hi.depth, CallTree.pending, hi.chain_of_ne_zero hc]
      exact Nat.succ_pos _
    rw [enters_close, ends_close, List.length_append, List.length_singleton, ht]
    omega

/-- The invariant of trees and the counts hold after every run. -/
theorem run_inv (calls : List TreeCall) : (run calls).tree.Inv ∧ (run calls).Counts := by
  refine run_induction (P := fun s => s.tree.Inv ∧ s.Counts) ?_ ?_ ?_ ?_ calls
  · exact ⟨CallTree.inv_empty, rfl, rfl⟩
  · intro s styles ⟨hi, hs⟩
    refine ⟨hi.noteStyles styles, ?_, hs.depth⟩
    rw [CallTree.callCount, CallTree.length_noteStyles]
    exact hs.calls
  · intro s rule location ⟨hi, hs⟩
    exact ⟨hi.enter rule location, hs.enter hi rule location⟩
  · intro s outcome location hc ⟨hi, hs⟩
    exact ⟨hi.close hc outcome location, hs.close hi hc outcome location⟩

end Session

end RuleTrace
