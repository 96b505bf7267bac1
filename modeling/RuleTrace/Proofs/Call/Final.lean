import Mathlib.Data.Nat.Find
import RuleTrace.Proofs.Call.Replay
import RuleTrace.Proofs.Call.View

/-!
# Calls that are final

Below a call are all that it led to (`CallTree.LedTo`), be they pending or not. The calls are
numbered in pre-order: since every call was made by one that was pending (`CallTree.Edged`), those
below a call are the next ones after it. A call that ended is off the way up from the cursor, as
are all below it. So no event reaches them any more (`CallTree.Keeps`).

* `WellFormed.exists_count`: the calls below a call are those with the next numbers.
* `Keeps.enter`, `Keeps.close`, `Keeps.noteStyles`: what one event and a drawing leave as it is.
* `Keeps.extract_full`: the full view of what is left as it is.
* `Session.final_run`: the same for whole runs.
-/

namespace RuleTrace

namespace Forest

variable {α β : Type}

/-- The forest with other labels. -/
def map (f : α → β) : Forest α → Forest β
  | .nil => .nil
  | .node a below after => .node (f a) (below.map f) (after.map f)

theorem map_append (f : α → β) (g h : Forest α) :
    (g.append h).map f = (g.map f).append (h.map f) := by
  induction g with
  | nil => rfl
  | node a below after _ ih => simp [append, map, ih]

/-- Splicing depends on labels only through the test. -/
theorem map_splice {f : α → β} {hidden : α → Bool} {hidden' : β → Bool}
    (hf : ∀ a, hidden' (f a) = hidden a) (g : Forest α) :
    (g.splice hidden).map f = (g.map f).splice hidden' := by
  induction g with
  | nil => rfl
  | node a below after ihb iha =>
    rw [splice, map, splice, hf]
    split
    · rw [map_append, ihb, iha]
    · rw [map, ihb, iha]

end Forest

namespace CallTree

/-- The call `d` was made by the call `n`, or by one that `n` led to. -/
def LedTo (t : CallTree) (n d : Nat) : Prop :=
  Relation.TransGen (fun p c => (t.node c).parent = some p) n d

/-! ## Numbers in pre-order -/

section
variable {t : CallTree}

namespace WellFormed

variable (h : t.WellFormed)
include h

theorem lt_of_ledTo {n d : Nat} (hd : t.LedTo n d) : n < d ∧ d < t.nodes.length := by
  induction hd with
  | single hp => exact ⟨h.lt_of_parent_eq hp, lt_of_parent hp⟩
  | tail _ hp ih => exact ⟨Nat.lt_trans ih.1 (h.lt_of_parent_eq hp), lt_of_parent hp⟩

theorem ledTo_iff_caller {n d : Nat} (hd : d < t.nodes.length) (h0 : d ≠ 0) :
    t.LedTo n d ↔ t.caller d = n ∨ t.LedTo n (t.caller d) := by
  have hp := h.parent_caller hd h0
  rw [LedTo, Relation.TransGen.tail'_iff, LedTo, ← Relation.reflTransGen_iff_eq_or_transGen]
  simp [hp]

theorem ledTo_zero {d : Nat} (hd : d < t.nodes.length) (h0 : d ≠ 0) : t.LedTo 0 d := by
  induction d using Nat.strongRecOn with
  | _ d ih =>
    have hlt := h.caller_lt h0
    rw [h.ledTo_iff_caller hd h0]
    by_cases hc : t.caller d = 0
    · exact .inl hc
    · exact .inr (ih _ hlt (by omega) hc)

/-- On the way up from a call are that call and those that led to it. -/
theorem mem_chain_iff {n d : Nat} (hn : n ≠ 0) (hd : d < t.nodes.length) :
    n ∈ t.chain d ↔ d = n ∨ t.LedTo n d := by
  induction d using Nat.strongRecOn with
  | _ d ih =>
    by_cases h0 : d = 0
    · subst h0
      have hnot : ¬t.LedTo n 0 := fun hl => Nat.not_lt_zero n (h.lt_of_ledTo hl).1
      simp [chain_zero, hnot, Ne.symm hn]
    · have hlt := h.caller_lt h0
      rw [h.chain_of_ne_zero h0, List.mem_cons, ih _ hlt (by omega), h.ledTo_iff_caller hd h0,
        eq_comm]

/-- Between a call and one below it, all are below it. -/
theorem ledTo_of_le (he : t.Edged) {n d k : Nat} (hd : t.LedTo n d) (hk : n < k) (hkd : k ≤ d) :
    t.LedTo n k := by
  obtain ⟨j, rfl⟩ := Nat.exists_eq_add_of_le hkd
  induction j with
  | zero => exact hd
  | succ j ih =>
    refine ih ?_ (Nat.le_add_right k j)
    have hlen := (h.lt_of_ledTo hd).2
    by_cases hn : n = 0
    · subst hn
      exact h.ledTo_zero (by omega) (by omega)
    · -- the caller of a call is on the way up from the call before it
      obtain ⟨ended, heq, -⟩ := he.between (k + j) (by rw [callCount]; omega)
      have hlt := h.caller_lt (Nat.succ_ne_zero (k + j))
      have hup : n ∈ t.chain (t.caller (k + j + 1)) := by
        rw [h.mem_chain_iff hn (Nat.lt_trans hlt hlen)]
        exact (h.ledTo_iff_caller hlen (Nat.succ_ne_zero _)).1 hd
      have hchain : n ∈ t.chain (k + j) := heq ▸ List.mem_append_right ended hup
      rcases (h.mem_chain_iff hn (by omega)).1 hchain with hdn | hl
      · omega
      · exact hl

/-- The calls below a call are those with the next numbers. -/
theorem exists_count (he : t.Edged) (n : Nat) : ∃ k, ∀ d, t.LedTo n d ↔ n < d ∧ d ≤ n + k := by
  classical
  have hex : ∃ j, ¬t.LedTo n (n + j + 1) :=
    ⟨t.nodes.length, fun hl => by have := (h.lt_of_ledTo hl).2; omega⟩
  refine ⟨Nat.find hex, fun d => ⟨fun hd => ?_, fun ⟨hlt, hle⟩ => ?_⟩⟩
  · refine ⟨(h.lt_of_ledTo hd).1, Nat.le_of_not_lt fun hk => Nat.find_spec hex ?_⟩
    exact h.ledTo_of_le he hd (by omega) (by omega)
  · obtain ⟨j, rfl⟩ := Nat.exists_eq_add_of_lt hlt
    exact Classical.not_not.1 (Nat.find_min hex (m := j) (by omega))

/-- All calls after a pending one are below it. -/
theorem ledTo_of_pending (he : t.Edged) {n d : Nat} (hs : (t.node n).state = .pending)
    (hnd : n < d) (hd : d < t.nodes.length) : t.LedTo n d := by
  by_cases hn : n = 0
  · subst hn
    exact h.ledTo_zero hd (by omega)
  · obtain ⟨ended, heq⟩ := he.last
    have hlen := length_eq_callCount h
    have hlast : n ∈ t.chain t.callCount := by
      rw [heq]
      exact List.mem_append_right ended ((h.pending n (by omega) hn).1 hs)
    rcases (h.mem_chain_iff hn (by omega)).1 hlast with hc | hl
    · omega
    · exact h.ledTo_of_le he hl hnd (by omega)

/-! ## Calls out of reach -/

theorem ne_zero_of_ended {n : Nat} (hs : (t.node n).state ≠ .pending) : n ≠ 0 := by
  rintro rfl
  exact hs h.root.2.2.2

/-- A call that ended, and those below it, are not on the way up from the cursor. -/
theorem notMem_pending_of_ended {n : Nat} (hs : (t.node n).state ≠ .pending) {d : Nat}
    (hd : d = n ∨ t.LedTo n d) : d ∉ t.pending := by
  intro hm
  have hn : n ≠ 0 := h.ne_zero_of_ended hs
  have hd0 : d ≠ 0 := Nat.ne_of_gt (pos_le_of_mem_chain hm).1
  have hpend : n ∈ t.pending := by
    rcases hd with rfl | hd
    · exact hm
    · refine (h.mem_chain_iff hn h.cursor).2 ?_
      rcases (h.mem_chain_iff hd0 h.cursor).1 hm with hc | hl
      · exact .inr (hc ▸ hd)
      · exact .inr (hd.trans hl)
  exact hs ((h.pending n (lt_of_state_ne hs) hn).2 hpend)

/-- A call that ended did not lead to the innermost pending one, and is not that one. -/
theorem cursor_out_of_reach {n : Nat} (hs : (t.node n).state ≠ .pending) :
    ¬(t.cursor = n ∨ t.LedTo n t.cursor) := by
  intro hc
  have hn : n ≠ 0 := h.ne_zero_of_ended hs
  exact h.notMem_pending_of_ended hs (.inl rfl) ((h.mem_chain_iff hn h.cursor).2 hc)

end WellFormed

/-! ## What is left as it is -/

/-- The call `n` has the same calls below it in the second tree as in the first, and it and they
are the same calls but for their styles. -/
structure Keeps (t t' : CallTree) (n : Nat) : Prop where
  ledTo : ∀ d, t'.LedTo n d ↔ t.LedTo n d
  node : ∀ d, d = n ∨ t.LedTo n d → (t'.node d).unstyled = (t.node d).unstyled

theorem Keeps.refl (t : CallTree) (n : Nat) : t.Keeps t n :=
  ⟨fun _ => Iff.rfl, fun _ _ => rfl⟩

theorem Keeps.trans {t' t'' : CallTree} {n : Nat} (h : t.Keeps t' n) (h' : t'.Keeps t'' n) :
    t.Keeps t'' n where
  ledTo d := (h'.ledTo d).trans (h.ledTo d)
  node d hd := by
    have hd' : d = n ∨ t'.LedTo n d := by rwa [h.ledTo]
    exact (h'.node d hd').trans (h.node d hd)

theorem Keeps.state {t' : CallTree} {n d : Nat} (h : t.Keeps t' n) (hd : d = n ∨ t.LedTo n d) :
    (t'.node d).state = (t.node d).state :=
  (congrArg Node.state (h.node d hd) :)

theorem Keeps.noteStyles (t : CallTree) (styles : List (Nat × Option Style)) (n : Nat) :
    t.Keeps (t.noteStyles styles) n where
  ledTo d := by simp [LedTo]
  node d _ := t.unstyled_noteStyles styles d

section
variable (h : t.WellFormed) {n : Nat} (hs : (t.node n).state ≠ .pending)
include h hs

theorem Keeps.enter (rule : Text) (location : Location) :
    t.Keeps (t.enter rule location).1 n := by
  have hreach := h.cursor_out_of_reach hs
  have hn := lt_of_state_ne hs
  -- a call that has a caller is an old one, or it is the new one and was made by the cursor
  have hparent : ∀ {p c}, ((t.enter rule location).1.node c).parent = some p →
      (t.node c).parent = some p ∨ p = t.cursor := by
    intro p c hp
    have hc := lt_of_parent hp
    rw [length_enter] at hc
    rcases Nat.lt_or_ge c t.nodes.length with hlt | hge
    · rw [node_enter_of_lt t rule location hlt] at hp
      exact .inl hp
    · obtain rfl : c = t.nodes.length := by omega
      rw [← caller_of_parent hp]
      exact .inr (h.caller_enter_length rule location)
  refine ⟨fun d => ⟨fun hd => ?_, fun hd => ?_⟩, fun d hd => ?_⟩
  · induction hd with
    | single hp =>
      rcases hparent hp with hp | hp
      · exact .single hp
      · exact absurd (.inl hp.symm) hreach
    | tail _ hp ih =>
      rcases hparent hp with hp | rfl
      · exact .tail ih hp
      · exact absurd (.inr ih) hreach
  · refine Relation.TransGen.mono (fun p c hp => ?_) _ _ hd
    rwa [node_enter_of_lt t rule location (lt_of_parent hp)]
  · have hlt : d < t.nodes.length := by
      rcases hd with rfl | hd
      · exact hn
      · exact (h.lt_of_ledTo hd).2
    rw [node_enter_of_lt t rule location hlt]

theorem Keeps.close (hc : t.cursor ≠ 0) (outcome : Outcome) (location : Location) :
    t.Keeps (t.close outcome location) n where
  ledTo d := by simp [LedTo]
  node d hd := by
    have hn := h.ne_zero_of_ended hs
    have hlt : d < t.nodes.length ∧ d ≠ 0 := by
      rcases hd with rfl | hd
      · exact ⟨lt_of_state_ne hs, hn⟩
      · have := h.lt_of_ledTo hd
        omega
    -- both calls that the event changes are on the way up from the cursor
    have hnot := h.notMem_pending_of_ended hs hd
    rw [pending, h.chain_of_ne_zero hc, List.mem_cons, not_or] at hnot
    have hcaller : d ≠ t.caller t.cursor := by
      intro heq
      refine hnot.2 ?_
      rw [heq, h.chain_of_ne_zero (heq ▸ hlt.2)]
      exact List.mem_cons_self
    rw [node_close t outcome location hlt.1, if_neg hcaller, if_neg hnot.1]

end

/-! ## Views -/

section
variable {t' : CallTree} (h : t.WellFormed) (h' : t'.WellFormed) {n : Nat} (hk : t.Keeps t' n)
include h h' hk

theorem Keeps.map_below {i : Nat} (hlt : i < t.nodes.length) (hi : i = n ∨ t.LedTo n i) :
    (t'.below i).map Node.unstyled = (t.below i).map Node.unstyled := by
  refine h.below_induction (P := fun i => (i = n ∨ t.LedTo n i) →
    (t'.below i).map Node.unstyled = (t.below i).map Node.unstyled) ?_ hlt hi
  intro i hlt ih hi
  have hchildren : (t'.node i).children = (t.node i).children :=
    (congrArg Node.children (hk.node i hi) :)
  suffices hcs : ∀ cs : List Nat, (∀ c ∈ cs, c ∈ (t.node i).children) →
      (t'.branches i cs).map Node.unstyled = (t.branches i cs).map Node.unstyled by
    rw [below, below, hchildren]
    exact hcs _ fun _ hc => hc
  intro cs hcs
  induction cs with
  | nil => rw [branches, branches]
  | cons c cs ihcs =>
    have hc := hcs c List.mem_cons_self
    have hp : (t.node c).parent = some i := ((h.mem_children_iff hlt).1 hc).1
    have hled : c = n ∨ t.LedTo n c := by
      rcases hi with rfl | hi
      · exact .inr (.single hp)
      · exact .inr (hi.tail hp)
    have hp' : (t'.node c).parent = some i :=
      ((congrArg Node.parent (hk.node c hled) :) : (t'.node c).parent = _).trans hp
    have hlt' : i < t'.nodes.length := Nat.lt_trans (h'.lt_of_parent_eq hp') (lt_of_parent hp')
    rw [h.branches_cons hlt hc, h'.branches_cons hlt' (hchildren ▸ hc), Forest.map, Forest.map,
      hk.node c hled, ih c hc hled, ihcs fun c' hc' => hcs c' (List.mem_cons_of_mem c hc')]

theorem Keeps.extract_full (hlt : n < t.nodes.length) (patterns : List Pattern) :
    (t'.extract patterns .full n).map (·.map Node.unstyled) =
      (t.extract patterns .full n).map (·.map Node.unstyled) := by
  have hhidden : ∀ m : Node, m.unstyled.isHidden patterns = m.isHidden patterns := fun _ => rfl
  rw [extract, extract, Option.map_some, Option.map_some, Forest.map_splice hhidden,
    Forest.map_splice hhidden, hk.map_below h h' hlt (.inl rfl)]

end

end

end CallTree

/-! ## Runs -/

namespace Session

theorem keeps_step {s : Session} (h : s.tree.WellFormed) {n : Nat}
    (hs : (s.tree.node n).state ≠ .pending) {c : TreeCall} (hc : c ≠ .reset) :
    s.tree.Keeps (s.step c).tree n := by
  rcases s.step_cases c with heq | ⟨hreset, -⟩ | ⟨styles, heq⟩ | ⟨rule, location, heq⟩ |
    ⟨outcome, location, hcursor, heq⟩
  · rw [heq]
    exact .refl _ n
  · exact absurd hreset hc
  · rw [heq]
    exact .noteStyles _ styles n
  · rw [heq]
    exact .enter h hs rule location
  · rw [heq]
    exact .close h hs hcursor outcome location

theorem keeps_run (calls : List TreeCall) {n : Nat}
    (hs : ((run calls).tree.node n).state ≠ .pending) {more : List TreeCall}
    (hmore : .reset ∉ more) : (run calls).tree.Keeps (run (calls ++ more)).tree n := by
  induction more using List.reverseRecOn with
  | nil =>
    rw [List.append_nil]
    exact .refl _ n
  | append_singleton more c ih =>
    rw [List.mem_append, not_or] at hmore
    have hk := ih hmore.1
    have hc : c ≠ .reset := fun heq => hmore.2 (List.mem_singleton.2 heq.symm)
    rw [← List.append_assoc, run_concat]
    refine hk.trans (keeps_step (run_inv _).1.toWellFormed ?_ hc)
    rwa [hk.state (.inl rfl)]

/-- After every run, the calls below a call are those with the next numbers. When it is pending they
are all calls after it. When it ended it is final: whatever calls follow, so long as the tree does
not start anew, the same calls are below it, it and they are the same but for their styles, and its
full view is the same. -/
theorem final_run (calls : List TreeCall) :
    let t := (run calls).tree
    ∀ n < t.nodes.length,
      (∃ k, ∀ d, t.LedTo n d ↔ n < d ∧ d ≤ n + k) ∧
      ((t.node n).state = .pending → ∀ d, n < d → d < t.nodes.length → t.LedTo n d) ∧
      ((t.node n).state ≠ .pending → ∀ more, .reset ∉ more →
        let t' := (run (calls ++ more)).tree
        (∀ d, t'.LedTo n d ↔ t.LedTo n d) ∧
        (∀ d, d = n ∨ t.LedTo n d → (t'.node d).unstyled = (t.node d).unstyled) ∧
        ∀ patterns, (t'.extract patterns .full n).map (·.map Node.unstyled) =
          (t.extract patterns .full n).map (·.map Node.unstyled)) := by
  intro t n hn
  obtain ⟨hi, htold⟩ := told_run calls
  have h : t.WellFormed := hi.toWellFormed
  refine ⟨h.exists_count htold.edged n,
    fun hs d hnd hd => h.ledTo_of_pending htold.edged hs hnd hd, fun hs more hmore => ?_⟩
  have hk := keeps_run calls hs hmore
  exact ⟨hk.ledTo, hk.node, hk.extract_full h (run_inv _).1.toWellFormed hn⟩

/-- While the call of `a` is pending, the one of `b` has ended. Another call by that of `a` leaves
the one of `c` the only call below it. -/
theorem final_run_nextCall :
    let calls := nestedCalls.take 5
    let more : List TreeCall := [.enter ['d'] .origin, .leave .failed ['d'] .origin]
    let t := (run calls).tree
    let t' := (run (calls ++ more)).tree
    2 < t.nodes.length ∧ (t.node 1).state = .pending ∧ (t.node 2).state ≠ .pending ∧
      .reset ∉ more ∧ t.LedTo 1 3 ∧ t'.nodes.length = 5 ∧ (∀ d, t'.LedTo 2 d ↔ d = 3) ∧
      (t'.node 3).unstyled = (t.node 3).unstyled ∧
      (t'.extract [] .full 2).map (·.map Node.unstyled) =
        (t.extract [] .full 2).map (·.map Node.unstyled) := by
  intro calls more t t'
  obtain ⟨-, hpending, -⟩ := final_run calls 1 (by decide)
  obtain ⟨-, -, hended⟩ := final_run calls 2 (by decide)
  obtain ⟨hled, hnode, hview⟩ := hended (by decide) more (by decide)
  have h3 : t.LedTo 2 3 := .single (by decide)
  have hbelow : ∀ d, t.LedTo 2 d ↔ d = 3 := fun d => by
    refine ⟨fun hd => ?_, fun hd => hd ▸ h3⟩
    have hlen : t.nodes.length = 4 := by decide
    have : 2 < d ∧ d < t.nodes.length := (run_inv calls).1.lt_of_ledTo hd
    omega
  exact ⟨by decide, by decide, by decide, by decide, hpending (by decide) 3 (by decide) (by decide),
    by decide, fun d => (hled d).trans (hbelow d), hnode 3 (.inr h3), hview []⟩

end Session

end RuleTrace
