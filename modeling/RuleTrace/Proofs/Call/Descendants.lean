import Mathlib.Data.List.Nodup
import Mathlib.Logic.Relation
import RuleTrace.Call.View
import RuleTrace.Proofs.Call.Sites
import RuleTrace.Proofs.Call.WellFormed

/-!
# Calls below a call

`CallTree.descendants` lists the calls that a view can show below a call: those that ended, as did
all between them and it. In a well-formed tree:

* `descendants_eq`: they come in pre-order, those that matched before those that failed.
* `mem_descendants_iff`, `nodup_descendants`: they are the calls that a chain of ended calls leads
  to, each listed once.
* `sites_below`: what lies above and below each of them in the forest that views are made from.
* `endedBelow_zero_iff`: below the root they are the calls that ended, as did all their callers.
-/

namespace RuleTrace.CallTree

/-- The call `c` was made by the call `p` and ended. -/
def EndedChild (t : CallTree) (p c : Nat) : Prop :=
  (t.node c).parent = some p ∧ (t.node c).state ≠ .pending

/-- The call `d` is below the call `i`, and every call from `d` up to `i`, itself left out,
ended. -/
def EndedBelow (t : CallTree) (i d : Nat) : Prop :=
  Relation.TransGen t.EndedChild i d

/-- The numbers of the calls below a call that ended, as did all between them and it. -/
def descendants (t : CallTree) (i : Nat) : List Nat :=
  (t.below i).preorder.map (·.number)

/-- The callers of a call, the nearest first, the root left out. -/
def ancestors (t : CallTree) (i : Nat) : List Nat :=
  t.chain (t.caller i)

section
variable {t : CallTree}

theorem ancestors_of_caller_eq_zero {i : Nat} (h : t.caller i = 0) : t.ancestors i = [] := by
  rw [ancestors, h, chain_zero]

theorem ancestors_of_caller {i p : Nat} (h : t.caller i = p) (hp : t.caller p < p) :
    t.ancestors i = p :: t.ancestors p := by
  rw [ancestors, h, chain_of_lt hp, ancestors]

namespace WellFormed

variable (h : t.WellFormed)
include h

/-! ## Children -/

theorem mem_children_iff {i c : Nat} (hi : i < t.nodes.length) :
    c ∈ (t.node i).children ↔ t.EndedChild i c := by
  rw [Node.mem_children]
  refine ⟨fun ⟨o, hm⟩ => ?_, fun ⟨hp, hs⟩ => ?_⟩
  · obtain ⟨-, hs, hp⟩ := h.only i hi o c hm
    exact ⟨hp, by simp [hs]⟩
  · obtain ⟨o, ho⟩ : ∃ o, (t.node c).state = .resolved o := by
      cases hst : (t.node c).state with
      | pending => exact absurd hst hs
      | resolved o => exact ⟨o, rfl⟩
    obtain ⟨p, -, hp', hcount⟩ := h.ended c (lt_of_parent hp) o ho
    rw [hp, Option.some.injEq] at hp'
    subst hp'
    exact ⟨o, List.count_pos_iff.1 (by omega)⟩

theorem lt_of_mem_children {i c : Nat} (hi : i < t.nodes.length) (hc : c ∈ (t.node i).children) :
    i < c ∧ c < t.nodes.length := by
  have hp := ((h.mem_children_iff hi).1 hc).1
  exact ⟨h.lt_of_parent_eq hp, lt_of_parent hp⟩

theorem nodup_children {i : Nat} (hi : i < t.nodes.length) : (t.node i).children.Nodup := by
  refine List.nodup_append.2 ⟨?_, ?_, fun a ha b hb hab => ?_⟩
  · exact (h.sorted i hi .matched).imp Nat.ne_of_lt
  · exact (h.sorted i hi .failed).imp Nat.ne_of_lt
  · have hm := (h.only i hi .matched a ha).2.1
    have hf := (h.only i hi .failed b hb).2.1
    rw [hab, hf] at hm
    cases hm

/-- Induction from the newest calls to the root. -/
theorem below_induction {P : Nat → Prop}
    (step : ∀ i < t.nodes.length, (∀ c ∈ (t.node i).children, P c) → P i)
    {i : Nat} (hi : i < t.nodes.length) : P i := by
  induction hn : t.nodes.length - i using Nat.strongRecOn generalizing i with
  | _ n ih =>
    refine step i hi fun c hc => ?_
    obtain ⟨hlt, hlen⟩ := h.lt_of_mem_children hi hc
    exact ih (t.nodes.length - c) (by omega) hlen rfl

/-! ## Sites -/

theorem branches_cons {i c : Nat} (hi : i < t.nodes.length) (hc : c ∈ (t.node i).children)
    (cs : List Nat) : t.branches i (c :: cs) = .node (t.node c) (t.below c) (t.branches i cs) := by
  rw [branches, if_pos (h.lt_of_mem_children hi hc)]
  rfl

theorem sites_branches {i : Nat} (hi : i < t.nodes.length) (above : List Node) {cs : List Nat}
    (hcs : ∀ c ∈ cs, c ∈ (t.node i).children) :
    (t.branches i cs).sites above = cs.flatMap fun c =>
      ⟨above, t.node c, t.below c⟩ :: (t.below c).sites (t.node c :: above) := by
  induction cs with
  | nil => rw [branches]; rfl
  | cons c cs ih =>
    rw [h.branches_cons hi (hcs c List.mem_cons_self), Forest.sites, List.flatMap_cons,
      ih fun c' hc' => hcs c' (List.mem_cons_of_mem _ hc')]
    rfl

theorem descendants_eq {i : Nat} (hi : i < t.nodes.length) :
    t.descendants i = (t.node i).children.flatMap fun c => c :: t.descendants c := by
  rw [descendants, ← Forest.map_label_sites _ [], below, h.sites_branches hi [] fun _ hc => hc,
    List.map_flatMap, List.map_flatMap]
  refine List.flatMap_congr fun c hc => ?_
  rw [List.map_cons, List.map_cons, h.number c (h.lt_of_mem_children hi hc).2,
    Forest.map_label_sites, descendants]

/-- The sites of the forest below a call. Above each of them are the callers below that call. -/
theorem sites_below_of_le {n i : Nat} (hn : n ≤ i) (hi : i < t.nodes.length) :
    (t.below i).sites (((t.chain i).takeWhile (· ≠ n)).map t.node) =
      (t.descendants i).map fun d =>
        ⟨((t.ancestors d).takeWhile (· ≠ n)).map t.node, t.node d, t.below d⟩ := by
  refine h.below_induction (P := fun i => n ≤ i → (t.below i).sites
    (((t.chain i).takeWhile (· ≠ n)).map t.node) = (t.descendants i).map fun d =>
      ⟨((t.ancestors d).takeWhile (· ≠ n)).map t.node, t.node d, t.below d⟩) ?_ hi hn
  intro i hi ih hn
  rw [below, h.sites_branches hi _ fun _ hc => hc, h.descendants_eq hi, List.map_flatMap]
  refine List.flatMap_congr fun c hc => ?_
  have hlt := (h.lt_of_mem_children hi hc).1
  have hcaller : t.caller c = i := caller_of_parent ((h.mem_children_iff hi).1 hc).1
  have hchain : t.chain c = c :: t.chain i := by
    rw [h.chain_of_ne_zero (by omega), hcaller]
  have hup : ((t.chain c).takeWhile (· ≠ n)).map t.node =
      t.node c :: ((t.chain i).takeWhile (· ≠ n)).map t.node := by
    rw [hchain, List.takeWhile_cons_of_pos (by simp; omega), List.map_cons]
  rw [List.map_cons, ← hup, ih c hc (by omega), ancestors, hcaller]

theorem sites_below {n : Nat} (hn : n < t.nodes.length) :
    (t.below n).sites [] = (t.descendants n).map fun d =>
      ⟨((t.ancestors d).takeWhile (· ≠ n)).map t.node, t.node d, t.below d⟩ := by
  have hnil : (t.chain n).takeWhile (· ≠ n) = [] := by
    by_cases h0 : n = 0
    · rw [h0, chain_zero]
      rfl
    · rw [h.chain_of_ne_zero h0, List.takeWhile_cons_of_neg (by simp)]
  have hs := h.sites_below_of_le (Nat.le_refl n) hn
  rwa [hnil] at hs

theorem preorder_below {i : Nat} (hi : i < t.nodes.length) :
    (t.below i).preorder = (t.descendants i).map t.node := by
  rw [← Forest.map_label_sites _ [], h.sites_below hi, List.map_map]
  rfl

/-! ## Members -/

theorem mem_descendants_iff {i d : Nat} (hi : i < t.nodes.length) :
    d ∈ t.descendants i ↔ t.EndedBelow i d := by
  refine h.below_induction (P := fun i => d ∈ t.descendants i ↔ t.EndedBelow i d) ?_ hi
  intro i hi ih
  rw [h.descendants_eq hi, List.mem_flatMap, EndedBelow, Relation.TransGen.head'_iff]
  refine exists_congr fun c => ?_
  rw [h.mem_children_iff hi]
  refine and_congr_right fun hc => ?_
  rw [List.mem_cons, ih c ((h.mem_children_iff hi).2 hc), Relation.reflTransGen_iff_eq_or_transGen]
  rfl

theorem lt_of_endedBelow {i d : Nat} (hd : t.EndedBelow i d) : i < d := by
  induction hd with
  | single hc => exact h.lt_of_parent_eq hc.1
  | tail _ hc ih =>
    have := h.lt_of_parent_eq hc.1
    omega

theorem ancestors_of_child {p c : Nat} (hp : p ≠ 0) (hc : t.EndedChild p c) :
    t.ancestors c = p :: t.ancestors p :=
  ancestors_of_caller (caller_of_parent hc.1) (h.caller_lt hp)

theorem mem_ancestors_of_endedBelow {i d : Nat} (h0 : i ≠ 0) (hd : t.EndedBelow i d) :
    i ∈ t.ancestors d := by
  induction hd with
  | single hc =>
    rw [h.ancestors_of_child h0 hc]
    exact List.mem_cons_self
  | tail hb hc ih =>
    have := h.lt_of_endedBelow hb
    rw [h.ancestors_of_child (by omega) hc]
    exact List.mem_cons_of_mem _ ih

/-- On the way up from a call, no two calls have the same caller. -/
theorem eq_of_mem_chain {d a b : Nat} (ha : a ∈ t.chain d) (hb : b ∈ t.chain d)
    (hab : t.caller a = t.caller b) : a = b := by
  induction d using Nat.strongRecOn with
  | _ d ih =>
    by_cases h0 : d = 0
    · rw [h0, chain_zero] at ha
      cases ha
    · have hup : ∀ c ∈ t.chain (t.caller d), t.caller c < t.caller d := fun c hc => by
        have := pos_le_of_mem_chain hc
        have := h.caller_lt (i := c) (by omega)
        omega
      rw [h.chain_of_ne_zero h0, List.mem_cons] at ha hb
      rcases ha with rfl | ha <;> rcases hb with rfl | hb
      · rfl
      · have := hup b hb
        omega
      · have := hup a ha
        omega
      · exact ih _ (h.caller_lt h0) ha hb

/-- On the way up from a child of `i`, or from a call below it, is that child. -/
theorem mem_chain_of_branch {i c d : Nat} (hi : i < t.nodes.length)
    (hc : c ∈ (t.node i).children) (hd : d ∈ c :: t.descendants c) :
    c ∈ t.chain d ∧ t.caller c = i := by
  obtain ⟨hlt, hlen⟩ := h.lt_of_mem_children hi hc
  refine ⟨?_, caller_of_parent ((h.mem_children_iff hi).1 hc).1⟩
  rcases List.mem_cons.1 hd with rfl | hd
  · rw [h.chain_of_ne_zero (by omega)]
    exact List.mem_cons_self
  · have hb := (h.mem_descendants_iff hlen).1 hd
    have := h.lt_of_endedBelow hb
    rw [h.chain_of_ne_zero (by omega)]
    exact List.mem_cons_of_mem _ (h.mem_ancestors_of_endedBelow (by omega) hb)

theorem nodup_descendants {i : Nat} (hi : i < t.nodes.length) : (t.descendants i).Nodup := by
  refine h.below_induction (P := fun i => (t.descendants i).Nodup) ?_ hi
  intro i hi ih
  rw [h.descendants_eq hi, List.nodup_flatMap]
  refine ⟨fun c hc => List.nodup_cons.2 ⟨fun hm => ?_, ih c hc⟩, ?_⟩
  · exact Nat.lt_irrefl c
      (h.lt_of_endedBelow ((h.mem_descendants_iff (h.lt_of_mem_children hi hc).2).1 hm))
  · refine (h.nodup_children hi).imp_of_mem fun {a b} ha hb hne d hda hdb => hne ?_
    obtain ⟨hac, hai⟩ := h.mem_chain_of_branch hi ha hda
    obtain ⟨hbc, hbi⟩ := h.mem_chain_of_branch hi hb hdb
    exact h.eq_of_mem_chain hac hbc (by rw [hai, hbi])

/-- The calls below a call are listed after their callers. -/
theorem pairwise_descendants {i : Nat} (hi : i < t.nodes.length) :
    (t.descendants i).Pairwise fun a b => (t.node a).parent ≠ some b := by
  refine h.below_induction
    (P := fun i => (t.descendants i).Pairwise fun a b => (t.node a).parent ≠ some b) ?_ hi
  intro i hi ih
  rw [h.descendants_eq hi, List.pairwise_flatMap]
  refine ⟨fun c hc => List.pairwise_cons.2 ⟨fun d hd hp => ?_, ih c hc⟩, ?_⟩
  · have hlt := h.lt_of_endedBelow
      ((h.mem_descendants_iff (h.lt_of_mem_children hi hc).2).1 hd)
    have := h.lt_of_parent_eq hp
    omega
  · refine (h.nodup_children hi).imp_of_mem fun {a b} ha hb hne d hd e he hp => hne ?_
    -- the caller of `d` would be `e`, so that the way up from `d` has both `a` and `b`
    obtain ⟨had, hai⟩ := h.mem_chain_of_branch hi ha hd
    obtain ⟨hbe, hbi⟩ := h.mem_chain_of_branch hi hb he
    have hup : t.chain d = d :: t.chain e := by
      rw [h.chain_of_ne_zero (h.ne_zero_of_parent hp), caller_of_parent hp]
    have hbd : b ∈ t.chain d := by
      rw [hup]
      exact List.mem_cons_of_mem d hbe
    exact h.eq_of_mem_chain had hbd (by rw [hai, hbi])

/-- Of the calls below `n`, those below `d` are the ones that have `d` above them. -/
theorem endedBelow_iff_mem_ancestors {n d f : Nat} (hd : t.EndedBelow n d) :
    t.EndedBelow d f ↔ t.EndedBelow n f ∧ d ∈ t.ancestors f := by
  have hnd := h.lt_of_endedBelow hd
  refine ⟨fun hf => ⟨hd.trans hf, h.mem_ancestors_of_endedBelow (by omega) hf⟩, fun hf => ?_⟩
  obtain ⟨hf, hm⟩ := hf
  induction hf with
  | single hc =>
    rw [ancestors, caller_of_parent hc.1] at hm
    have := (pos_le_of_mem_chain hm).2
    omega
  | tail hb hc ih =>
    have := h.lt_of_endedBelow hb
    rw [h.ancestors_of_child (by omega) hc] at hm
    rcases List.mem_cons.1 hm with rfl | hm
    · exact .single hc
    · exact .tail (ih hm) hc

/-- The calls shown below the root are those that ended, as did all their callers. -/
theorem endedBelow_zero_iff {d : Nat} :
    t.EndedBelow 0 d ↔ d ≠ 0 ∧ ∀ a ∈ t.chain d, (t.node a).state ≠ .pending := by
  refine ⟨fun hd => ?_, fun hd => ?_⟩
  · refine ⟨Nat.ne_of_gt (h.lt_of_endedBelow hd), ?_⟩
    induction hd with
    | single hc =>
      rw [h.chain_of_ne_zero (h.ne_zero_of_parent hc.1), caller_of_parent hc.1, chain_zero]
      simpa using hc.2
    | tail _ hc ih =>
      rw [h.chain_of_ne_zero (h.ne_zero_of_parent hc.1), caller_of_parent hc.1]
      exact List.forall_mem_cons.2 ⟨hc.2, ih⟩
  · obtain ⟨h0, hs⟩ := hd
    induction d using Nat.strongRecOn with
    | _ d ih =>
      rw [h.chain_of_ne_zero h0, List.forall_mem_cons] at hs
      have hlen : d < t.nodes.length := lt_of_state_ne hs.1
      have hc : t.EndedChild (t.caller d) d := ⟨h.parent_caller hlen h0, hs.1⟩
      by_cases hz : t.caller d = 0
      · rw [hz] at hc
        exact .single hc
      · exact .tail (ih _ (h.caller_lt h0) hz hs.2) hc

end WellFormed

end

end RuleTrace.CallTree
