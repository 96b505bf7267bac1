import RuleTrace.Proofs.Call.View

/-!
# Lists that have the callers

A view lists the callers of its calls (`ListsCallers`) unless it leaves some out. The calls below a
call are listed right after it, so that such a list can be read as a nest of calls.

* `WellFormed.infix_descendants`: a call and those below it are next to each other in pre-order.
* `WellFormed.listsCallers_failure`: the failure view lists callers.
* `WellFormed.listsCallers_full`: so does the full view if every call made by a hidden one is
  hidden.
-/

namespace RuleTrace

/-- The caller of every call of a list is in the list, unless it is the root. -/
def ListsCallers (nodes : List Node) : Prop :=
  ∀ n ∈ nodes, n.parent = some 0 ∨ ∃ m ∈ nodes, n.parent = some m.number

/-- Of three elements in order, the middle one is in a part that starts with the first one and has
the last one. -/
theorem mem_of_infix {α : Type} {l m : List α} {a b c : α} (hnodup : l.Nodup)
    (hm : a :: m <:+: l) (hl : [a, b, c].Sublist l) (hc : c ∈ m) : b ∈ m := by
  obtain ⟨before, after, rfl⟩ := hm
  rw [List.append_assoc] at hnodup hl
  obtain ⟨-, hrest, hbefore⟩ := List.nodup_append.1 hnodup
  have hafter := (List.nodup_append.1 (List.nodup_cons.1 hrest).2).2.2 c hc c
  obtain ⟨left, right, heq, hleft, hright⟩ := List.sublist_append_iff.1 hl
  cases left with
  | cons x left =>
    obtain rfl : a = x := (List.cons.inj heq).1
    exact absurd rfl (hbefore a (hleft.subset List.mem_cons_self) a List.mem_cons_self)
  | nil =>
    obtain rfl : [a, b, c] = right := heq
    obtain ⟨inner, outer, heq, hinner, houter⟩ :=
      List.sublist_append_iff.1 (List.cons_sublist_cons.1 hright)
    rcases List.eq_nil_or_concat outer with rfl | ⟨outer, x, rfl⟩
    · rw [List.append_nil] at heq
      exact hinner.subset (heq ▸ List.mem_cons_self)
    · obtain rfl : c = x := by simpa using congrArg List.getLast? heq
      exact absurd rfl (hafter (houter.subset (by simp)))

namespace CallTree.WellFormed

variable {t : CallTree} (h : t.WellFormed)
include h

/-! ## Pre-order -/

/-- A call and those below it are next to each other. -/
theorem infix_descendants {n d : Nat} (hn : n < t.nodes.length) (hd : d ∈ t.descendants n) :
    d :: t.descendants d <:+: t.descendants n := by
  refine h.below_induction (P := fun n => d ∈ t.descendants n →
    d :: t.descendants d <:+: t.descendants n) ?_ hn hd
  intro i hi ih hd
  rw [h.descendants_eq hi] at hd ⊢
  obtain ⟨c, hc, hd⟩ := List.mem_flatMap.1 hd
  have hbranch := List.infix_flatMap_of_mem hc fun c => c :: t.descendants c
  rcases List.mem_cons.1 hd with rfl | hd
  · exact hbranch
  · exact (List.infix_cons (ih c hc hd)).trans hbranch

/-- What is listed between a call and one below it is below it, too. -/
theorem mem_descendants_of_between {n a d c : Nat} (hn : n < t.nodes.length)
    (hbetween : [a, d, c].Sublist (t.descendants n)) (hc : c ∈ t.descendants a) :
    d ∈ t.descendants a := by
  have ha : a ∈ t.descendants n := hbetween.subset List.mem_cons_self
  exact mem_of_infix (h.nodup_descendants hn) (h.infix_descendants hn ha) hbetween hc

theorem endedChild_of_mem_descendants {n d p : Nat} (hn : n < t.nodes.length)
    (hd : d ∈ t.descendants n) (hp : (t.node d).parent = some p) : t.EndedChild p d := by
  cases (h.mem_descendants_iff hn).1 hd with
  | single hc => exact ⟨hp, hc.2⟩
  | tail _ hc => exact ⟨hp, hc.2⟩

/-! ## Views -/

/-- A filter that keeps the caller of every call that it keeps lists callers. -/
theorem listsCallers_filter {q : Nat → Bool}
    (hq : ∀ p d, t.EndedBelow 0 p → t.EndedChild p d → q d = true → q p = true) :
    ListsCallers (((t.descendants 0).filter q).map t.node) := by
  intro n hn
  obtain ⟨d, hd, rfl⟩ := List.mem_map.1 hn
  obtain ⟨hd, hqd⟩ := List.mem_filter.1 hd
  cases (h.mem_descendants_iff h.nonempty).1 hd with
  | single hc => exact .inl hc.1
  | @tail p _ hp hc =>
    have hmem := (h.mem_descendants_iff h.nonempty).2 hp
    refine .inr ⟨t.node p, List.mem_map_of_mem (List.mem_filter.2 ⟨hmem, hq p d hp hc hqd⟩), ?_⟩
    rw [h.number p (h.lt_of_mem_descendants h.nonempty hmem)]
    exact hc.1

theorem mem_of_listsCallers {ds : List Nat} (hds : ∀ d ∈ ds, d < t.nodes.length)
    (hlists : ListsCallers (ds.map t.node)) {d p : Nat} (hd : d ∈ ds)
    (hp : (t.node d).parent = some p) (h0 : p ≠ 0) : p ∈ ds := by
  rcases hlists _ (List.mem_map_of_mem hd) with hroot | ⟨m, hm, hpar⟩
  · exact absurd (Option.some.inj (hp.symm.trans hroot)) h0
  · obtain ⟨q, hq, rfl⟩ := List.mem_map.1 hm
    rw [h.number q (hds q hq), hp, Option.some.injEq] at hpar
    exact hpar ▸ hq

/-- Every view shows some of the calls below the root, in their order. -/
theorem exists_flatten_eq (patterns : List Pattern) (view : View) :
    ∃ q : Nat → Bool, t.flatten patterns view = ((t.descendants 0).filter q).map t.node := by
  cases view with
  | full => exact ⟨_, h.flatten_full patterns⟩
  | failure => exact ⟨_, h.flatten_failure patterns⟩

/-- The failure view lists callers. -/
theorem listsCallers_failure (patterns : List Pattern) :
    ListsCallers (t.flatten patterns .failure) := by
  rw [h.flatten_failure]
  refine h.listsCallers_filter fun p d hp hc hd => ?_
  have hp0 := h.lt_of_endedBelow hp
  have hd0 : t.EndedBelow 0 d := .tail hp hc
  rw [decide_eq_true_eq] at hd ⊢
  rcases hd with hd | ⟨f, hf, hfront, hdf⟩
  · exact .inr ⟨d, (h.mem_descendants_iff h.nonempty).2 hd0, hd,
      h.mem_ancestors_of_endedBelow (by omega) (.single hc)⟩
  · have hbelow := (h.endedBelow_iff_mem_ancestors hd0).2
      ⟨(h.mem_descendants_iff h.nonempty).1 hf, hdf⟩
    exact .inr ⟨f, hf, hfront, h.mem_ancestors_of_endedBelow (by omega) (.head hc hbelow)⟩

/-- The full view lists callers if all calls made by a hidden one are hidden. -/
theorem listsCallers_full {patterns : List Pattern}
    (hidden : ∀ p < t.nodes.length, p ≠ 0 → (t.node p).isHidden patterns = true →
      ∀ c ∈ (t.node p).children, (t.node c).isHidden patterns = true) :
    ListsCallers (t.flatten patterns .full) := by
  rw [h.flatten_full]
  refine h.listsCallers_filter fun p d hp hc hd => ?_
  have hp0 := h.lt_of_endedBelow hp
  have hlt := h.lt_of_mem_descendants h.nonempty ((h.mem_descendants_iff h.nonempty).2 hp)
  rw [isVisible, Bool.not_eq_true', Bool.eq_false_iff] at hd ⊢
  exact fun hidp => hd (hidden p hlt (by omega) hidp d ((h.mem_children_iff hlt).2 hc))

end CallTree.WellFormed

end RuleTrace
