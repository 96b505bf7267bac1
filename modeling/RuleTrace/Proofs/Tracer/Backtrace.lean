import RuleTrace.Proofs.Call.View
import RuleTrace.Tracer.Graph

/-!
# When there is no backtrace

A view is shown as a graph, and as a notice when it has no calls. A graph is never taken for a
notice: its first row starts with the glyph of a call, or with the escape sequence before one
(`draw_first_row`).

* `Tracer.graphText_eq_notice_iff`: the notice stands for an empty view and for nothing else.
* `WellFormed.mem_descendants_zero_iff`: a call that ended is missing below the root exactly when a
  call above it is pending.
* `Session.failure_view_run`: what the failure view shows after every run, and when it is the
  notice.
-/

namespace RuleTrace

/-! ## Graphs and notices -/

theorem stateCell_marked (ink : Ink) (isLast : Bool) (lane : Lane) :
    ∃ c row, lane.stateCell ink isLast true = c :: row ∧ c ≠ 'N' := by
  obtain ⟨state, style⟩ := lane
  cases ink <;> rcases state with _ | _ | _ <;> exact ⟨_, _, rfl, by decide⟩

theorem stateLine_singleton (ink : Ink) (lane : Lane) (isLast : Bool) :
    Lane.stateLine ink [lane] (some 0) isLast = lane.stateCell ink isLast true := by
  simp [Lane.stateLine]

/-- The first row of the first call that is drawn is its own cell, with the first line of its
label. -/
theorem place_nil_rows (ink : Ink) (item : Item) (isLast : Bool) :
    ∃ rows, (Column.place ink [] item isLast).rows =
      (Lane.stateCell ink false true ⟨item.state, laneStyle 0⟩ ++ item.label.headD []) :: rows := by
  have hrows : (Column.place ink [] item isLast).rows =
      Lane.stateRows ink [⟨item.state, laneStyle 0⟩] (some 0) item.label false := rfl
  rw [hrows]
  cases item.label with
  | nil =>
    rw [Lane.stateRows, stateLine_singleton, List.headD_nil, List.append_nil]
    exact ⟨[], rfl⟩
  | cons line rest =>
    rw [Lane.stateRows, stateLine_singleton]
    exact ⟨_, rfl⟩

theorem draw_rows_concat (ink : Ink) (spaced : Bool) (items : List Item) (item : Item) :
    ∃ rows, (draw ink spaced (items ++ [item])).rows =
      (Lane.stateCell ink false true ⟨item.state, laneStyle 0⟩ ++ item.label.headD []) :: rows := by
  obtain ⟨rows, hrows⟩ := place_nil_rows ink item items.reverse.isEmpty
  rw [draw, List.reverse_append, List.reverse_singleton, List.singleton_append, drawSteps,
    List.flatMap_cons, hrows]
  exact ⟨_, rfl⟩

theorem draw_first_row (ink : Ink) (spaced : Bool) {items : List Item} (hi : items ≠ []) :
    ∃ c row rows, (draw ink spaced items).rows = (c :: row) :: rows ∧ c ≠ 'N' := by
  obtain ⟨above, item, rfl⟩ := (List.eq_nil_or_concat' items).resolve_left hi
  obtain ⟨rows, hrows⟩ := draw_rows_concat ink spaced above item
  obtain ⟨c, cell, hcell, hc⟩ := stateCell_marked ink false ⟨item.state, laneStyle 0⟩
  rw [hrows, hcell]
  exact ⟨c, _, rows, rfl, hc⟩

theorem head?_notice (view : View) : view.notice.head? = some 'N' := by
  cases view <;> rfl

theorem unlines_ne_notice {c : Char} (hc : c ≠ 'N') (row : Text) (rows : List Text) (view : View) :
    Text.unlines ((c :: row) :: rows) ≠ view.notice := by
  intro heq
  have hhead : (Text.unlines ((c :: row) :: rows)).head? = some c := by
    cases rows <;> rfl
  rw [heq, head?_notice, Option.some.injEq] at hhead
  exact hc hhead.symm

/-- A view is shown as the notice exactly when it has no calls. -/
theorem Tracer.graphText_eq_notice_iff (t : Tracer) (view : View) :
    (t.graphText view).1 = .ok view.notice ↔ t.tree.flatten t.hidden view = [] := by
  refine ⟨fun htext => ?_, fun hnil => ?_⟩
  · refine Classical.byContradiction fun hne => ?_
    simp only [graphText, render, CallTree.draw] at htext
    split at htext
    · cases htext
    · next hlen =>
      have hdrawn : writableEnd (t.tree.flatten t.hidden view) ≠ [] := by
        intro hnil
        rw [hnil] at hlen
        exact hlen (List.length_pos_of_ne_nil hne)
      obtain ⟨c, row, rows, hrows, hc⟩ := draw_first_row t.options.ink (!t.options.showSource)
        (mt (List.map_eq_nil_iff (f := Node.item fun n => t.label n t.options.showSource [])).1
          hdrawn)
      rw [hrows] at htext
      exact unlines_ne_notice hc row rows view (Except.ok.inj htext)
  · simp only [graphText, render, CallTree.draw, hnil]
    rfl

/-! ## Members of the frontier that are missing -/

namespace CallTree.WellFormed

variable {t : CallTree} (h : t.WellFormed)
include h

/-- A call that ended is shown below the root, unless a call above it is pending. -/
theorem mem_descendants_zero_iff {f : Nat} (h0 : f ≠ 0) (hs : (t.node f).state ≠ .pending) :
    f ∈ t.descendants 0 ↔ ∀ a ∈ t.ancestors f, (t.node a).state ≠ .pending := by
  rw [h.mem_descendants_iff h.nonempty, h.endedBelow_zero_iff, h.chain_of_ne_zero h0,
    List.forall_mem_cons, ancestors]
  exact ⟨fun hd => hd.2.2, fun hd => ⟨h0, hs, hd⟩⟩

theorem state_ne_pending_of_mem_ancestors (hdepth : t.depth = 0) {f a : Nat} (h0 : f ≠ 0)
    (hf : f < t.nodes.length) (ha : a ∈ t.ancestors f) : (t.node a).state ≠ .pending := by
  have hpend : t.pending = [] := List.length_eq_zero_iff.1 (h.depth ▸ hdepth)
  have hpos := pos_le_of_mem_chain ha
  have hcaller := h.caller_lt h0
  rw [Ne, h.pending a (by omega) (by omega), hpend]
  exact List.not_mem_nil

theorem flatten_failure_eq_nil_iff (patterns : List Pattern) :
    t.flatten patterns .failure = [] ↔ ∀ f ∈ t.frontier, f ∉ t.descendants 0 := by
  rw [h.flatten_failure, List.map_eq_nil_iff, List.filter_eq_nil_iff]
  simp only [decide_eq_true_eq]
  refine ⟨fun hnone f hf hd => hnone f hd (.inl hf), fun hnone d hd hleads => ?_⟩
  rcases hleads with hf | ⟨f, hd', hf, -⟩
  · exact hnone d hf hd
  · exact hnone f hf hd'

end CallTree.WellFormed

namespace Session

/-- After every run, the failure view of a call has the members of the frontier among the calls
shown below it and those that lead to them, in pre-order; its leaves are members of the frontier,
it is there unless neither the call nor any call shown below it is one, and no pattern changes it.
When no call is pending it lists the whole frontier from the root. It is shown as the notice exactly
when above every member of the frontier there is a pending call. -/
theorem failure_view_run (calls : List TreeCall) :
    let t := (run calls).tree
    (∀ n < t.nodes.length, ∀ patterns,
      (∀ shown, t.extract patterns .failure n = some shown →
        shown.preorder = ((t.descendants n).filter fun d => t.LeadsToFrontier n d).map t.node ∧
        ∀ leaf ∈ shown.leaves, leaf.number ∈ t.frontier) ∧
      (t.extract patterns .failure n = none ↔
        n ∉ t.frontier ∧ ∀ f ∈ t.descendants n, f ∉ t.frontier) ∧
      ∀ patterns', t.extract patterns' .failure n = t.extract patterns .failure n) ∧
    (t.depth = 0 → ∀ patterns, ∀ f ∈ t.frontier, t.node f ∈ t.flatten patterns .failure) ∧
    ∀ tracer : Tracer, tracer.tree = t →
      ((tracer.graphText .failure).1 = .ok View.failure.notice ↔
        ∀ f ∈ t.frontier, ∃ a ∈ t.ancestors f, (t.node a).state = .pending) := by
  intro t
  have h : t.WellFormed := (run_inv calls).1.toWellFormed
  have hended : ∀ f ∈ t.frontier, f ≠ 0 ∧ (t.node f).state ≠ .pending := by
    intro f hf
    have hs : (t.node f).state = .resolved .failed := (mem_frontier_run hf).1
    refine ⟨fun h0 => ?_, by simp [hs]⟩
    rw [h0, h.root.2.2.2] at hs
    cases hs
  have hmem : ∀ f ∈ t.frontier,
      f ∈ t.descendants 0 ↔ ∀ a ∈ t.ancestors f, (t.node a).state ≠ .pending := by
    intro f hf
    exact h.mem_descendants_zero_iff (hended f hf).1 (hended f hf).2
  refine ⟨fun n hn patterns => ⟨fun shown hs => ?_, h.extract_failure_eq_none_iff hn patterns,
    fun _ => rfl⟩, fun hdepth patterns f hf => ?_, ?_⟩
  · rw [CallTree.extract_failure_eq_some hs]
    refine ⟨h.preorder_failure hn, fun leaf hleaf => ?_⟩
    have hin : t.inFrontier leaf = true := Forest.leaves_prune t.inFrontier hleaf
    exact List.contains_iff_mem.1 hin
  · rw [h.flatten_failure]
    refine List.mem_map_of_mem (List.mem_filter.2 ⟨(hmem f hf).2 fun a ha => ?_, ?_⟩)
    · obtain ⟨h0, hs⟩ := hended f hf
      exact h.state_ne_pending_of_mem_ancestors hdepth h0 (CallTree.lt_of_state_ne hs) ha
    · exact decide_eq_true (.inl hf)
  · intro tracer ht
    rw [tracer.graphText_eq_notice_iff, ht, h.flatten_failure_eq_nil_iff]
    refine forall₂_congr fun f hf => ?_
    rw [hmem f hf]
    simp

/-- Once all calls ended, the failed one is in the failure view. While the call of `a` is pending,
nothing is below the root and the notice is shown. -/
theorem failure_view_run_nestedCalls :
    let t := (run nestedCalls).tree
    let u := (run nestedCalls.dropLast).tree
    (t.depth = 0 ∧ t.node 3 ∈ t.flatten [] .failure) ∧
      (0 < u.nodes.length ∧ u.extract [] .failure 0 = none) ∧
      ∃ tracer : Tracer, tracer.tree = u ∧
        (tracer.graphText .failure).1 = .ok View.failure.notice := by
  intro t u
  have hdepth : t.depth = 0 := by decide
  have hfrontier : u.frontier = [3] := by decide
  obtain ⟨hview, -, hnotice⟩ := failure_view_run nestedCalls.dropLast
  refine ⟨⟨hdepth, (failure_view_run nestedCalls).2.1 hdepth [] 3 (by decide)⟩,
    ⟨by decide, ?_⟩, ?_⟩
  · have hnil : u.descendants 0 = [] :=
      (run_inv nestedCalls.dropLast).1.toWellFormed.descendants_eq (by decide)
    refine (hview 0 (by decide) []).2.1.2 ⟨by decide, fun f hf => ?_⟩
    rw [hnil] at hf
    cases hf
  · refine ⟨⟨{}, ⟨[]⟩, [], ⟨false, false⟩, u⟩, rfl, (hnotice _ rfl).2 fun f hf => ?_⟩
    rw [hfrontier, List.mem_singleton] at hf
    subst hf
    have hup : u.ancestors 3 = [2, 1] := by
      rw [CallTree.ancestors_of_caller (p := 2) (by decide) (by decide),
        CallTree.ancestors_of_caller (p := 1) (by decide) (by decide),
        CallTree.ancestors_of_caller_eq_zero (by decide)]
    rw [hup]
    exact ⟨1, by simp, by decide⟩

end Session

end RuleTrace
