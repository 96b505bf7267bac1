import RuleTrace.Proofs.Call.Listing
import RuleTrace.Proofs.Graph.Rows

/-!
# Drawings without crossings

A list that has the callers of its calls is a nest: the calls between a call and one made by it were
made by the same caller or by others between the two (`IsNested`). The columns of its drawing are a
stack then. They have the calls in the order in which they were drawn, so that those made by the
next call are on the right (`StacksUp.exists_callees`), and every lane is led into the one next to
it.

* `CallTree.isNested_flatten`: a view that lists callers is a nest.
* `StacksUp.place`: drawing a call keeps the columns in order.
* `Session.planar_run`: in a view that lists callers no lane is crossed.
-/

namespace RuleTrace

/-! ## Edges -/

/-- An edge that leads one of some lanes into another one. -/
structure Edge where
  source : Nat
  target : Nat
  lanes : List Lane
deriving DecidableEq, Repr

/-- The two rows of an edge. -/
def Edge.rows (ink : Ink) (e : Edge) : List Text :=
  Lane.mergeEdge ink e.source e.target e.lanes

/-- Whether the line of an edge crosses a lane on its way. -/
def Edge.Crosses (e : Edge) (i : Nat) : Prop :=
  e.target < i ∧ i < e.source

/-- The edges that lead lanes into a target lane, one after the other. -/
def Lane.edgesInto (target : Nat) : List Nat → List Lane → List Edge
  | [], _ => []
  | source :: sources, lanes =>
    ⟨source, target, lanes⟩ ::
      edgesInto target (sources.map fun i => if source < i then i - 1 else i)
        (lanes.eraseIdx source)
termination_by sources => sources.length
decreasing_by simp

/-- The edges of a call that is drawn. -/
def Column.edges (columns : List Column) (item : Item) : List Edge :=
  match ofCaller item.number columns with
  | [] => []
  | target :: merged => Lane.edgesInto target (merged.mergeSort (· ≤ ·)) (columns.map lane)

theorem Lane.edgesInto_cons (target source : Nat) (sources : List Nat) (lanes : List Lane) :
    edgesInto target (source :: sources) lanes = ⟨source, target, lanes⟩ ::
      edgesInto target (sources.map fun i => if source < i then i - 1 else i)
        (lanes.eraseIdx source) := by
  rw [edgesInto]

theorem Lane.mergeAll_eq (ink : Ink) (target : Nat) (sources : List Nat) (lanes : List Lane) :
    (mergeAll ink target sources lanes).1 =
      (edgesInto target sources lanes).flatMap (·.rows ink) := by
  induction sources, lanes using mergeAll_induction with
  | nil lanes =>
    rw [mergeAll, edgesInto]
    rfl
  | cons source sources lanes ih =>
    rw [mergeAll_cons, edgesInto_cons, List.flatMap_cons, ← ih]
    rfl

/-- The rows of a call that is drawn: those of its edges, then those of its label. -/
theorem Column.rows_place_eq (ink : Ink) (columns : List Column) (item : Item) (isLast : Bool) :
    ∃ place last, (Column.place ink columns item isLast).rows =
      (edges columns item).flatMap (·.rows ink) ++
        Lane.stateRows ink ((Column.place ink columns item isLast).columns.map lane) (some place)
          item.label last := by
  cases htaken : ofCaller item.number columns with
  | nil =>
    simp only [Column.place, edges, htaken]
    exact ⟨_, _, rfl⟩
  | cons target merged =>
    simp only [Column.place, edges, htaken, ← Lane.mergeAll_eq]
    exact ⟨_, _, rfl⟩

/-- Lanes next to each other are led, one by one, into the one before them. -/
theorem Lane.adjacent_of_mem_edgesInto {target count : Nat} {lanes : List Lane} {e : Edge}
    (he : e ∈ edgesInto target (List.range' (target + 1) count) lanes) :
    e.target = target ∧ e.source = target + 1 := by
  induction count generalizing lanes with
  | zero =>
    rw [List.range'_zero, edgesInto] at he
    cases he
  | succ count ih =>
    have hmoved : (List.range' (target + 1 + 1) count).map
        (fun i => if target + 1 < i then i - 1 else i) = List.range' (target + 1) count := by
      rw [← Nat.add_sub_cancel (n := target + 1) (m := 1), ← List.map_sub_range' (by omega)]
      refine List.map_congr_left fun i hi => ?_
      have := (List.mem_range'_1.1 hi).1
      rw [if_pos (by omega)]
    rw [List.range'_succ, edgesInto_cons, hmoved] at he
    rcases List.mem_cons.1 he with rfl | he
    · exact ⟨rfl, rfl⟩
    · exact ih he

theorem Column.adjacent_of_mem_edges {columns : List Column} {item : Item} {start count : Nat}
    (htaken : ofCaller item.number columns = List.range' start count) {e : Edge}
    (he : e ∈ edges columns item) : e.source = e.target + 1 := by
  rw [edges, htaken] at he
  cases count with
  | zero => cases he
  | succ count =>
    have hsort : (List.range' (start + 1) count).mergeSort (· ≤ ·) =
        List.range' (start + 1) count :=
      List.mergeSort_of_pairwise ((List.pairwise_lt_range' 1).imp fun hlt => by
        simpa using Nat.le_of_lt hlt)
    rw [List.range'_succ] at he
    simp only [hsort] at he
    obtain ⟨htarget, hsource⟩ := Lane.adjacent_of_mem_edgesInto he
    rw [hsource, htarget]

/-! ## Underscores -/

/-- An edge between lanes next to each other has no underscore. -/
theorem Edge.underscore_notMem {e : Edge} (h : e.source = e.target + 1) :
    ∀ row ∈ e.rows .plain, '_' ∉ row := by
  have hupper : ∀ i lane, '_' ∉ Lane.upperCell .plain (e.lanes[e.source]?.bind Lane.style) e.source
      e.target i lane := by
    intro i lane
    simp only [Lane.upperCell, Ink.plain_paint]
    split
    · decide
    · rw [if_neg (by omega), if_neg (by omega)]
      split <;> decide
  have hlower : ∀ i lane, '_' ∉ Lane.lowerCell .plain (e.lanes[e.source]?.bind Lane.style) e.source
      e.target e.lanes[i + 1]? i lane := by
    intro i lane
    simp only [Lane.lowerCell, Ink.plain_paint]
    repeat' split
    all_goals decide
  intro row hrow hmem
  rcases List.mem_cons.1 hrow with rfl | hrow
  · exact Lane.forall_mem_cells (fun i lane _ hc => ne_of_mem_of_not_mem hc (hupper i lane))
      e.lanes _ hmem rfl
  · rw [List.mem_singleton.1 hrow] at hmem
    exact Lane.forall_mem_cells (fun i lane _ hc => ne_of_mem_of_not_mem hc (hlower i lane))
      e.lanes _ hmem rfl

theorem Lane.underscore_notMem_stateRows (lanes : List Lane) (column : Option Nat)
    (isLast : Bool) : ∀ row ∈ stateRows .plain lanes column [] isLast, '_' ∉ row := by
  have hcell : ∀ (i : Nat) (lane : Lane), '_' ∉ lane.stateCell .plain isLast
      (column == some i) := by
    intro i lane
    simp only [stateCell, Ink.plain_paint]
    split
    · rcases lane.state with _ | _ | _ <;> decide
    · split <;> decide
  intro row hrow hmem
  rw [List.mem_singleton.1 hrow] at hmem
  exact forall_mem_cells (fun i lane _ hc => ne_of_mem_of_not_mem hc (hcell i lane)) lanes _ hmem
    rfl

/-! ## Nests -/

/-- The calls listed between a call and one made by it have callers that are listed there, too. -/
def IsNested (items : List Item) : Prop :=
  ∀ i b j, IsCaller items i j → i < b → b < j → ∃ m, i ≤ m ∧ IsCaller items m b

/-- The calls drawn between a call and its caller have callers that are drawn by then. -/
structure IsNestedOrder (items : List Item) : Prop extends IsDrawOrder items where
  nested : ∀ b c k, IsCaller items k b → b < c → c < k → ∃ m ≤ k, IsCaller items m c

theorem IsListing.reverse_nested {items : List Item} (h : IsListing items)
    (hnested : IsNested items) : IsNestedOrder items.reverse where
  toIsDrawOrder := h.reverse
  nested b c k hcall hb hc := by
    have hlt := hcall.lt_length
    rw [List.length_reverse] at hlt
    obtain ⟨m, hm, hcaller⟩ := hnested _ (items.length - 1 - c) _
      ((isCaller_reverse hlt.1 hlt.2).1 hcall) (by omega) (by omega)
    have hmlt := hcaller.lt_length.1
    refine ⟨items.length - 1 - m, by omega, (isCaller_reverse (by omega) (by omega)).2 ?_⟩
    rwa [show items.length - 1 - (items.length - 1 - m) = m by omega]

namespace CallTree

/-- Who called whom in a list of calls. -/
theorem isCaller_map_iff {t : CallTree} (h : t.WellFormed) {ds : List Nat}
    (hds : ∀ d ∈ ds, d < t.nodes.length) (label : Node → List Text) {i j : Nat} :
    IsCaller ((ds.map t.node).map (·.item label)) i j ↔
      ∃ p c, ds[i]? = some p ∧ ds[j]? = some c ∧ (t.node c).parent = some p := by
  simp only [IsCaller, List.getElem?_map, Option.map_eq_some_iff]
  constructor
  · rintro ⟨_, _, ⟨_, ⟨p, hp, rfl⟩, rfl⟩, ⟨_, ⟨c, hc, rfl⟩, rfl⟩, hpar⟩
    rw [Node.item_parent_eq, h.number p (hds p (List.mem_of_getElem? hp))] at hpar
    exact ⟨p, c, hp, hc, hpar⟩
  · rintro ⟨p, c, hp, hc, hpar⟩
    refine ⟨_, _, ⟨_, ⟨p, hp, rfl⟩, rfl⟩, ⟨_, ⟨c, hc, rfl⟩, rfl⟩, ?_⟩
    rw [Node.item_parent_eq, h.number p (hds p (List.mem_of_getElem? hp))]
    exact hpar

section
variable {t : CallTree} (h : t.WellFormed) {ds : List Nat} (hsub : ds.Sublist (t.descendants 0))
  (hlists : ListsCallers (ds.map t.node))
include h hsub hlists

/-- A list that has callers has a call before all those below it. -/
theorem lt_of_endedBelow (label : Node → List Text)
    (hlisting : IsListing ((ds.map t.node).map (·.item label))) {a p : Nat}
    (hp : t.EndedBelow a p) {i m : Nat} (hi : ds[i]? = some a) (hm : ds[m]? = some p) : i < m := by
  have hds : ∀ d ∈ ds, d < t.nodes.length := fun d hd =>
    h.lt_of_mem_descendants h.nonempty (hsub.subset hd)
  induction hp generalizing m with
  | single hc =>
    exact hlisting.caller_lt i m ((isCaller_map_iff h hds label).2 ⟨_, _, hi, hm, hc.1⟩)
  | @tail p d hp hc ih =>
    have h0 : p ≠ 0 := Nat.ne_of_gt (Nat.zero_lt_of_lt (h.lt_of_endedBelow hp))
    obtain ⟨k, hk⟩ := List.mem_iff_getElem?.1
      (h.mem_of_listsCallers hds hlists (List.mem_of_getElem? hm) hc.1 h0)
    have hkm := hlisting.caller_lt k m ((isCaller_map_iff h hds label).2 ⟨_, _, hk, hm, hc.1⟩)
    exact Nat.lt_trans (ih hk) hkm

/-- A list that has callers is a nest. -/
theorem isNested_of_listsCallers (label : Node → List Text)
    (hlisting : IsListing ((ds.map t.node).map (·.item label))) :
    IsNested ((ds.map t.node).map (·.item label)) := by
  have hmem : ∀ d ∈ ds, d ∈ t.descendants 0 := fun d hd => hsub.subset hd
  have hds : ∀ d ∈ ds, d < t.nodes.length := fun d hd =>
    h.lt_of_mem_descendants h.nonempty (hmem d hd)
  intro i b j hcall hib hbj
  obtain ⟨a, c, ha, hc, hpar⟩ := (isCaller_map_iff h hds label).1 hcall
  obtain ⟨hjlt, rfl⟩ := List.getElem?_eq_some_iff.1 hc
  obtain ⟨hilt, rfl⟩ := List.getElem?_eq_some_iff.1 ha
  have hchild := h.endedChild_of_mem_descendants h.nonempty (hmem _ (List.getElem_mem hjlt)) hpar
  have hbelow : ds[j] ∈ t.descendants ds[i] :=
    (h.mem_descendants_iff (hds _ (List.getElem_mem hilt))).2 (.single hchild)
  have hbetween : [ds[i], ds[b], ds[j]].Sublist ds :=
    @List.map_getElem_sublist _ ds [⟨i, by omega⟩, ⟨b, by omega⟩, ⟨j, hjlt⟩] (by simp; omega)
  have hd := h.mem_descendants_of_between h.nonempty (hbetween.trans hsub) hbelow
  have hb : ds[b]? = some ds[b] := List.getElem?_eq_getElem (by omega)
  cases (h.mem_descendants_iff (hds _ (List.getElem_mem hilt))).1 hd with
  | single hcb => exact ⟨i, Nat.le_refl i, (isCaller_map_iff h hds label).2 ⟨_, _, ha, hb, hcb.1⟩⟩
  | @tail p _ hp hcb =>
    have h0 : p ≠ 0 := Nat.ne_of_gt (Nat.zero_lt_of_lt (h.lt_of_endedBelow hp))
    obtain ⟨m, hm⟩ := List.mem_iff_getElem?.1
      (h.mem_of_listsCallers hds hlists (List.mem_of_getElem? hb) hcb.1 h0)
    exact ⟨m, Nat.le_of_lt (lt_of_endedBelow h hsub hlists label hlisting hp ha hm),
      (isCaller_map_iff h hds label).2 ⟨_, _, hm, hb, hcb.1⟩⟩

end

/-- A view that lists callers is a nest. -/
theorem isNested_flatten {t : CallTree} (h : t.WellFormed) {patterns : List Pattern} {view : View}
    (hlists : ListsCallers (t.flatten patterns view)) (label : Node → List Text) :
    IsNested ((t.flatten patterns view).map (·.item label)) := by
  have hlisting := isListing_flatten h patterns view label
  obtain ⟨q, hq⟩ := h.exists_flatten_eq patterns view
  rw [hq] at hlists hlisting ⊢
  exact isNested_of_listsCallers h List.filter_sublist hlists label hlisting

end CallTree

/-! ## The columns as a stack -/

/-- The columns have, in the order in which they were drawn, the first `k` calls but for those whose
caller is among them. -/
def StacksUp (items : List Item) (k : Nat) (columns : List Column) : Prop :=
  ∃ calls : List (Nat × Item), calls.map (·.2) = columns.map (·.item) ∧
    (calls.map (·.1)).Pairwise (· < ·) ∧ IsOpen items k calls

theorem stacksUp_nil (items : List Item) : StacksUp items 0 [] := by
  refine ⟨[], rfl, List.Pairwise.nil, fun b y => ?_⟩
  simp

theorem StacksUp.occupies {items : List Item} {k : Nat} {columns : List Column}
    (h : StacksUp items k columns) : Occupies items k columns := by
  obtain ⟨calls, hitems, hsorted, hopen⟩ := h
  exact ⟨calls, hitems, hsorted.imp Nat.ne_of_lt, hopen⟩

section
variable {items : List Item} (h : IsNestedOrder items) {k : Nat} {x : Item}
  (hx : items[k]? = some x)
include h hx

/-- The calls made by the next call come last. -/
theorem exists_callees {calls : List (Nat × Item)} (hsorted : (calls.map (·.1)).Pairwise (· < ·))
    (hopen : IsOpen items k calls) :
    ∃ others callees, calls = others ++ callees ∧
      (∀ c ∈ others, (c.2.parent == some x.number) = false) ∧
      ∀ c ∈ callees, (c.2.parent == some x.number) = true := by
  rcases exists_first (fun c : Nat × Item => c.2.parent == some x.number) calls with
    hnone | ⟨others, first, rest, rfl, hothers, hfirst⟩
  · exact ⟨calls, [], (List.append_nil calls).symm, hnone, nofun⟩
  · refine ⟨others, first :: rest, rfl, hothers, List.forall_mem_cons.2 ⟨hfirst, fun c hc => ?_⟩⟩
    rw [List.map_append, List.map_cons, List.pairwise_append, List.pairwise_cons] at hsorted
    have hlt := hsorted.2.1.1 c.1 (List.mem_map_of_mem hc)
    have hmem : c ∈ others ++ first :: rest :=
      List.mem_append_right _ (List.mem_cons_of_mem _ hc)
    obtain ⟨hck, hy, hnone⟩ := (hopen c.1 c.2).1 hmem
    have hcaller : IsCaller items k first.1 := (mem_columns_iff h.toIsDrawOrder hopen hx _).1
      ⟨first.2, List.mem_append_right _ List.mem_cons_self, by simpa using hfirst⟩
    -- the caller of `c` is drawn by now, and not before
    obtain ⟨m, hm, hmc⟩ := h.nested _ _ _ hcaller hlt hck
    have hmk : m = k := by
      by_contra hne
      exact hnone m (by omega) hmc
    rw [hmk, isCaller_iff hx] at hmc
    obtain ⟨z, hz, hpar⟩ := hmc
    obtain rfl : c.2 = z := Option.some.inj (hy.symm.trans hz)
    simpa using hpar

end

theorem findIdxs_of_forall {α : Type} {p : α → Bool} {l : List α} (h : ∀ a ∈ l, p a = true)
    (k : Nat) : l.findIdxs p k = List.range' k l.length := by
  induction l generalizing k with
  | nil => rfl
  | cons a l ih =>
    rw [List.findIdxs_cons, if_pos (h a List.mem_cons_self),
      ih (fun b hb => h b (List.mem_cons_of_mem a hb)), List.length_cons, List.range'_succ]

/-- A new element takes the place of all those at the end that the test holds of. -/
theorem settle_top {α : Type} {p : α → Bool} {u v : List α} (hu : ∀ b ∈ u, p b = false)
    (hv : ∀ b ∈ v, p b = true) (a : α) :
    settle ((u ++ v).findIdxs p) a (u ++ v) = u ++ [a] := by
  cases v with
  | nil =>
    rw [List.append_nil]
    exact settle_of_forall hu a
  | cons t v =>
    rw [List.forall_mem_cons] at hv
    rw [settle_append hu hv.1, List.filter_eq_nil_iff.2 fun b hb => by simp [hv.2 b hb]]

section
variable {items : List Item} (h : IsNestedOrder items) {k : Nat} {columns : List Column}
  (hcols : StacksUp items k columns) {x : Item} (hx : items[k]? = some x)
include h hcols hx

/-- The next call takes the place of those made by it, which are on the right. -/
theorem StacksUp.place (ink : Ink) (isLast : Bool) :
    StacksUp items (k + 1) (Column.place ink columns x isLast).columns := by
  obtain ⟨calls, hitems, hsorted, hopen⟩ := hcols
  obtain ⟨others, callees, rfl, hothers, hcallees⟩ := exists_callees h hx hsorted hopen
  refine ⟨_, map_item_place hitems ink x isLast k, ?_, hopen.settle h.toIsDrawOrder hx⟩
  rw [settle_top hothers hcallees, List.map_append, List.pairwise_append]
  rw [List.map_append, List.pairwise_append] at hsorted
  refine ⟨hsorted.1, List.pairwise_singleton _ _, fun b hb c hc => ?_⟩
  obtain ⟨⟨b, y⟩, hmem, rfl⟩ := List.mem_map.1 hb
  obtain rfl : c = k := by simpa using hc
  exact ((hopen b y).1 (List.mem_append_left _ hmem)).1

/-- The calls made by the next call are in the rightmost columns, and there are no others. -/
theorem StacksUp.rightmost :
    let count := calleeCount items x
    count ≤ columns.length ∧
      Column.ofCaller x.number columns = List.range' (columns.length - count) count ∧
      ((columns.map (·.item)).drop (columns.length - count)).Perm
        (items.filter fun y => y.parent == some x.number) := by
  have hcount := hcols.occupies.length_ofCaller h.toIsDrawOrder hx
  have hperm := hcols.occupies.perm_callees h.toIsDrawOrder hx
  obtain ⟨calls, hitems, hsorted, hopen⟩ := hcols
  obtain ⟨others, callees, rfl, hothers, hcallees⟩ := exists_callees h hx hsorted hopen
  have hlength : columns.length = others.length + callees.length := by
    simpa using (congrArg List.length hitems).symm
  have htaken : Column.ofCaller x.number columns =
      List.range' others.length callees.length := by
    rw [ofCaller_of_map_eq hitems, List.findIdxs_append, List.findIdxs_eq_nil_iff.2 hothers,
      findIdxs_of_forall hcallees, List.nil_append, Nat.zero_add]
  rw [htaken, List.length_range'] at hcount
  have hleft : columns.length - calleeCount items x = others.length := by omega
  have hright : ((others ++ callees).map (·.2)).filter (fun y => y.parent == some x.number) =
      callees.map (·.2) := by
    rw [List.map_append, List.filter_append,
      List.filter_eq_nil_iff.2 (List.forall_mem_map.2 fun c hc => by simp [hothers c hc]),
      List.filter_eq_self.2 (List.forall_mem_map.2 hcallees), List.nil_append]
  rw [← hitems, hright] at hperm
  intro count
  refine ⟨by omega, by rw [hleft, htaken, hcount], ?_⟩
  rw [hleft, ← hitems, List.map_append, List.drop_left' (List.length_map _)]
  exact hperm

end

/-! ## Drawings -/

/-- A call is drawn over some columns without a crossing: the calls made by it are in the rightmost
ones, and each of its edges leads a lane into the one to the left of it. -/
structure IsPlanarStep (ink : Ink) (items : List Item) (before : List Column) (x : Item)
    (step : DrawStep) : Prop where
  callees : ((before.map (·.item)).drop (before.length - calleeCount items x)).Perm
    (items.filter fun y => y.parent == some x.number)
  taken : Column.ofCaller x.number before =
    List.range' (before.length - calleeCount items x) (calleeCount items x)
  rows : ∃ place last space, step.rows = (Column.edges before x).flatMap (·.rows ink) ++
    Lane.stateRows ink (step.columns.map Column.lane) (some place) x.label last ++ space ∧
    ∀ row ∈ space, row = Lane.stateLine ink (step.columns.map Column.lane) none false
  adjacent : ∀ e ∈ Column.edges before x, e.source = e.target + 1
  uncrossed : ∀ e ∈ Column.edges before x, ∀ i, ¬e.Crosses i

section
variable (ink : Ink) (spaced : Bool) {items : List Item}

/-- No step of the drawing of a nest crosses a lane. -/
theorem isPlanarStep_drawSteps (h : IsNestedOrder items) {m : Nat} {x : Item}
    (hx : items[m]? = some x) :
    let steps := drawSteps ink spaced [] items
    ∃ step, steps[m]? = some step ∧
      IsPlanarStep ink items (columnsAfter [] (steps.take m)) x step := by
  intro steps
  have hstacks : StacksUp items m (columnsAfter [] (steps.take m)) :=
    drawSteps_induction ink spaced (stacksUp_nil items)
      (fun _ _ _ isLast hx hcols => hcols.place h hx ink isLast)
      (Nat.le_of_lt (List.getElem?_eq_some_iff.1 hx).1)
  obtain ⟨-, htaken, hcallees⟩ := hstacks.rightmost h hx
  obtain ⟨place, last, hrows⟩ := Column.rows_place_eq ink (columnsAfter [] (steps.take m)) x
    (items.drop (m + 1)).isEmpty
  have hadjacent : ∀ e ∈ Column.edges (columnsAfter [] (steps.take m)) x,
      e.source = e.target + 1 := fun e => Column.adjacent_of_mem_edges htaken
  refine ⟨_, getElem?_drawSteps ink spaced [] items hx, hcallees, htaken,
    ⟨place, last, _, congrArg (· ++ _) hrows, fun row hrow => ?_⟩, hadjacent, fun e he i hi => ?_⟩
  · split at hrow
    · exact List.mem_singleton.1 hrow
    · cases hrow
  · have := hadjacent e he
    obtain ⟨hlt, hgt⟩ := hi
    omega

/-- Without labels the plain drawing of a nest has no underscore. -/
theorem underscore_notMem_drawSteps (h : IsNestedOrder items)
    (hlabels : ∀ item ∈ items, item.label = []) :
    ∀ row ∈ (drawSteps .plain spaced [] items).flatMap (·.rows), '_' ∉ row := by
  intro row hrow
  obtain ⟨step, hstep, hrow⟩ := List.mem_flatMap.1 hrow
  obtain ⟨m, hm⟩ := List.mem_iff_getElem?.1 hstep
  have hlt := (List.getElem?_eq_some_iff.1 hm).1
  rw [length_drawSteps] at hlt
  obtain ⟨_, hstep', hplanar⟩ :=
    isPlanarStep_drawSteps .plain spaced h (List.getElem?_eq_getElem hlt)
  obtain rfl := Option.some.inj (hm.symm.trans hstep')
  obtain ⟨place, last, space, hrows, hspace⟩ := hplanar.rows
  rw [hlabels _ (List.getElem_mem hlt)] at hrows
  rw [hrows] at hrow
  rcases List.mem_append.1 hrow with hrow | hrow
  · rcases List.mem_append.1 hrow with hrow | hrow
    · obtain ⟨e, he, hrow⟩ := List.mem_flatMap.1 hrow
      exact Edge.underscore_notMem (hplanar.adjacent e he) row hrow
    · exact Lane.underscore_notMem_stateRows _ _ last row hrow
  · exact Lane.underscore_notMem_stateRows _ none false row
      (List.mem_singleton.2 (hspace row hrow))

end

theorem IsPlanarStep.of_reverse {ink : Ink} {items : List Item} {before : List Column} {x : Item}
    {step : DrawStep} (h : IsPlanarStep ink items.reverse before x step) :
    IsPlanarStep ink items before x step := by
  have hcount : calleeCount items.reverse x = calleeCount items x := List.countP_reverse
  obtain ⟨hcallees, htaken, hrows, hadjacent, huncrossed⟩ := h
  rw [hcount] at hcallees htaken
  exact ⟨hcallees.trans ((List.reverse_perm items).filter _), htaken, hrows, hadjacent, huncrossed⟩

/-- After every run, the failure view lists callers, and so does the full view if all ended calls
made by a hidden one are hidden. For a view that lists callers, every step of the drawing finds the
calls made by its call in the rightmost columns, no edge crosses a lane, and without labels the
plain drawing has no underscore. -/
theorem Session.planar_run (calls : List TreeCall) (patterns : List Pattern) :
    let t := (run calls).tree
    ListsCallers (t.flatten patterns .failure) ∧
    ((∀ p < t.nodes.length, p ≠ 0 → (t.node p).isHidden patterns = true →
        ∀ c ∈ (t.node p).children, (t.node c).isHidden patterns = true) →
      ListsCallers (t.flatten patterns .full)) ∧
    ∀ view, ListsCallers (t.flatten patterns view) → ∀ spaced (label : Node → List Text),
      let items := (t.flatten patterns view).map (·.item label)
      (∀ ink i x, items[i]? = some x → ∃ step,
        (drawSteps ink spaced [] items.reverse)[items.length - 1 - i]? = some step ∧
        IsPlanarStep ink items (columnsFrom ink spaced items (i + 1)) x step) ∧
      ((∀ item ∈ items, item.label = []) →
        ∀ row ∈ (draw .plain spaced items).rows, '_' ∉ row) := by
  intro t
  have h : t.WellFormed := (run_inv calls).1.toWellFormed
  refine ⟨h.listsCallers_failure patterns, h.listsCallers_full, fun view hlists spaced label => ?_⟩
  intro items
  have horder : IsNestedOrder items.reverse :=
    (CallTree.isListing_flatten h patterns view label).reverse_nested
      (CallTree.isNested_flatten h hlists label)
  refine ⟨fun ink i x hx => ?_, fun hlabels => ?_⟩
  · have hlt := (List.getElem?_eq_some_iff.1 hx).1
    have hx' : items.reverse[items.length - 1 - i]? = some x := by
      rw [List.getElem?_reverse (by omega),
        show items.length - 1 - (items.length - 1 - i) = i by omega, hx]
    obtain ⟨step, hstep, hplanar⟩ := isPlanarStep_drawSteps ink spaced horder hx'
    refine ⟨step, hstep, ?_⟩
    rw [columnsFrom, show items.length - (i + 1) = items.length - 1 - i by omega]
    exact hplanar.of_reverse
  · exact underscore_notMem_drawSteps spaced horder fun item hitem =>
      hlabels item (List.mem_reverse.1 hitem)

/-- A call of `a` that made calls of `b`, `d` and `e`, of which `b` made one of `c`. -/
def siblingCalls : List TreeCall :=
  [.enter ['a'] .origin, .enter ['b'] .origin, .enter ['c'] .origin,
    .leave .failed ['c'] .origin, .leave .matched ['b'] .origin, .enter ['d'] .origin,
    .leave .failed ['d'] .origin, .enter ['e'] .origin, .leave .failed ['e'] .origin,
    .leave .matched ['a'] .origin]

/-- With the calls of `b` and `c` hidden, no lane of the drawing is crossed. -/
theorem Session.planar_run_siblingCalls :
    let t := (run siblingCalls).tree
    let patterns : List Pattern := [⟨['b'], .chars (.single 'b')⟩]
    (t.node 2).isHidden patterns = true ∧
      ListsCallers (t.flatten patterns .full) ∧
      ∀ row ∈ (draw .plain true ((t.flatten patterns .full).map (·.item fun _ => []))).rows,
        '_' ∉ row := by
  intro t patterns
  obtain ⟨-, hfull, hdraw⟩ := planar_run siblingCalls patterns
  have hlists := hfull (by decide)
  refine ⟨by decide, hlists, (hdraw .full hlists true fun _ => []).2 fun item hitem => ?_⟩
  obtain ⟨n, -, rfl⟩ := List.mem_map.1 hitem
  rfl

end RuleTrace
