import RuleTrace.Proofs.Call.View
import RuleTrace.Proofs.Graph.Reading
import RuleTrace.Tracer.Graph

/-!
# Who called whom, from a drawing

The calls of a list are drawn from the last one to the first, so that a caller finds the calls made
by it in the columns: those that were drawn before and whose caller was not (`IsOpen`). If callers
come first in the list and numbers are distinct, the places that each call takes say which calls it
made.

* `mem_takenCalls`: the calls at the places that a call takes are the calls made by it.
* `CallTree.isListing_flatten`: every view lists callers first.
* `Session.draw_faithful`: the rows of a drawing determine the states of calls and who called whom.
-/

namespace RuleTrace

/-- The item at place `i` of a list is the caller of the one at place `j`. -/
def IsCaller (items : List Item) (i j : Nat) : Prop :=
  ∃ p c, items[i]? = some p ∧ items[j]? = some c ∧ c.parent = some p.number

/-- The numbers in a list are distinct, and callers come before the calls made by them. -/
structure IsListing (items : List Item) : Prop where
  nodup : (items.map (·.number)).Nodup
  caller_lt : ∀ i j, IsCaller items i j → i < j

theorem IsListing.of_pairwise {items : List Item} (hnodup : (items.map (·.number)).Nodup)
    (hself : ∀ a ∈ items, a.parent ≠ some a.number)
    (hfirst : items.Pairwise fun a b => a.parent ≠ some b.number) : IsListing items where
  nodup := hnodup
  caller_lt := by
    rintro i j ⟨p, c, hp, hc, hpar⟩
    obtain ⟨hi, rfl⟩ := List.getElem?_eq_some_iff.1 hp
    obtain ⟨hj, rfl⟩ := List.getElem?_eq_some_iff.1 hc
    rcases Nat.lt_trichotomy i j with hlt | rfl | hgt
    · exact hlt
    · exact absurd hpar (hself _ (List.getElem_mem hi))
    · exact absurd hpar (List.pairwise_iff_getElem.1 hfirst j i hj hi hgt)

/-! ## Views -/

theorem Node.item_parent_eq (label : Node → List Text) (n m : Node) :
    (n.item label).parent = some (m.item label).number ↔ n.parent = some m.number := by
  cases hparent : n.parent with
  | none => simp [Node.item, hparent]
  | some p => simp only [Node.item, hparent, Option.map_some, Option.some.injEq, Int.ofNat_inj]

namespace CallTree

theorem isListing_of_descendants {t : CallTree} (h : t.WellFormed) (q : Nat → Bool)
    (label : Node → List Text) :
    IsListing ((((t.descendants 0).filter q).map t.node).map (·.item label)) := by
  have hnumber : ∀ d ∈ (t.descendants 0).filter q, (t.node d).number = d := fun d hd =>
    h.number d (h.lt_of_mem_descendants h.nonempty (List.mem_filter.1 hd).1)
  have hnodup := (h.nodup_descendants h.nonempty).filter q
  have hfirst := (h.pairwise_descendants h.nonempty).filter q
  generalize (t.descendants 0).filter q = ds at hnumber hnodup hfirst
  refine .of_pairwise ?_ ?_ ?_
  · have hmap : ((ds.map t.node).map (·.item label)).map (·.number) =
        ds.map fun d : Nat => (d : Int) := by
      rw [List.map_map, List.map_map]
      exact List.map_congr_left fun d hd => congrArg Int.ofNat (hnumber d hd)
    rw [hmap]
    exact hnodup.map fun _ _ => Int.ofNat.inj
  · rw [List.map_map]
    intro a ha hpar
    obtain ⟨d, hd, rfl⟩ := List.mem_map.1 ha
    rw [Function.comp_apply, Node.item_parent_eq, hnumber d hd] at hpar
    exact Nat.lt_irrefl d (h.lt_of_parent_eq hpar)
  · rw [List.map_map, List.pairwise_map]
    refine hfirst.imp_of_mem fun {a b} _ hb hne => ?_
    rw [Function.comp_apply, Function.comp_apply, Ne, Node.item_parent_eq, hnumber b hb]
    exact hne

/-- Every view lists callers first. -/
theorem isListing_flatten {t : CallTree} (h : t.WellFormed) (patterns : List Pattern) (view : View)
    (label : Node → List Text) :
    IsListing ((t.flatten patterns view).map (·.item label)) := by
  cases view with
  | full =>
    rw [h.flatten_full]
    exact isListing_of_descendants h _ label
  | failure =>
    rw [h.flatten_failure]
    exact isListing_of_descendants h _ label

end CallTree

/-! ## The calls in the columns -/

/-- A list of items in the order in which they are drawn. -/
structure IsDrawOrder (items : List Item) : Prop where
  nodup : (items.map (·.number)).Nodup
  lt_caller : ∀ i j, IsCaller items i j → j < i

theorem isCaller_reverse {items : List Item} {i j : Nat} (hi : i < items.length)
    (hj : j < items.length) :
    IsCaller items.reverse i j ↔ IsCaller items (items.length - 1 - i) (items.length - 1 - j) := by
  rw [IsCaller, IsCaller, List.getElem?_reverse hi, List.getElem?_reverse hj]

theorem IsCaller.lt_length {items : List Item} {i j : Nat} (h : IsCaller items i j) :
    i < items.length ∧ j < items.length := by
  obtain ⟨p, c, hp, hc, -⟩ := h
  exact ⟨(List.getElem?_eq_some_iff.1 hp).1, (List.getElem?_eq_some_iff.1 hc).1⟩

theorem IsListing.reverse {items : List Item} (h : IsListing items) :
    IsDrawOrder items.reverse where
  nodup := by
    rw [List.map_reverse, List.nodup_reverse]
    exact h.nodup
  lt_caller i j hc := by
    have hlt := hc.lt_length
    rw [List.length_reverse] at hlt
    have := h.caller_lt _ _ ((isCaller_reverse hlt.1 hlt.2).1 hc)
    omega

/-- In the columns are the first `k` calls but for those whose caller is among them too. -/
def IsOpen (items : List Item) (k : Nat) (columns : List (Nat × Item)) : Prop :=
  ∀ b y, (b, y) ∈ columns ↔ b < k ∧ items[b]? = some y ∧ ∀ c < k, ¬IsCaller items c b

section
variable {items : List Item} (h : IsDrawOrder items) {k : Nat} {columns : List (Nat × Item)}
  (hopen : IsOpen items k columns) {x : Item} (hx : items[k]? = some x)
include hx

theorem isCaller_iff {b : Nat} :
    IsCaller items k b ↔ ∃ y, items[b]? = some y ∧ y.parent = some x.number := by
  constructor
  · rintro ⟨p, c, hp, hc, hpar⟩
    obtain rfl : x = p := Option.some.inj (hx.symm.trans hp)
    exact ⟨c, hc, hpar⟩
  · rintro ⟨y, hy, hpar⟩
    exact ⟨x, y, hx, hy, hpar⟩

include hopen h

/-- The next call finds the calls made by it in the columns. -/
theorem mem_columns_iff (b : Nat) :
    (∃ y, (b, y) ∈ columns ∧ y.parent = some x.number) ↔ IsCaller items k b := by
  rw [isCaller_iff hx]
  constructor
  · rintro ⟨y, hy, hpar⟩
    exact ⟨y, ((hopen b y).1 hy).2.1, hpar⟩
  · rintro ⟨y, hy, hpar⟩
    refine ⟨y, (hopen b y).2 ⟨h.lt_caller k b ((isCaller_iff hx).2 ⟨y, hy, hpar⟩), hy, ?_⟩, hpar⟩
    rintro c hc ⟨p, d, hp, hd, hpar'⟩
    obtain rfl : y = d := Option.some.inj (hy.symm.trans hd)
    have hsame : p.number = x.number := Option.some.inj (hpar'.symm.trans hpar)
    refine List.nodup_iff_getElem?_ne_getElem?.1 h.nodup c k hc ?_ ?_
    · rw [List.length_map]
      exact (List.getElem?_eq_some_iff.1 hx).1
    · rw [List.getElem?_map, List.getElem?_map, hp, hx, Option.map_some, Option.map_some, hsame]

/-- The next call takes their places. -/
theorem IsOpen.settle :
    IsOpen items (k + 1)
      (settle (columns.findIdxs fun c => c.2.parent == some x.number) (k, x) columns) := by
  intro b y
  rw [mem_settle, hopen b y]
  constructor
  · rintro (heq | ⟨⟨hb, hy, hnone⟩, hpar⟩)
    · obtain ⟨rfl, rfl⟩ := Prod.mk.inj heq
      refine ⟨Nat.lt_succ_self b, hx, fun c hc hcall => ?_⟩
      have := h.lt_caller c b hcall
      omega
    · refine ⟨Nat.lt_succ_of_lt hb, hy, fun c hc hcall => ?_⟩
      rcases Nat.lt_or_eq_of_le (Nat.le_of_lt_succ hc) with hlt | rfl
      · exact hnone c hlt hcall
      · obtain ⟨z, hz, hzpar⟩ := (isCaller_iff hx).1 hcall
        obtain rfl : y = z := Option.some.inj (hy.symm.trans hz)
        simp [hzpar] at hpar
  · rintro ⟨hb, hy, hnone⟩
    rcases Nat.lt_or_eq_of_le (Nat.le_of_lt_succ hb) with hlt | rfl
    · refine .inr ⟨⟨hlt, hy, fun c hc => hnone c (Nat.lt_succ_of_lt hc)⟩, ?_⟩
      rw [beq_eq_false_iff_ne]
      exact fun hpar => hnone k (Nat.lt_succ_self k) ((isCaller_iff hx).2 ⟨y, hy, hpar⟩)
    · exact .inl (by rw [Option.some.inj (hy.symm.trans hx)])

end

/-! ## The calls that are taken -/

/-- For each call that is drawn the numbers of those at the places that it takes. The calls are
numbered in the order in which they are drawn, from `k` on; `columns` has the numbers of those in
the columns. -/
def takenCalls : Nat → List Nat → List (List Nat) → List (List Nat)
  | _, _, [] => []
  | k, columns, taken :: rest =>
    taken.filterMap (columns[·]?) :: takenCalls (k + 1) (settle taken k columns) rest

theorem takenCalls_cons {items : List Item} {k : Nat} {x : Item} (hx : items[k]? = some x)
    (columns : List (Nat × Item)) :
    let q := fun c : Nat × Item => c.2.parent == some x.number
    let after := settle (columns.findIdxs q) (k, x) columns
    takenCalls k (columns.map (·.1)) ((moves (columns.map (·.2)) (items.drop k)).map (·.2)) =
      (columns.filter q).map (·.1) ::
        takenCalls (k + 1) (after.map (·.1))
          ((moves (after.map (·.2)) (items.drop (k + 1))).map (·.2)) := by
  intro q after
  obtain ⟨hk, rfl⟩ := List.getElem?_eq_some_iff.1 hx
  have htaken : (columns.map (·.2)).findIdxs (fun i => i.parent == some items[k].number) =
      columns.findIdxs q := by
    rw [List.findIdxs_map]
    rfl
  have hcalls : (columns.findIdxs q).filterMap ((columns.map (·.1))[·]?) =
      (columns.filter q).map (·.1) := by
    rw [← filterMap_findIdxs, List.map_filterMap]
    exact congrArg (List.filterMap · _) (funext fun i => List.getElem?_map)
  rw [List.drop_eq_getElem_cons hk, moves, List.map_cons, takenCalls, htaken, hcalls, map_settle,
    map_settle]

theorem exists_item_of_takenCalls {items columns : List Item} {numbers : List Nat} {k m : Nat}
    {calls : List Nat}
    (hm : (takenCalls k numbers ((moves columns (items.drop k)).map (·.2)))[m]? = some calls) :
    ∃ x, items[k]? = some x := by
  cases hx : items[k]? with
  | none =>
    rw [List.drop_eq_nil_of_le (List.getElem?_eq_none_iff.1 hx)] at hm
    cases hm
  | some x => exact ⟨x, rfl⟩

/-- The calls at the places that a call takes are the calls made by it. -/
theorem mem_takenCalls {items : List Item} (h : IsDrawOrder items) {k : Nat}
    {columns : List (Nat × Item)} (hopen : IsOpen items k columns) {m : Nat} {calls : List Nat}
    (hm : (takenCalls k (columns.map (·.1))
      ((moves (columns.map (·.2)) (items.drop k)).map (·.2)))[m]? = some calls) (b : Nat) :
    b ∈ calls ↔ IsCaller items (k + m) b := by
  obtain ⟨x, hx⟩ := exists_item_of_takenCalls hm
  induction m generalizing k columns x with
  | zero =>
    rw [takenCalls_cons hx, List.getElem?_cons_zero] at hm
    obtain rfl := Option.some.inj hm
    rw [Nat.add_zero, ← mem_columns_iff h hopen hx]
    simp
  | succ m ih =>
    rw [takenCalls_cons hx, List.getElem?_cons_succ] at hm
    obtain ⟨y, hy⟩ := exists_item_of_takenCalls hm
    rw [ih (hopen.settle h hx) hm y hy, Nat.add_assoc, Nat.add_comm 1]

/-! ## Reading callers -/

theorem map_fst_moves (columns items : List Item) :
    (moves columns items).map (·.1) = items.map (·.state) := by
  induction items generalizing columns with
  | nil => rfl
  | cons item rest ih => exact congrArg (item.state :: ·) (ih _)

theorem length_takenCalls (k : Nat) (columns : List Nat) (takens : List (List Nat)) :
    (takenCalls k columns takens).length = takens.length := by
  induction takens generalizing k columns with
  | nil => rfl
  | cons taken rest ih => exact congrArg (· + 1) (ih _ _)

/-- The moves say who called whom. -/
theorem IsCaller.of_moves_eq {items items' : List Item} (h : IsDrawOrder items)
    (h' : IsDrawOrder items') (hmoves : moves [] items = moves [] items') {i j : Nat}
    (hc : IsCaller items i j) : IsCaller items' i j := by
  have hstart : ∀ l, IsOpen l 0 [] := fun l b y =>
    ⟨fun hm => absurd hm List.not_mem_nil, fun hm => absurd hm.1 (Nat.not_lt_zero b)⟩
  have hlt : i < (takenCalls 0 [] ((moves [] items).map (·.2))).length := by
    have hlength := congrArg List.length (map_fst_moves [] items)
    rw [List.length_map, List.length_map] at hlength
    rw [length_takenCalls, List.length_map, hlength]
    exact hc.lt_length.1
  obtain ⟨calls, hcalls⟩ :
      ∃ calls, (takenCalls 0 [] ((moves [] items).map (·.2)))[i]? = some calls :=
    ⟨_, List.getElem?_eq_getElem hlt⟩
  have hmem := mem_takenCalls h (hstart items) hcalls j
  rw [hmoves] at hcalls
  have hmem' := mem_takenCalls h' (hstart items') hcalls j
  rw [Nat.zero_add] at hmem hmem'
  exact hmem'.1 (hmem.2 hc)

theorem moves_of_draw (spaced : Bool) {items : List Item}
    (hlabels : ∀ item ∈ items, item.label = []) :
    readMoves spaced false [] 0 (draw .plain spaced items).rows = moves [] items.reverse :=
  readMoves_drawSteps spaced [] items.reverse fun item hitem =>
    hlabels item (List.mem_reverse.1 hitem)

/-- The rows of a plain drawing without labels determine the states of the calls and who called
whom. -/
theorem draw_injective (spaced : Bool) {items items' : List Item} (h : IsListing items)
    (h' : IsListing items') (hlabels : ∀ item ∈ items, item.label = [])
    (hlabels' : ∀ item ∈ items', item.label = [])
    (hrows : (draw .plain spaced items).rows = (draw .plain spaced items').rows) :
    items.length = items'.length ∧ items.map (·.state) = items'.map (·.state) ∧
      ∀ i j, IsCaller items i j ↔ IsCaller items' i j := by
  have hmoves : moves [] items.reverse = moves [] items'.reverse := by
    rw [← moves_of_draw spaced hlabels, ← moves_of_draw spaced hlabels', hrows]
  have hstates : items.map (·.state) = items'.map (·.state) := by
    have hrev := congrArg (List.map (·.1)) hmoves
    rw [map_fst_moves, map_fst_moves, List.map_reverse, List.map_reverse] at hrev
    exact List.reverse_injective hrev
  have hlength : items.length = items'.length := by
    simpa using congrArg List.length hstates
  have hturn : ∀ {l l' : List Item}, IsListing l → IsListing l' → l.length = l'.length →
      moves [] l.reverse = moves [] l'.reverse → ∀ {i j}, IsCaller l i j → IsCaller l' i j := by
    intro l l' hl hl' hlen hm i j hc
    obtain ⟨hi, hj⟩ := hc.lt_length
    have hback : ∀ {k}, k < l.length → l.length - 1 - (l.length - 1 - k) = k := by omega
    have hrev : IsCaller l.reverse (l.length - 1 - i) (l.length - 1 - j) := by
      rw [isCaller_reverse (by omega) (by omega), hback hi, hback hj]
      exact hc
    have hrev' := IsCaller.of_moves_eq hl.reverse hl'.reverse hm hrev
    rw [hlen] at hback hi hj hrev'
    rw [isCaller_reverse (by omega) (by omega), hback hi, hback hj] at hrev'
    exact hrev'
  exact ⟨hlength, hstates, fun i j =>
    ⟨hturn h h' hlength hmoves, hturn h' h hlength.symm hmoves.symm⟩⟩

/-- Every view lists callers before the calls made by them. For any two such lists of calls, if the
plain drawings without labels have the same rows, then the lists have equally many calls, with the
same states and the same callers, place by place. -/
theorem Session.draw_faithful :
    (∀ calls patterns view label,
      IsListing (((Session.run calls).tree.flatten patterns view).map (·.item label))) ∧
    ∀ spaced items items', IsListing items → IsListing items' →
      (∀ item ∈ items, item.label = []) → (∀ item ∈ items', item.label = []) →
      (draw .plain spaced items).rows = (draw .plain spaced items').rows →
      items.length = items'.length ∧ items.map (·.state) = items'.map (·.state) ∧
        ∀ i j, IsCaller items i j ↔ IsCaller items' i j :=
  ⟨fun calls patterns view label =>
    CallTree.isListing_flatten (run_inv calls).1.toWellFormed patterns view label,
    fun spaced _ _ => draw_injective spaced⟩

/-- A call with two calls made by it, one of which made another one, in two numberings. -/
theorem Session.draw_faithful_renumbered :
    let items : List Item :=
      [⟨1, none, .pending, []⟩, ⟨2, some 1, .resolved .matched, []⟩,
        ⟨3, some 2, .resolved .failed, []⟩, ⟨4, some 1, .resolved .failed, []⟩]
    let items' : List Item :=
      [⟨5, none, .pending, []⟩, ⟨9, some 5, .resolved .matched, []⟩,
        ⟨7, some 9, .resolved .failed, []⟩, ⟨6, some 5, .resolved .failed, []⟩]
    (draw .plain true items).rows = (draw .plain true items').rows ∧
      ∀ i j, IsCaller items i j ↔ IsCaller items' i j := by
  intro items items'
  have hrows : (draw .plain true items).rows = (draw .plain true items').rows := by
    decide +kernel
  have hitems : IsListing items := .of_pairwise (by decide) (by decide) (by decide)
  have hitems' : IsListing items' := .of_pairwise (by decide) (by decide) (by decide)
  exact ⟨hrows,
    (draw_faithful.2 true items items' hitems hitems' (by decide) (by decide) hrows).2.2⟩

end RuleTrace
