import Mathlib.Logic.Relation
import Mathlib.Order.Bounds.Basic
import RuleTrace.Proofs.Call.Update
import RuleTrace.Proofs.Graph.Rows

/-!
# The styles of lanes

A lane opens with a call that made no listed call, and goes on with the caller of the leftmost of
the calls that come together. So the lanes are in the order in which they opened, and the lane of a
call is the one that opened with the first drawn of all the calls below it (`Woven`). Its style
tells how many lanes were in use then.

* `Woven.place`: drawing a call keeps the lanes in this order.
* `CallTree.draw_laneStyle`: the style of a call that was drawn, and that nothing else has changed.
-/

namespace RuleTrace

/-- The item at place `j` of a list is the one at place `i`, or is below it. -/
def Reaches (items : List Item) : Nat → Nat → Prop :=
  Relation.ReflTransGen (IsCaller items)

/-- How many calls of a list have no caller in it. -/
def uncalledCount (items : List Item) : Nat :=
  items.countP fun x => !items.any fun y => x.parent == some y.number

/-- The places of the calls that have no caller in a list. -/
theorem mem_uncalled_iff (items : List Item) (b : Nat) :
    b ∈ items.findIdxs (fun x => !items.any fun y => x.parent == some y.number) ↔
      b < items.length ∧ ∀ c, ¬IsCaller items c b := by
  rw [List.mem_findIdxs_iff_exists_getElem_pos]
  constructor
  · rintro ⟨hb, hnone⟩
    refine ⟨hb, ?_⟩
    rintro c ⟨p, x, hp, hx, hpar⟩
    obtain ⟨_, rfl⟩ := List.getElem?_eq_some_iff.1 hx
    have hany : (items.any fun y => items[b].parent == some y.number) = true :=
      List.any_eq_true.2 ⟨p, List.mem_of_getElem? hp, by simpa using hpar⟩
    rw [hany] at hnone
    cases hnone
  · rintro ⟨hb, hnone⟩
    refine ⟨hb, ?_⟩
    rw [Bool.not_eq_true', List.any_eq_false]
    intro y hy hpar
    obtain ⟨c, hc⟩ := List.mem_iff_getElem?.1 hy
    exact hnone c ⟨y, _, hc, List.getElem?_eq_getElem hb, by simpa using hpar⟩

theorem isCaller_take {items : List Item} {k c b : Nat} :
    IsCaller (items.take k) c b ↔ c < k ∧ b < k ∧ IsCaller items c b := by
  simp only [IsCaller, List.getElem?_take]
  constructor
  · rintro ⟨p, x, hp, hx, hpar⟩
    split at hp
    · next hc =>
      split at hx
      · next hb => exact ⟨hc, hb, p, x, hp, hx, hpar⟩
      · cases hx
    · cases hp
  · rintro ⟨hc, hb, hcall⟩
    simpa only [if_pos hc, if_pos hb] using hcall

theorem Reaches.le {items : List Item} (h : IsDrawOrder items) {i j : Nat}
    (hr : Reaches items i j) : j ≤ i := by
  induction hr with
  | refl => exact Nat.le_refl i
  | tail _ hc ih => exact Nat.le_trans (Nat.le_of_lt (h.lt_caller _ _ hc)) ih

section
variable {items : List Item} {k : Nat}

theorem reaches_eq_singleton (h : ∀ b, ¬IsCaller items k b) : {p | Reaches items k p} = {k} := by
  refine Set.eq_singleton_iff_unique_mem.2 ⟨.refl, fun p hp => ?_⟩
  rcases Relation.ReflTransGen.cases_head hp with rfl | ⟨b, hb, -⟩
  · rfl
  · exact absurd hb (h b)

/-- The first drawn of the calls below a call is the first drawn of those below the calls made by
it. -/
theorem isLeast_reaches_callee (h : IsDrawOrder items) {b first : Nat} (hb : IsCaller items k b)
    (hfirst : IsLeast {p | Reaches items b p} first)
    (hle : ∀ c p, IsCaller items k c → Reaches items c p → first ≤ p) :
    IsLeast {p | Reaches items k p} first := by
  refine ⟨.head hb hfirst.1, fun p hp => ?_⟩
  rcases Relation.ReflTransGen.cases_head hp with rfl | ⟨c, hc, hcp⟩
  · exact Nat.le_trans (hle b b hb .refl) (Nat.le_of_lt (h.lt_caller k b hb))
  · exact hle c p hc hcp

end

/-! ## Lanes in the order in which they opened -/

/-- A lane in use: the place of the call in it, the call, and the place of the call that it opened
with. -/
structure Strand where
  place : Nat
  item : Item
  birth : Nat

namespace Strand

def call (s : Strand) : Nat × Item :=
  (s.place, s.item)

/-- The column of a lane, whose style tells how many lanes were in use when it opened. -/
def column (items : List Item) (s : Strand) : Column :=
  ⟨s.item, laneStyle (uncalledCount (items.take s.birth))⟩

end Strand

/-- The lanes in use after the first `k` calls were drawn, in the order in which they opened. -/
structure Woven (items : List Item) (k : Nat) (strands : List Strand) : Prop where
  isOpen : IsOpen items k (strands.map Strand.call)
  sorted : (strands.map Strand.birth).Pairwise (· < ·)
  first : ∀ s ∈ strands, IsLeast {p | Reaches items s.place p} s.birth

namespace Woven

theorem nil (items : List Item) : Woven items 0 [] :=
  ⟨fun b y => by simp, .nil, nofun⟩

section
variable {items : List Item} {k : Nat} {strands : List Strand} (hw : Woven items k strands)
include hw

theorem place_lt {s : Strand} (hs : s ∈ strands) : s.place < k :=
  ((hw.isOpen s.place s.item).1 (List.mem_map_of_mem hs)).1

/-- Lanes with the same call opened with the same call. -/
theorem nodup : (strands.map Strand.place).Nodup := by
  have hsorted := hw.sorted
  rw [List.pairwise_map] at hsorted
  rw [List.Nodup, List.pairwise_map]
  refine hsorted.imp_of_mem fun {a b} ha hb hlt heq => ?_
  have hfirst := hw.first a ha
  rw [heq] at hfirst
  exact Nat.ne_of_lt hlt (hfirst.unique (hw.first b hb))

/-- There are as many lanes in use as calls whose caller was not drawn. -/
theorem length_eq (hk : k ≤ items.length) : strands.length = uncalledCount (items.take k) := by
  have hplaces : (strands.map Strand.place).Perm ((items.take k).findIdxs fun x =>
      !(items.take k).any fun y => x.parent == some y.number) := by
    refine (List.perm_ext_iff_of_nodup hw.nodup (List.pairwise_findIdxs.imp Nat.ne_of_lt)).2
      fun b => ?_
    rw [mem_uncalled_iff, List.length_take_of_le hk]
    constructor
    · intro hb
      obtain ⟨s, hs, rfl⟩ := List.mem_map.1 hb
      obtain ⟨hlt, -, hnone⟩ := (hw.isOpen s.place s.item).1 (List.mem_map_of_mem hs)
      exact ⟨hlt, fun c hc => hnone c (isCaller_take.1 hc).1 (isCaller_take.1 hc).2.2⟩
    · rintro ⟨hlt, hnone⟩
      have hget := List.getElem?_eq_getElem (Nat.lt_of_lt_of_le hlt hk)
      have hmem := (hw.isOpen b _).2 ⟨hlt, hget, fun c hc hcall =>
        hnone c (isCaller_take.2 ⟨hc, hlt, hcall⟩)⟩
      obtain ⟨s, hs, heq⟩ := List.mem_map.1 hmem
      exact List.mem_map.2 ⟨s, hs, congrArg Prod.fst heq⟩
  rw [uncalledCount, ← List.length_findIdxs, ← hplaces.length_eq, List.length_map]

section
variable (h : IsDrawOrder items) {x : Item} (hx : items[k]? = some x)
include h hx

/-- The lanes stay in order if the next call is in one that opened with the first drawn of the calls
below it. -/
theorem settle {birth : Nat} (hfirst : IsLeast {p | Reaches items k p} birth) :
    let after := settle (strands.findIdxs (·.item.parent == some x.number)) ⟨k, x, birth⟩ strands
    (after.map Strand.birth).Pairwise (· < ·) → Woven items (k + 1) after := by
  intro after hsorted
  refine ⟨?_, hsorted, fun s hs => ?_⟩
  · have hopen := hw.isOpen.settle h hx
    rw [List.findIdxs_map] at hopen
    rw [map_settle]
    exact hopen
  · rcases (mem_settle _).1 hs with rfl | ⟨hs, -⟩
    · exact hfirst
    · exact hw.first s hs

/-- The calls made by the next call are in lanes. -/
theorem exists_strand {c : Nat} (hc : IsCaller items k c) :
    ∃ s ∈ strands, s.place = c ∧ (s.item.parent == some x.number) = true := by
  obtain ⟨y, hy, hpar⟩ := (mem_columns_iff h hw.isOpen hx c).2 hc
  obtain ⟨s, hs, heq⟩ := List.mem_map.1 hy
  cases heq
  exact ⟨s, hs, rfl, by simpa using hpar⟩

/-- The next call opens a lane, or takes over the first opened of those with calls made by it. -/
theorem exists_birth :
    ∃ birth, IsLeast {p | Reaches items k p} birth ∧
      ((RuleTrace.settle (strands.findIdxs (·.item.parent == some x.number)) ⟨k, x, birth⟩
        strands).map Strand.birth).Pairwise (· < ·) ∧
      laneStyle (uncalledCount (items.take birth)) =
        (strands.findIdxs (·.item.parent == some x.number)).head?.elim (laneStyle strands.length)
          ((strands.map (Strand.column items))[·]?.bind (·.style)) := by
  have hk := (List.getElem?_eq_some_iff.1 hx).1
  rcases exists_first (fun s : Strand => s.item.parent == some x.number) strands with
    hnone | ⟨u, t, v, rfl, hu, ht⟩
  · refine ⟨k, ?_, ?_, ?_⟩
    · have hleaf : ∀ b, ¬IsCaller items k b := by
        intro b hb
        obtain ⟨s, hs, -, hpar⟩ := hw.exists_strand h hx hb
        rw [hnone s hs] at hpar
        cases hpar
      rw [reaches_eq_singleton hleaf]
      exact isLeast_singleton
    · rw [settle_of_forall hnone, List.map_append, List.pairwise_append]
      refine ⟨hw.sorted, List.pairwise_singleton _ _, fun b hb c hc => ?_⟩
      obtain ⟨s, hs, rfl⟩ := List.mem_map.1 hb
      obtain rfl : c = k := by simpa using hc
      exact Nat.lt_of_le_of_lt ((hw.first s hs).2 .refl) (hw.place_lt hs)
    · rw [List.findIdxs_eq_nil_iff.2 hnone, hw.length_eq (Nat.le_of_lt hk)]
      rfl
  · have hsorted := hw.sorted
    refine ⟨t.birth, isLeast_reaches_callee h ?_ (hw.first t (by simp)) fun c p hc hp => ?_, ?_, ?_⟩
    · refine (mem_columns_iff h hw.isOpen hx t.place).1 ⟨t.item, List.mem_map_of_mem (by simp), ?_⟩
      simpa using ht
    · -- the lanes before that of `t` have no call made by this one
      obtain ⟨s, hs, rfl, hpar⟩ := hw.exists_strand h hx hc
      refine Nat.le_trans ?_ ((hw.first s hs).2 hp)
      rw [List.map_append, List.map_cons, List.pairwise_append, List.pairwise_cons] at hsorted
      rcases List.mem_append.1 hs with hsu | hs
      · rw [hu s hsu] at hpar
        cases hpar
      · rcases List.mem_cons.1 hs with rfl | hsv
        · exact Nat.le_refl _
        · exact Nat.le_of_lt (hsorted.2.1.1 s.birth (List.mem_map_of_mem hsv))
    · rw [settle_append hu ht]
      refine hsorted.sublist ?_
      rw [List.map_append, List.map_append, List.map_cons, List.map_cons]
      exact ((List.filter_sublist.map _).cons_cons t.birth).append_left _
    · rw [findIdxs_append_cons hu ht]
      simp [Strand.column]

/-- Drawing a call keeps the lanes in the order in which they opened. -/
theorem place (ink : Ink) (isLast : Bool) :
    let columns := strands.map (Strand.column items)
    let step := Column.place ink columns x isLast
    ∃ birth after, IsLeast {p | Reaches items k p} birth ∧
      step.style = laneStyle (uncalledCount (items.take birth)) ∧
      Woven items (k + 1) after ∧ step.columns = after.map (Strand.column items) := by
  intro columns step
  have htaken : Column.ofCaller x.number columns =
      strands.findIdxs (·.item.parent == some x.number) := by
    rw [Column.ofCaller_eq, List.findIdxs_map]
    rfl
  obtain ⟨birth, hfirst, hsorted, hbirth⟩ := hw.exists_birth h hx
  have hstyle : step.style = laneStyle (uncalledCount (items.take birth)) := by
    rw [Column.place_style, htaken, hbirth, List.length_map]
  refine ⟨birth, _, hfirst, hstyle, hw.settle h hx hfirst hsorted, ?_⟩
  rw [Column.place_columns, htaken, map_settle]
  exact congrArg (fun style => RuleTrace.settle _ ⟨x, style⟩ columns) hstyle

end

end

end Woven

/-! ## The style of a call -/

theorem laneStyle_eq (count : Nat) :
    ∃ style, laneStyles[count % 5]? = some style ∧ laneStyle count = some style := by
  have hlt : count % 5 < laneStyles.length := Nat.mod_lt _ (by decide)
  have hget := List.getElem?_eq_getElem hlt
  exact ⟨laneStyles[count % 5], hget, hget⟩

section
variable (ink : Ink) (spaced : Bool) {items : List Item}

/-- The lanes are in order after every step. -/
theorem woven_drawSteps (h : IsDrawOrder items) {m : Nat} (hm : m ≤ items.length) :
    ∃ strands, Woven items m strands ∧
      columnsAfter [] ((drawSteps ink spaced [] items).take m) =
        strands.map (Strand.column items) := by
  let InOrder (k : Nat) (columns : List Column) :=
    ∃ strands, Woven items k strands ∧ columns = strands.map (Strand.column items)
  refine drawSteps_induction ink spaced (P := InOrder) ⟨[], Woven.nil items, rfl⟩ ?_ hm
  rintro k _ x isLast hx ⟨strands, hw, rfl⟩
  obtain ⟨-, after, -, -, hafter, hcolumns⟩ := hw.place h hx ink isLast
  exact ⟨after, hafter, hcolumns⟩

/-- The style of a step tells how many lanes were in use when the lane of its call opened. -/
theorem style_drawSteps (h : IsDrawOrder items) {m : Nat} {x : Item} (hx : items[m]? = some x) :
    ∃ first, IsLeast {p | Reaches items m p} first ∧
      ((drawSteps ink spaced [] items).map (·.style))[m]? =
        some (laneStyle (uncalledCount (items.take first))) := by
  obtain ⟨strands, hw, hcolumns⟩ :=
    woven_drawSteps ink spaced h (Nat.le_of_lt (List.getElem?_eq_some_iff.1 hx).1)
  obtain ⟨first, -, hfirst, hstyle, -⟩ := hw.place h hx ink (items.drop (m + 1)).isEmpty
  refine ⟨first, hfirst, ?_⟩
  rw [List.getElem?_map, getElem?_drawSteps ink spaced [] items hx, hcolumns, Option.map_some,
    hstyle]

end

/-! ### From the last place to the first -/

section
variable {items : List Item}

theorem Reaches.reverse {i j : Nat} (hi : i < items.length) (h : Reaches items i j) :
    j < items.length ∧ Reaches items.reverse (items.length - 1 - i) (items.length - 1 - j) := by
  induction h with
  | refl => exact ⟨hi, .refl⟩
  | @tail b c _ hc ih =>
    have hlt := hc.lt_length.2
    refine ⟨hlt, ih.2.tail ((isCaller_reverse (by omega) (by omega)).2 ?_)⟩
    rwa [show items.length - 1 - (items.length - 1 - b) = b by omega,
      show items.length - 1 - (items.length - 1 - c) = c by omega]

/-- The first drawn of the calls below a call is the last of them in the list. -/
theorem isGreatest_reaches {i first : Nat} (hi : i < items.length)
    (h : IsLeast {p | Reaches items.reverse (items.length - 1 - i) p} first) :
    first < items.length ∧ IsGreatest {j | Reaches items i j} (items.length - 1 - first) := by
  have hback := Reaches.reverse (by rw [List.length_reverse]; omega) h.1
  rw [List.reverse_reverse, List.length_reverse,
    show items.length - 1 - (items.length - 1 - i) = i by omega] at hback
  refine ⟨hback.1, hback.2, fun j hj => ?_⟩
  obtain ⟨hlt, hj⟩ := hj.reverse hi
  have := h.2 hj
  omega

theorem uncalledCount_take_reverse (n : Nat) :
    uncalledCount (items.reverse.take n) = uncalledCount (items.drop (items.length - n)) := by
  rw [List.take_reverse, uncalledCount, uncalledCount, List.countP_reverse]
  simp only [List.any_reverse]

/-- The style of a call tells how many lanes were in use when the last listed of the calls below it
was drawn. -/
theorem style_draw (ink : Ink) (spaced : Bool) (h : IsListing items) {i : Nat}
    (hi : i < items.length) :
    ∃ last style, IsGreatest {j | Reaches items i j} last ∧
      laneStyles[uncalledCount (items.drop (last + 1)) % 5]? = some style ∧
      (draw ink spaced items).styles[i]? = some (some style) := by
  have hx : items.reverse[items.length - 1 - i]? = some items[i] := by
    rw [List.getElem?_reverse (by omega),
      show items.length - 1 - (items.length - 1 - i) = i by omega,
      List.getElem?_eq_getElem hi]
  obtain ⟨first, hfirst, hstyle⟩ := style_drawSteps ink spaced h.reverse hx
  obtain ⟨hlt, hlast⟩ := isGreatest_reaches hi hfirst
  obtain ⟨style, hget, heq⟩ :=
    laneStyle_eq (uncalledCount (items.drop (items.length - 1 - first + 1)))
  refine ⟨_, style, hlast, hget, ?_⟩
  rw [uncalledCount_take_reverse,
    show items.length - first = items.length - 1 - first + 1 by omega, heq] at hstyle
  rw [draw, List.getElem?_reverse (by simpa [length_drawSteps] using hi), List.length_map,
    length_drawSteps, List.length_reverse, hstyle]

end

/-! ## Notes of styles -/

theorem length_styles_draw (ink : Ink) (spaced : Bool) (items : List Item) :
    (draw ink spaced items).styles.length = items.length := by
  rw [draw, List.length_reverse, List.length_map, length_drawSteps, List.length_reverse]

theorem IsListing.nodup_map_number {label : Node → List Text} {nodes : List Node}
    (h : IsListing (nodes.map (·.item label))) : (nodes.map (·.number)).Nodup := by
  have hnumbers : (nodes.map (·.item label)).map (·.number) =
      (nodes.map (·.number)).map fun (p : Nat) => (p : Int) := by
    rw [List.map_map, List.map_map]
    rfl
  exact (hnumbers ▸ h.nodup).of_map _

theorem map_item_congr {label label' : Node → List Text} {nodes nodes' : List Node}
    (h : List.Forall₂ (fun n n' => n.unstyled = n'.unstyled ∧ label n = label' n') nodes nodes') :
    nodes.map (·.item label) = nodes'.map (·.item label') := by
  induction h with
  | nil => rfl
  | @cons n n' _ _ hsame _ ih =>
    have hnumber : n.number = n'.number := (congrArg Node.number hsame.1 :)
    have hparent : n.parent = n'.parent := (congrArg Node.parent hsame.1 :)
    have hstate : n.state = n'.state := (congrArg Node.state hsame.1 :)
    rw [List.map_cons, List.map_cons, ih, Node.item, Node.item, hnumber, hparent, hstate, hsame.2]

/-- The style of a call is that of the lanes in use when the last listed of the calls below it was
drawn: one for each later call whose caller is not listed after that call. Drawing calls of a tree
notes these styles, and leaves all else in the tree as it was. Its rows are the same for calls with
other styles. -/
theorem CallTree.draw_laneStyle (ink : Ink) (spaced : Bool) :
    (∀ items, IsListing items → ∀ i < items.length, ∃ last style,
      IsGreatest {j | Reaches items i j} last ∧
      laneStyles[uncalledCount (items.drop (last + 1)) % 5]? = some style ∧
      (RuleTrace.draw ink spaced items).styles[i]? = some (some style)) ∧
    ∀ (t : CallTree) (label : Node → List Text) (nodes : List Node),
      let items := nodes.map (·.item label)
      let drawn := t.draw ink spaced label nodes
      IsListing items → (∀ n ∈ nodes, n.number < t.nodes.length) →
      (∀ i n, nodes[i]? = some n → ∃ last style,
        IsGreatest {j | Reaches items i j} last ∧
        laneStyles[uncalledCount (items.drop (last + 1)) % 5]? = some style ∧
        (drawn.2.node n.number).style = some style) ∧
      (∀ m, (∀ n ∈ nodes, n.number ≠ m) → drawn.2.node m = t.node m) ∧
      (∀ m, (drawn.2.node m).unstyled = (t.node m).unstyled) ∧
      drawn.2 = { t with nodes := drawn.2.nodes } ∧ drawn.2.nodes.length = t.nodes.length ∧
      ∀ (t' : CallTree) (label' : Node → List Text) (nodes' : List Node),
        List.Forall₂ (fun n n' => n.unstyled = n'.unstyled ∧ label n = label' n') nodes nodes' →
        (t'.draw ink spaced label' nodes').1 = drawn.1 := by
  refine ⟨fun items h i hi => style_draw ink spaced h hi, ?_⟩
  intro t label nodes items drawn h hnodes
  have hlength : (RuleTrace.draw ink spaced items).styles.length = nodes.length := by
    rw [length_styles_draw, List.length_map]
  have hnoted : (((nodes.map (·.number)).zip (RuleTrace.draw ink spaced items).styles).reverse.map
      (·.1)) = (nodes.map (·.number)).reverse := by
    rw [List.map_reverse, List.map_fst_zip (by rw [List.length_map, hlength])]
  refine ⟨fun i n hn => ?_, fun m hm => ?_, fun m => t.unstyled_noteStyles _ m, rfl,
    t.length_noteStyles _, fun t' label' nodes' hsame => ?_⟩
  · have hi := (List.getElem?_eq_some_iff.1 hn).1
    obtain ⟨last, style, hlast, hstyle, hdrawn⟩ :=
      style_draw ink spaced h (by simpa [items] using hi)
    refine ⟨last, style, hlast, hstyle, ?_⟩
    refine t.style_noteStyles _ (hnodes n (List.mem_of_getElem? hn)) ?_ ?_
    · rw [hnoted, List.nodup_reverse]
      exact h.nodup_map_number
    · rw [List.mem_reverse]
      refine List.mem_of_getElem? (List.getElem?_zip_eq_some.2 ⟨?_, hdrawn⟩)
      rw [List.getElem?_map, hn, Option.map_some]
  · refine t.node_noteStyles_of_notMem _ ?_
    rw [hnoted, List.mem_reverse, List.mem_map]
    rintro ⟨n, hn, rfl⟩
    exact hm n hn rfl
  · have hitems : nodes'.map (·.item label') = items := (map_item_congr hsame).symm
    exact congrArg (fun items => (RuleTrace.draw ink spaced items).rows) hitems

/-- A call and two calls made by it, the second of which is pending. -/
def twoCallees : List TreeCall :=
  [.enter ['a'] .origin, .enter ['b'] .origin, .leave .matched ['b'] .origin, .enter ['c'] .origin]

/-- The first of the two calls opens a lane while that of the other is in use. -/
theorem CallTree.draw_laneStyle_twoCallees :
    let t := (Session.run twoCallees).tree
    ((t.draw .plain false (fun _ => []) (t.nodes.drop 1)).2.node 2).style = laneStyles[1]? := by
  intro t
  obtain ⟨-, hdraw⟩ := CallTree.draw_laneStyle .plain false
  obtain ⟨hstyles, -⟩ := hdraw t (fun _ => []) (t.nodes.drop 1)
    (.of_pairwise (by decide) (by decide) (by decide)) (by decide)
  obtain ⟨last, style, hlast, hstyle, hdrawn⟩ := hstyles 1 (t.node 2) (by decide)
  have hnone : ∀ c ∈ (t.nodes.drop 1).map (·.item fun _ => []), c.parent ≠ some 2 := by decide
  rw [reaches_eq_singleton] at hlast
  · obtain rfl := hlast.unique isGreatest_singleton
    rw [show (t.node 2).number = 2 by decide] at hdrawn
    rw [hdrawn, ← hstyle]
    decide
  · rintro j ⟨p, c, hp, hc, hpar⟩
    obtain rfl : (t.node 2).item (fun _ => []) = p := Option.some.inj hp
    exact hnone c (List.mem_of_getElem? hc) hpar

end RuleTrace
