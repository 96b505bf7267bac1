import Mathlib.Data.List.Basic
import RuleTrace.Graph.Drawing

/-!
# How columns change

A call that is drawn looks for the places in the columns of the calls made by it. With none, it gets
a new place at the end; else it takes the first of them and the others go away. `settle` makes this
change to any list, so that other lists can be kept beside the columns.

* `settle_append`, `settle_of_forall`: what the change comes to if the places are those where a test
  holds.
* `mem_settle`, `length_settle`, `getElem?_settle`: what is in the list after it, and where.
* `Column.place_columns`: drawing a call changes the columns so.
* `Lane.mergeAll_induction`: induction along the edges that lead lanes into one.
-/

namespace RuleTrace

section
variable {α β : Type}

/-- A list without what stands at some places. -/
def dropPlaces (gone : List Nat) (l : List α) : List α :=
  (l.zipIdx.filter fun a => !gone.contains a.2).map (·.1)

/-- A list in which `a` takes the first of some places, and the others go away; if there is none it
gets a new one at the end. -/
def settle (taken : List Nat) (a : α) (l : List α) : List α :=
  match taken with
  | [] => l ++ [a]
  | first :: others => dropPlaces others (l.set first a)

theorem map_dropPlaces (f : α → β) (gone : List Nat) (l : List α) :
    (dropPlaces gone l).map f = dropPlaces gone (l.map f) := by
  rw [dropPlaces, dropPlaces, List.zipIdx_map, List.filter_map, List.map_map, List.map_map]
  rfl

theorem map_settle (f : α → β) (taken : List Nat) (a : α) (l : List α) :
    (settle taken a l).map f = settle taken (f a) (l.map f) := by
  cases taken with
  | nil => exact List.map_append
  | cons first others => rw [settle, map_dropPlaces, List.map_set, settle]

section
variable (p : α → Bool)

/-- Without the places where a test holds, a list has the elements that it does not hold of. -/
theorem filter_zipIdx_findIdxs (l : List α) (k : Nat) :
    ((l.zipIdx k).filter fun a => !(l.findIdxs p k).contains a.2).map (·.1) =
      l.filter fun a => !p a := by
  induction l generalizing k with
  | nil => rfl
  | cons b l ih =>
    have hrest : ∀ a ∈ l.zipIdx (k + 1), ((b :: l).findIdxs p k).contains a.2 =
        (l.findIdxs p (k + 1)).contains a.2 := by
      intro a ha
      have hle : k + 1 ≤ a.2 := List.le_snd_of_mem_zipIdx ha
      rw [List.findIdxs_cons]
      split
      · rw [List.contains_cons, beq_eq_false_iff_ne.2 (by omega), Bool.false_or]
      · rfl
    have hfirst : ((b :: l).findIdxs p k).contains k = p b := by
      rw [Bool.eq_iff_iff, List.contains_iff_mem, List.findIdxs_cons]
      have hge : k ∉ l.findIdxs p (k + 1) := fun h => by
        have := List.ge_of_mem_findIdxs _ h
        omega
      split
      · next h => simp [h]
      · next h => simp [h, hge]
    rw [List.zipIdx_cons, List.filter_cons, hfirst, List.filter_cons,
      List.filter_congr fun a ha => congrArg _ (hrest a ha)]
    cases p b with
    | true => exact ih (k + 1)
    | false => exact congrArg (b :: ·) (ih (k + 1))

section
variable {p} {u v : List α} {t : α}

theorem findIdxs_append_cons (hu : ∀ b ∈ u, p b = false) (ht : p t = true) :
    (u ++ t :: v).findIdxs p = u.length :: v.findIdxs p (u.length + 1) := by
  rw [List.findIdxs_append, List.findIdxs_eq_nil_iff.2 hu, List.findIdxs_cons, if_pos ht,
    Nat.zero_add, List.nil_append]

/-- The new element takes the place of the first one that the test holds of, and the others go. -/
theorem settle_append (hu : ∀ b ∈ u, p b = false) (ht : p t = true) (a : α) :
    settle ((u ++ t :: v).findIdxs p) a (u ++ t :: v) = u ++ a :: v.filter fun b => !p b := by
  have hgone : ∀ i ≤ u.length, (v.findIdxs p (u.length + 1)).contains i = false := by
    intro i hi
    rw [Bool.eq_false_iff, Ne, List.contains_iff_mem]
    intro h
    have := List.ge_of_mem_findIdxs _ h
    omega
  have hbefore : (u.zipIdx 0).filter (fun b => !(v.findIdxs p (u.length + 1)).contains b.2) =
      u.zipIdx 0 := by
    refine List.filter_eq_self.2 fun b hb => ?_
    have := List.snd_lt_of_mem_zipIdx hb
    rw [hgone b.2 (by omega)]
    rfl
  rw [findIdxs_append_cons hu ht, settle, List.set_append_right _ _ (Nat.le_refl _), Nat.sub_self,
    List.set_cons_zero, dropPlaces, List.zipIdx_append, List.filter_append, hbefore,
    List.zipIdx_cons, List.filter_cons, Nat.zero_add, hgone _ (Nat.le_refl _), Bool.not_false,
    if_pos rfl, List.map_append, List.map_cons, filter_zipIdx_findIdxs, List.zipIdx_map_fst]

theorem settle_of_forall {l : List α} (hl : ∀ b ∈ l, p b = false) (a : α) :
    settle (l.findIdxs p) a l = l ++ [a] := by
  rw [List.findIdxs_eq_nil_iff.2 hl]
  rfl

/-- A list has no element that a test holds of, or a first one. -/
theorem exists_first (p : α → Bool) (l : List α) :
    (∀ b ∈ l, p b = false) ∨
      ∃ u t v, l = u ++ t :: v ∧ (∀ b ∈ u, p b = false) ∧ p t = true := by
  cases h : l.find? p with
  | none => exact .inl fun b hb => by simpa using List.find?_eq_none.1 h b hb
  | some t =>
    obtain ⟨ht, u, v, rfl, hu⟩ := List.find?_eq_some_iff_append.1 h
    exact .inr ⟨u, t, v, rfl, fun b hb => by simpa using hu b hb, ht⟩

end

theorem mem_settle {l : List α} {a b : α} :
    b ∈ settle (l.findIdxs p) a l ↔ b = a ∨ b ∈ l ∧ p b = false := by
  rcases exists_first p l with hl | ⟨u, t, v, rfl, hu, ht⟩
  · rw [settle_of_forall hl, List.mem_append, List.mem_singleton, or_comm]
    exact or_congr_right (iff_self_and.2 (hl b))
  · rw [settle_append hu ht]
    simp only [List.mem_append, List.mem_cons, List.mem_filter, Bool.not_eq_true']
    constructor
    · rintro (h | h | ⟨h, hp⟩)
      · exact .inr ⟨.inl h, hu b h⟩
      · exact .inl h
      · exact .inr ⟨.inr (.inr h), hp⟩
    · rintro (h | ⟨h | rfl | h, hp⟩)
      · exact .inr (.inl h)
      · exact .inl h
      · exact absurd hp (by simp [ht])
      · exact .inr (.inr ⟨h, hp⟩)

theorem length_settle (a : α) (l : List α) :
    (settle (l.findIdxs p) a l).length = l.length + 1 - (l.findIdxs p).length := by
  rcases exists_first p l with hl | ⟨u, t, v, rfl, hu, ht⟩
  · rw [settle_of_forall hl, List.findIdxs_eq_nil_iff.2 hl]
    simp
  · rw [settle_append hu ht, findIdxs_append_cons hu ht]
    have hcount := v.length_eq_countP_add_countP p
    have hkept : (v.filter fun b => !p b).length = v.countP fun b => ¬p b := by
      rw [← List.countP_eq_length_filter]
      exact List.countP_congr fun b _ => by simp
    simp only [List.length_append, List.length_cons, List.length_findIdxs, hkept]
    omega

/-- The new element is at the first of the places, or at the end. -/
theorem getElem?_settle (a : α) (l : List α) :
    (settle (l.findIdxs p) a l)[(l.findIdxs p).headD l.length]? = some a := by
  rcases exists_first p l with hl | ⟨u, t, v, rfl, hu, ht⟩
  · rw [settle_of_forall hl, List.findIdxs_eq_nil_iff.2 hl]
    simp
  · rw [settle_append hu ht, findIdxs_append_cons hu ht]
    simp

/-- The elements at the places where a test holds. -/
theorem filterMap_findIdxs (l : List α) : (l.findIdxs p).filterMap (l[·]?) = l.filter p := by
  have hafter : ∀ l u : List α, (l.findIdxs p u.length).filterMap ((u ++ l)[·]?) = l.filter p := by
    intro l
    induction l with
    | nil => exact fun _ => rfl
    | cons b l ih =>
      intro u
      have hrest := ih (u ++ [b])
      rw [List.append_assoc, List.length_append] at hrest
      have hb : (u ++ b :: l)[u.length]? = some b := by simp
      rw [List.findIdxs_cons, List.filter_cons]
      split
      · rw [List.filterMap_cons_some hb]
        exact congrArg (b :: ·) hrest
      · exact hrest
  exact hafter l []

theorem map_filter_zipIdx (l : List α) (k : Nat) :
    ((l.zipIdx k).filter fun a => p a.1).map (·.2) = l.findIdxs p k := by
  induction l generalizing k with
  | nil => rfl
  | cons b l ih =>
    rw [List.zipIdx_cons, List.filter_cons, List.findIdxs_cons]
    split
    · exact congrArg (k :: ·) (ih (k + 1))
    · exact ih (k + 1)

end

end

/-! ## Columns -/

namespace Column

theorem ofCaller_eq (number : Int) (columns : List Column) :
    ofCaller number columns = columns.findIdxs fun c => c.item.parent == some number :=
  map_filter_zipIdx (fun c : Column => c.item.parent == some number) columns 0

theorem sorted_ofCaller (number : Int) (columns : List Column) :
    (ofCaller number columns).Pairwise (· < ·) := by
  rw [ofCaller_eq]
  exact List.pairwise_findIdxs

theorem lt_of_mem_ofCaller {number : Int} {columns : List Column} {i : Nat}
    (h : i ∈ ofCaller number columns) : i < columns.length := by
  rw [ofCaller_eq] at h
  exact List.lt_add_of_mem_findIdxs i h

theorem without_eq (gone : List Nat) (columns : List Column) :
    without gone columns = dropPlaces gone columns := rfl

/-- Drawing a call changes the columns at the places of the calls made by it. -/
theorem place_columns (ink : Ink) (columns : List Column) (item : Item) (isLast : Bool) :
    (place ink columns item isLast).columns = settle (ofCaller item.number columns)
      ⟨item, (place ink columns item isLast).style⟩ columns := by
  rw [place]
  split
  · next h => rw [h]; rfl
  · next h => rw [h]; rfl

/-- A call has the style of the lane that it takes over, or that of a new one. -/
theorem place_style (ink : Ink) (columns : List Column) (item : Item) (isLast : Bool) :
    (place ink columns item isLast).style =
      (ofCaller item.number columns).head?.elim (laneStyle columns.length)
        (columns[·]?.bind (·.style)) := by
  rw [place]
  split
  · next h => rw [h]; rfl
  · next h => rw [h]; rfl

end Column

/-! ## Lanes -/

theorem Lane.mergeAll_cons (ink : Ink) (source target : Nat) (sources : List Nat)
    (lanes : List Lane) :
    mergeAll ink target (source :: sources) lanes =
      let rest := mergeAll ink target (sources.map fun i => if source < i then i - 1 else i)
        (lanes.eraseIdx source)
      (mergeEdge ink source target lanes ++ rest.1, rest.2) := by
  rw [mergeAll]

/-- Induction along the edges that lead lanes into one: after each of them the sources that are left
have new numbers. -/
@[elab_as_elim]
theorem Lane.mergeAll_induction {motive : List Nat → List Lane → Prop}
    (nil : ∀ lanes, motive [] lanes)
    (cons : ∀ source sources lanes,
      motive (sources.map fun i => if source < i then i - 1 else i) (lanes.eraseIdx source) →
        motive (source :: sources) lanes)
    (sources : List Nat) (lanes : List Lane) : motive sources lanes := by
  induction hn : sources.length generalizing sources lanes with
  | zero =>
    rw [List.length_eq_zero_iff.1 hn]
    exact nil lanes
  | succ n ih =>
    obtain ⟨source, sources, rfl⟩ := List.exists_cons_of_length_eq_add_one hn
    exact cons source sources lanes (ih _ _ (by simpa using hn))

end RuleTrace
