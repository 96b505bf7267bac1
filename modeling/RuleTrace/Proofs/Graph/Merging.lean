import Mathlib.Data.List.InsertIdx
import Mathlib.Data.List.Sort
import RuleTrace.Proofs.Graph.Planar

/-!
# Lanes that are led together

The lanes of the calls made by a call are led into the first of them one after the other, and each
one that goes renumbers those to its right (`takeOut`). The columns lose the same places all at once
(`dropPlaces`). Both leave the same lanes, and the target keeps its place.

Places are looked up on the way. `draw?` is the drawing that stops when a place is looked up,
changed or removed that is not there; it never stops.

* `takeOut_eq`: taking places out one by one, or all at once.
* `Lane.edgesInto_eq`: the edges, by the places that the sources had at first.
* `draw?_eq`: every place that a drawing looks up is there.
* `draw_merges`: all of this about the lanes of a drawing.
-/

namespace RuleTrace

/-! ## Places that go -/

section
variable {α β : Type}

/-- A list after the elements at some places were taken out one by one; each that goes renumbers
those after it. -/
def takeOut : List Nat → List α → List α
  | [], l => l
  | i :: gone, l => takeOut (gone.map fun j => if i < j then j - 1 else j) (l.eraseIdx i)
termination_by gone => gone.length
decreasing_by simp

theorem takeOut_nil (l : List α) : takeOut [] l = l := by
  rw [takeOut]

theorem takeOut_cons (i : Nat) (gone : List Nat) (l : List α) :
    takeOut (i :: gone) l =
      takeOut (gone.map fun j => if i < j then j - 1 else j) (l.eraseIdx i) := by
  rw [takeOut]

theorem map_takeOut (f : α → β) (gone : List Nat) (l : List α) :
    (takeOut gone l).map f = takeOut gone (l.map f) := by
  induction hn : gone.length generalizing gone l with
  | zero => rw [List.length_eq_zero_iff.1 hn, takeOut_nil, takeOut_nil]
  | succ n ih =>
    obtain ⟨i, gone, rfl⟩ := List.exists_cons_of_length_eq_add_one hn
    rw [takeOut_cons, takeOut_cons, List.eraseIdx_map, ih _ _ (by simpa using hn)]

/-- The places after one that went, in order, have new numbers, which are in order too and are
places of what is left. -/
theorem renumber_sorted {i : Nat} {gone : List Nat} {l : List α}
    (h : (i :: gone).Pairwise (· < ·)) (hlt : ∀ j ∈ i :: gone, j < l.length) :
    let rest := gone.map fun j => if i < j then j - 1 else j
    rest = gone.map (· - 1) ∧ rest.Pairwise (· < ·) ∧
      ∀ j ∈ rest, i ≤ j ∧ j < (l.eraseIdx i).length := by
  obtain ⟨hi, hsorted⟩ := List.pairwise_cons.1 h
  have hrest : (gone.map fun j => if i < j then j - 1 else j) = gone.map (· - 1) :=
    List.map_congr_left fun j hj => if_pos (hi j hj)
  intro rest
  rw [show rest = gone.map (· - 1) from hrest]
  refine ⟨rfl, ?_, fun j hj => ?_⟩
  · rw [List.pairwise_map]
    refine hsorted.imp_of_mem fun {a b} ha _ hab => ?_
    have := hi a ha
    omega
  · obtain ⟨k, hk, rfl⟩ := List.mem_map.1 hj
    have := hi k hk
    have := hlt k (List.mem_cons_of_mem i hk)
    rw [List.length_eraseIdx_of_lt (hlt i List.mem_cons_self)]
    omega

theorem dropPlaces_nil (l : List α) : dropPlaces [] l = l := by
  have hkept : l.zipIdx.filter (fun a => !([] : List Nat).contains a.2) = l.zipIdx :=
    List.filter_eq_self.2 fun _ _ => rfl
  rw [dropPlaces, hkept, List.zipIdx_map_fst]

theorem dropPlaces_congr {gone gone' : List Nat} (h : ∀ i, i ∈ gone ↔ i ∈ gone') (l : List α) :
    dropPlaces gone l = dropPlaces gone' l := by
  have hcontains : ∀ i, gone.contains i = gone'.contains i := fun i => by
    rw [Bool.eq_iff_iff, List.contains_iff_mem, List.contains_iff_mem, h]
  simp only [dropPlaces, hcontains]

/-- What is left of the elements after a place, given the place of the first of them. -/
def keptFrom (gone : List Nat) (k : Nat) (l : List α) : List α :=
  ((l.zipIdx k).filter fun a => !gone.contains a.2).map (·.1)

/-- The elements before all places that go stay. -/
theorem dropPlaces_append {gone : List Nat} {u : List α} (hu : ∀ i ∈ gone, u.length ≤ i)
    (v : List α) : dropPlaces gone (u ++ v) = u ++ keptFrom gone u.length v := by
  have hkept : u.zipIdx.filter (fun a => !gone.contains a.2) = u.zipIdx := by
    refine List.filter_eq_self.2 fun a ha => ?_
    have hlt := List.snd_lt_of_mem_zipIdx ha
    rw [Bool.not_eq_true', Bool.eq_false_iff, Ne, List.contains_iff_mem]
    intro hmem
    have := hu _ hmem
    omega
  rw [dropPlaces, List.zipIdx_append, List.filter_append, hkept, List.map_append,
    List.zipIdx_map_fst, Nat.zero_add]
  rfl

/-- After a place went, the others are those that they were, with numbers one less. -/
theorem dropPlaces_eraseIdx {i : Nat} {gone : List Nat} (hgone : ∀ j ∈ gone, i < j) {l : List α}
    (hi : i < l.length) : dropPlaces (gone.map (· - 1)) (l.eraseIdx i) =
      dropPlaces (i :: gone) l := by
  obtain ⟨u, a, v, rfl, hu⟩ : ∃ u a v, l = u ++ a :: v ∧ u.length = i :=
    ⟨l.take i, l[i], l.drop (i + 1), by simp, by simp; omega⟩
  subst hu
  -- what is before the place stays on both sides; after it all numbers differ by one
  have hshift : ∀ k, u.length ≤ k →
      (gone.map (· - 1)).contains k = (u.length :: gone).contains (k + 1) := by
    intro k hk
    rw [Bool.eq_iff_iff, List.contains_iff_mem, List.contains_iff_mem, List.mem_map, List.mem_cons]
    constructor
    · rintro ⟨j, hj, rfl⟩
      have := hgone j hj
      exact .inr (by rwa [Nat.sub_add_cancel (by omega)])
    · rintro (h | h)
      · omega
      · exact ⟨k + 1, h, rfl⟩
  rw [List.eraseIdx_append_of_length_le (Nat.le_refl _), Nat.sub_self, List.eraseIdx_cons_zero,
    dropPlaces_append (by
      intro j hj
      obtain ⟨k, hk, rfl⟩ := List.mem_map.1 hj
      have := hgone k hk
      omega),
    dropPlaces_append (by
      intro j hj
      rcases List.mem_cons.1 hj with rfl | hj
      · exact Nat.le_refl _
      · exact Nat.le_of_lt (hgone j hj))]
  congr 1
  rw [keptFrom, keptFrom, List.zipIdx_cons, List.filter_cons]
  have hfirst : (u.length :: gone).contains u.length = true := by simp
  rw [hfirst, Bool.not_true, if_neg Bool.false_ne_true, List.zipIdx_succ, List.filter_map,
    List.map_map]
  have hfilter : (v.zipIdx u.length).filter (fun a => !(gone.map (· - 1)).contains a.2) =
      (v.zipIdx u.length).filter fun a => !(u.length :: gone).contains (a.2 + 1) :=
    List.filter_congr fun a ha => congrArg _ (hshift a.2 (List.le_snd_of_mem_zipIdx ha))
  rw [hfilter]
  rfl

/-- Places that are taken out one by one, in order, are those that are dropped at once. -/
theorem takeOut_eq {gone : List Nat} {l : List α} (h : gone.Pairwise (· < ·))
    (hlt : ∀ i ∈ gone, i < l.length) : takeOut gone l = dropPlaces gone l := by
  induction hn : gone.length generalizing gone l with
  | zero => rw [List.length_eq_zero_iff.1 hn, takeOut_nil, dropPlaces_nil]
  | succ n ih =>
    obtain ⟨i, gone, rfl⟩ := List.exists_cons_of_length_eq_add_one hn
    obtain ⟨hrest, hsorted, hbound⟩ := renumber_sorted h hlt
    rw [takeOut_cons, ih hsorted (fun j hj => (hbound j hj).2) (by simpa using hn), hrest]
    exact dropPlaces_eraseIdx (List.pairwise_cons.1 h).1 (hlt i List.mem_cons_self)

section
variable {gone : List Nat} {target : Nat} (hgone : ∀ i ∈ gone, target < i) {l : List α}
include hgone

theorem dropPlaces_eq_append : ∃ rest, (l.length ≤ target → rest = []) ∧
    dropPlaces gone l = l.take (target + 1) ++ rest ∧
      ∀ a, dropPlaces gone (l.set target a) = (l.set target a).take (target + 1) ++ rest := by
  have hu : ∀ l : List α, ∀ i ∈ gone, (l.take (target + 1)).length ≤ i := fun l i hi => by
    have := hgone i hi
    rw [List.length_take]
    omega
  refine ⟨keptFrom gone (l.take (target + 1)).length (l.drop (target + 1)), fun h => ?_, ?_,
    fun a => ?_⟩
  · rw [List.drop_of_length_le (by omega)]
    rfl
  · rw [← dropPlaces_append (hu l), List.take_append_drop]
  · have hrest : (l.set target a).drop (target + 1) = l.drop (target + 1) := by
      rw [List.drop_set, if_pos (Nat.lt_succ_self target)]
    have hlength : ((l.set target a).take (target + 1)).length =
        (l.take (target + 1)).length := by simp
    rw [← hlength, ← hrest, ← dropPlaces_append (hu _), List.take_append_drop]

/-- A place before all that go keeps what is there. -/
theorem getElem?_dropPlaces : (dropPlaces gone l)[target]? = l[target]? := by
  obtain ⟨rest, hrest, heq, -⟩ := dropPlaces_eq_append hgone (l := l)
  rw [heq]
  rcases Nat.lt_or_ge target l.length with h | h
  · rw [List.getElem?_append_left (by simp; omega), List.getElem?_take_of_lt (by omega)]
  · rw [hrest h, List.append_nil, List.getElem?_take_of_lt (by omega)]

/-- It does not matter whether it gets something new before or after the others go. -/
theorem dropPlaces_set (a : α) :
    dropPlaces gone (l.set target a) = (dropPlaces gone l).set target a := by
  obtain ⟨rest, hrest, heq, hset⟩ := dropPlaces_eq_append hgone (l := l)
  rw [heq, hset]
  rcases Nat.lt_or_ge target l.length with h | h
  · rw [List.set_append_left _ _ (by simp; omega), List.take_set]
  · rw [hrest h, List.append_nil, List.append_nil, List.take_set]

end

end

/-! ## Edges of several lanes -/

namespace Lane

/-- The lanes that are left are those that were not taken out. -/
theorem mergeAll_snd (ink : Ink) (target : Nat) (sources : List Nat) (lanes : List Lane) :
    (mergeAll ink target sources lanes).2 = takeOut sources lanes := by
  induction sources, lanes using mergeAll_induction with
  | nil lanes => rw [mergeAll, takeOut_nil]
  | cons source sources lanes ih => rw [mergeAll_cons, takeOut_cons, ← ih]

section
variable {target : Nat} {sources : List Nat} {lanes : List Lane}
  (hsorted : sources.Pairwise (· < ·)) (hlt : ∀ s ∈ sources, s < lanes.length)
include hsorted hlt

/-- The edges, by the places that the sources had at first: as many as went before have been taken
from the place of each source, and out of the lanes. -/
theorem edgesInto_eq : edgesInto target sources lanes =
    sources.mapIdx fun k s => ⟨s - k, target, dropPlaces (sources.take k) lanes⟩ := by
  induction sources, lanes using mergeAll_induction with
  | nil lanes =>
    rw [edgesInto]
    rfl
  | cons source sources lanes ih =>
    obtain ⟨hrest, hsorted', hbound⟩ := renumber_sorted hsorted hlt
    have hsource := hlt source List.mem_cons_self
    have hrec := ih hsorted' fun j hj => (hbound j hj).2
    have hright : ∀ s ∈ sources, source < s := (List.pairwise_cons.1 hsorted).1
    rw [edgesInto_cons, hrec, hrest, List.mapIdx_cons, List.take_zero, dropPlaces_nil,
      Nat.sub_zero]
    -- an edge of the rest comes after one more, and its source had a number more at first
    refine congrArg _ (List.ext_getElem? fun k => ?_)
    rw [List.getElem?_mapIdx, List.getElem?_mapIdx, List.getElem?_map, Option.map_map]
    refine Option.map_congr fun s _ => ?_
    have hgone : dropPlaces ((sources.map (· - 1)).take k) (lanes.eraseIdx source) =
        dropPlaces ((source :: sources).take (k + 1)) lanes := by
      rw [← List.map_take, List.take_succ_cons]
      exact dropPlaces_eraseIdx (fun j hj => hright j (List.mem_of_mem_take hj)) hsource
    rw [← hgone, Function.comp_apply, Nat.sub_sub, Nat.add_comm 1 k]

/-- Each edge leads a lane that is there into one before it. -/
theorem inRange_of_mem_edgesInto (htarget : ∀ s ∈ sources, target < s) {e : Edge}
    (he : e ∈ edgesInto target sources lanes) :
    e.target = target ∧ target < e.source ∧ e.source < e.lanes.length := by
  induction sources, lanes using mergeAll_induction with
  | nil lanes =>
    rw [edgesInto] at he
    cases he
  | cons source sources lanes ih =>
    obtain ⟨-, hsorted', hbound⟩ := renumber_sorted hsorted hlt
    have hsource := hlt source List.mem_cons_self
    have hleft := htarget source List.mem_cons_self
    rw [edgesInto_cons] at he
    rcases List.mem_cons.1 he with rfl | he
    · exact ⟨rfl, hleft, hsource⟩
    · exact ih hsorted' (fun j hj => (hbound j hj).2)
        (fun j hj => Nat.lt_of_lt_of_le hleft (hbound j hj).1) he

end

end Lane

/-! ## Lookups

These are the definitions of a drawing again, but for the places that are looked up, changed or
removed: where one is not there, nothing comes out. -/

/-- A list with a new element at a place that is there. -/
def setAt? {α : Type} (i : Nat) (a : α) (l : List α) : Option (List α) :=
  if i < l.length then some (l.set i a) else none

/-- A list without what stands at a place that is there. -/
def removeAt? {α : Type} (i : Nat) (l : List α) : Option (List α) :=
  if i < l.length then some (l.eraseIdx i) else none

namespace Lane

/-- One lane of the second row of an edge. To the right of the moving line the lane after it is
looked up, but for the last one. -/
def lowerCell? (ink : Ink) (moving : Option Style) (source target : Nat) (lanes : List Lane)
    (i : Nat) (lane : Lane) : Option Text :=
  if target < i ∧ source ≤ i ∧ i + 1 < lanes.length then do
    let next ← lanes[i + 1]?
    some (lane.lowerCell ink moving source target (some next) i)
  else some (lane.lowerCell ink moving source target none i)

/-- The two rows of an edge; the source lane is looked up. -/
def mergeEdge? (ink : Ink) (source target : Nat) (lanes : List Lane) : Option (List Text) := do
  let moving ← lanes[source]?
  let lower ← (lanes.mapIdx fun i lane =>
    lane.lowerCell? ink moving.style source target lanes i).mapM id
  some [(lanes.mapIdx fun i lane => lane.upperCell ink moving.style source target i).flatten,
    lower.flatten]

/-- Leads lanes into a target lane, one after the other; each source is removed. -/
def mergeAll? (ink : Ink) (target : Nat) : List Nat → List Lane → Option (List Text × List Lane)
  | [], lanes => some ([], lanes)
  | source :: sources, lanes => do
    let edge ← mergeEdge? ink source target lanes
    let left ← removeAt? source lanes
    let (rows, left) ← mergeAll? ink target
      (sources.map fun i => if source < i then i - 1 else i) left
    some (edge ++ rows, left)
termination_by sources => sources.length
decreasing_by simp

/-- The rows that lead lanes into a target lane, the leftmost first. -/
def mergeRows? (ink : Ink) (sources : List Nat) (target : Nat) (lanes : List Lane) :
    Option (List Text) := do
  let merged ← mergeAll? ink target (sources.mergeSort (· ≤ ·)) lanes
  some merged.1

end Lane

/-- Draws a call. The style of a new lane is looked up, and the column that a call takes over, which
is changed; at the end the call's own column is. -/
def Column.place? (ink : Ink) (columns : List Column) (item : Item) (isLast : Bool) :
    Option DrawStep :=
  match ofCaller item.number columns with
  | [] => do
    let style ← laneStyles[columns.length % laneStyles.length]?
    let after := columns ++ [⟨item, style⟩]
    let own ← after[columns.length]?
    some
      { rows := Lane.stateRows ink (after.map lane) (some columns.length) item.label false
        columns := after
        style := own.style }
  | target :: merged => do
    let edges ← Lane.mergeRows? ink merged target (columns.map lane)
    let old ← columns[target]?
    let changed ← setAt? target ⟨item, old.style⟩ columns
    let after := without merged changed
    let own ← after[target]?
    some
      { rows := edges ++ Lane.stateRows ink (after.map lane) (some target) item.label isLast
        columns := after
        style := own.style }

/-- The steps that draw calls in the given order. -/
def drawSteps? (ink : Ink) (spaced : Bool) : List Column → List Item → Option (List DrawStep)
  | _, [] => some []
  | columns, item :: rest => do
    let step ← Column.place? ink columns item rest.isEmpty
    let space :=
      if spaced && !rest.isEmpty then
        Lane.stateRows ink (step.columns.map Column.lane) none [] false
      else []
    let steps ← drawSteps? ink spaced step.columns rest
    some ({ step with rows := step.rows ++ space } :: steps)

/-- Draws a list of calls. -/
def draw? (ink : Ink) (spaced : Bool) (items : List Item) : Option Drawing := do
  let steps ← drawSteps? ink spaced [] items.reverse
  some { rows := steps.flatMap (·.rows), styles := (steps.map (·.style)).reverse }

namespace Lane

section
variable (ink : Ink) {source target : Nat} {lanes : List Lane}

theorem lowerCell?_eq (moving : Option Style) {i : Nat} {lane : Lane} :
    lane.lowerCell? ink moving source target lanes i =
      some (lane.lowerCell ink moving source target lanes[i + 1]? i) := by
  rw [lowerCell?]
  split
  · next h =>
    rw [List.getElem?_eq_getElem h.2.2]
    rfl
  · next h =>
    -- left of the moving line the next lane does not matter, and at the end there is none
    rcases Nat.lt_or_ge (i + 1) lanes.length with hlt | hge
    · have hleft : i ≤ target ∨ i < source := by omega
      simp only [lowerCell]
      split
      · rfl
      · split
        · rfl
        · rw [if_pos (by omega), if_pos (by omega)]
    · rw [List.getElem?_eq_none hge]

theorem mergeEdge?_eq (hsource : source < lanes.length) :
    mergeEdge? ink source target lanes = some (mergeEdge ink source target lanes) := by
  have hlower : ∀ moving, (lanes.mapIdx fun i lane =>
      lane.lowerCell? ink moving source target lanes i).mapM id = some (lanes.mapIdx fun i lane =>
        lane.lowerCell ink moving source target lanes[i + 1]? i) := by
    intro moving
    simp only [lowerCell?_eq, List.mapIdx_eq_zipIdx_map, List.mapM_map]
    exact List.mapM_pure
  rw [mergeEdge?, mergeEdge, List.getElem?_eq_getElem hsource]
  simp only [Option.bind_eq_bind, Option.bind_some, hlower]

theorem mergeAll?_eq {sources : List Nat} (hsorted : sources.Pairwise (· < ·))
    (hlt : ∀ s ∈ sources, s < lanes.length) :
    mergeAll? ink target sources lanes = some (mergeAll ink target sources lanes) := by
  induction sources, lanes using mergeAll_induction with
  | nil lanes => rw [mergeAll?, mergeAll]
  | cons source sources lanes ih =>
    obtain ⟨-, hsorted', hbound⟩ := renumber_sorted hsorted hlt
    have hsource := hlt source List.mem_cons_self
    have hrec := ih hsorted' fun j hj => (hbound j hj).2
    rw [mergeAll?, mergeEdge?_eq ink hsource, removeAt?, if_pos hsource, mergeAll_cons]
    simp only [Option.bind_eq_bind, Option.bind_some, hrec]

end

end Lane

theorem Column.place?_eq (ink : Ink) (columns : List Column) (item : Item) (isLast : Bool) :
    place? ink columns item isLast = some (place ink columns item isLast) := by
  cases htaken : ofCaller item.number columns with
  | nil =>
    have hstyle := List.getElem?_eq_getElem (l := laneStyles)
      (Nat.mod_lt columns.length (by decide : 0 < laneStyles.length))
    simp only [place?, place, htaken, laneStyle, hstyle, Option.bind_eq_bind, Option.bind_some,
      List.getElem?_concat_length]
  | cons target merged =>
    have hsorted := sorted_ofCaller item.number columns
    have hlt : ∀ i ∈ target :: merged, i < columns.length :=
      fun i hi => lt_of_mem_ofCaller (htaken ▸ hi)
    rw [htaken] at hsorted
    obtain ⟨hright, hsorted⟩ := List.pairwise_cons.1 hsorted
    have htarget := hlt target List.mem_cons_self
    have hrows : Lane.mergeRows? ink merged target (columns.map lane) =
        some (Lane.mergeRows ink merged target (columns.map lane)) := by
      rw [Lane.mergeRows?, Lane.mergeRows, List.mergeSort_eq_self _ (hsorted.imp Nat.le_of_lt),
        Lane.mergeAll?_eq ink hsorted fun s hs => by
          rw [List.length_map]
          exact hlt s (List.mem_cons_of_mem _ hs)]
      rfl
    have hown : ∀ c, (without merged (columns.set target c))[target]? = some c := fun c => by
      rw [without_eq, getElem?_dropPlaces hright, List.getElem?_set_self htarget]
    simp only [place?, place, htaken, hrows, setAt?, if_pos htarget,
      List.getElem?_eq_getElem htarget, Option.bind_eq_bind, Option.bind_some, hown]

theorem drawSteps?_eq (ink : Ink) (spaced : Bool) (columns : List Column) (items : List Item) :
    drawSteps? ink spaced columns items = some (drawSteps ink spaced columns items) := by
  induction items generalizing columns with
  | nil => rfl
  | cons item rest ih =>
    simp only [drawSteps?, drawSteps, Column.place?_eq, ih, Option.bind_eq_bind, Option.bind_some]

/-- Every place that a drawing looks up, changes or removes is there. -/
theorem draw?_eq (ink : Ink) (spaced : Bool) (items : List Item) :
    draw? ink spaced items = some (draw ink spaced items) := by
  simp only [draw?, draw, drawSteps?_eq, Option.bind_eq_bind, Option.bind_some]

/-! ## Columns that are led together -/

/-- Columns at some places, which are `ascending` in order, are led into a target: the edges are
those of the columns that are left each time, and the columns that are left at the end are those
that a drawing keeps, which may change the target before or after. -/
structure LeadsTogether (ink : Ink) (sources ascending : List Nat) (target : Nat)
    (columns : List Column) : Prop where
  perm : ascending.Perm sources
  sorted : ascending.Pairwise (· < ·)
  rows : Lane.mergeRows ink sources target (columns.map Column.lane) =
    (ascending.mapIdx fun k s => Lane.mergeEdge ink (s - k) target
      ((Column.without (ascending.take k) columns).map Column.lane)).flatten
  inRange : ∀ k s, ascending[k]? = some s →
    target < s - k ∧ s - k < (Column.without (ascending.take k) columns).length
  left : takeOut ascending columns = Column.without sources columns
  lanes : (Lane.mergeAll ink target ascending (columns.map Column.lane)).2 =
    (Column.without sources columns).map Column.lane
  unmoved : (Column.without sources columns)[target]? = columns[target]?
  changed : ∀ c, Column.without sources (columns.set target c) =
    (Column.without sources columns).set target c

theorem sorted_mergeSort {sources : List Nat} (h : sources.Nodup) :
    (sources.mergeSort (· ≤ ·)).Pairwise (· < ·) :=
  (List.sortedLE_mergeSort.sortedLT_of_nodup
    ((List.mergeSort_perm sources _).nodup_iff.2 h)).pairwise

theorem leadsTogether (ink : Ink) {sources : List Nat} {target : Nat} {columns : List Column}
    (hne : sources.Nodup) (hrange : ∀ s ∈ sources, target < s ∧ s < columns.length) :
    LeadsTogether ink sources (sources.mergeSort (· ≤ ·)) target columns := by
  have hperm := List.mergeSort_perm sources (· ≤ ·)
  have hsorted := sorted_mergeSort hne
  have hmem : ∀ s, s ∈ sources.mergeSort (· ≤ ·) ↔ s ∈ sources := fun s => hperm.mem_iff
  have hlt : ∀ s ∈ sources.mergeSort (· ≤ ·), s < columns.length :=
    fun s hs => (hrange s ((hmem s).1 hs)).2
  have hedges : Lane.edgesInto target (sources.mergeSort (· ≤ ·)) (columns.map Column.lane) = _ :=
    Lane.edgesInto_eq hsorted fun s hs => by
      rw [List.length_map]
      exact hlt s hs
  simp only [← map_dropPlaces, ← Column.without_eq] at hedges
  have hleft : takeOut (sources.mergeSort (· ≤ ·)) columns = Column.without sources columns :=
    (takeOut_eq hsorted hlt).trans (dropPlaces_congr hmem columns)
  refine ⟨hperm, hsorted, ?_, fun k s hs => ?_, hleft, ?_, ?_, ?_⟩
  · rw [Lane.mergeRows, Lane.mergeAll_eq, hedges, List.mapIdx_eq_zipIdx_map,
      List.mapIdx_eq_zipIdx_map, List.flatMap_map]
    rfl
  · have hedge := List.mem_of_getElem? ((congrArg (·[k]?) hedges).trans
      (by rw [List.getElem?_mapIdx, hs, Option.map_some]))
    simpa using (Lane.inRange_of_mem_edgesInto hsorted (by simpa using hlt)
      (fun s hs => (hrange s ((hmem s).1 hs)).1) hedge).2
  · rw [Lane.mergeAll_snd, ← map_takeOut, hleft]
  · exact getElem?_dropPlaces fun s hs => (hrange s hs).1
  · exact dropPlaces_set fun s hs => (hrange s hs).1

/-- Columns at several places that are led into one before them go one by one, the leftmost first,
each from the place that it has by then and over the columns that are left by then. At the end those
are left that a drawing keeps, and the target is where it was. No drawing of a list of calls looks
up, changes or removes a place that is not there, whatever their numbers are. -/
theorem draw_merges (ink : Ink) :
    (∀ sources target columns, sources.Nodup →
      (∀ s ∈ sources, target < s ∧ s < columns.length) →
      LeadsTogether ink sources (sources.mergeSort (· ≤ ·)) target columns) ∧
    ∀ spaced items, draw? ink spaced items = some (draw ink spaced items) :=
  ⟨fun _ _ _ hne hrange => leadsTogether ink hne hrange, draw?_eq ink⟩

/-- Five calls of one caller, the one in the middle with the number of another one. -/
def fiveColumns : List Column :=
  [⟨⟨1, some 0, .pending, []⟩, none⟩, ⟨⟨2, some 0, .pending, []⟩, none⟩,
    ⟨⟨2, some 0, .pending, []⟩, none⟩, ⟨⟨4, some 0, .pending, []⟩, none⟩,
    ⟨⟨5, some 0, .pending, []⟩, none⟩]

/-- The fourth and the second of five columns are led into the first one. The fourth is in the third
place by then. A drawing of the same calls, of which two have one number, finds all its places. -/
theorem draw_merges_fiveColumns :
    [3, 1].Nodup ∧ (∀ s ∈ [3, 1], 0 < s ∧ s < fiveColumns.length) ∧
      Lane.mergeRows .plain [3, 1] 0 (fiveColumns.map Column.lane) =
        Lane.mergeEdge .plain 1 0 (fiveColumns.map Column.lane) ++
          Lane.mergeEdge .plain 2 0 ((Column.without [1] fiveColumns).map Column.lane) ∧
      (draw? .plain true (⟨0, none, .pending, []⟩ :: fiveColumns.map (·.item))).isSome = true := by
  have hne : [3, 1].Nodup := by decide
  have hrange : ∀ s ∈ [3, 1], 0 < s ∧ s < fiveColumns.length := by decide
  have hsort : [3, 1].mergeSort (· ≤ ·) = [1, 3] := by simp [List.mergeSort]
  obtain ⟨hmerge, hdraw⟩ := draw_merges .plain
  have hrows := (hmerge [3, 1] 0 fiveColumns hne hrange).rows
  rw [hsort] at hrows
  refine ⟨hne, hrange, hrows, ?_⟩
  rw [hdraw]
  rfl

end RuleTrace
