import RuleTrace.Proofs.Graph.Columns
import RuleTrace.Proofs.Style.Shows

/-!
# The ink of a drawing

A drawing in any ink has the same rows as the plain one but for escape sequences, and the same
styles. Both go through the same columns: a column is looked at only for the caller of its call and
for its lane (`Column.key`), never for a label.

* `shows_draw`: the rows of a drawing show those of the plain one.
* `styles_draw`: the styles depend on the calls alone.
-/

namespace RuleTrace

namespace Lane

/-! ## Rows -/

/-- Cells that show others, one by one, do so in a row. -/
theorem shows_cells {f g : Nat → Lane → Text} (h : ∀ i lane, Shows (f i lane) (g i lane))
    (lanes : List Lane) : Shows (lanes.mapIdx f).flatten (lanes.mapIdx g).flatten :=
  .flatten (forall₂_mapIdx (fun i lane _ heq => heq ▸ h i lane)
    (List.forall₂_same.2 fun _ _ => rfl))

section
variable (ink : Ink) (lanes : List Lane) (column : Option Nat) (isLast : Bool)

theorem shows_stateCell (marked : Bool) (lane : Lane) :
    Shows (lane.stateCell ink isLast marked) (lane.stateCell .plain isLast marked) := by
  unfold stateCell
  split
  · refine ink.shows_paint_whole _ ?_
    rcases lane.state with _ | _ | _ <;> decide
  · refine ink.shows_paint_whole _ ?_
    cases isLast <;> decide

theorem shows_stateLine :
    Shows (stateLine ink lanes column isLast) (stateLine .plain lanes column isLast) :=
  shows_cells (fun i lane => shows_stateCell ink isLast (column == some i) lane) lanes

theorem shows_stateRows {label shown : List Text} (h : List.Forall₂ Shows label shown) :
    List.Forall₂ Shows (stateRows ink lanes column label isLast)
      (stateRows .plain lanes column shown isLast) := by
  cases h with
  | nil => exact .cons (shows_stateLine ink lanes column isLast) .nil
  | cons hline hrest =>
    refine .cons ((shows_stateLine ink lanes column isLast).append hline) ?_
    exact List.rel_map (fun _ _ hline => (shows_stateLine ink lanes none isLast).append hline) hrest

variable (moving : Option Style) (source target i : Nat)

theorem shows_upperCell (lane : Lane) :
    Shows (lane.upperCell ink moving source target i)
      (lane.upperCell .plain moving source target i) := by
  have hbar : Shows (ink.paint lane.style "| ".toList) "| ".toList :=
    ink.shows_paint_whole _ (by decide)
  have hline : ∀ c, c ≠ escapeChar →
      Shows (ink.paint lane.style ['|'] ++ ink.paint moving [c]) (['|'] ++ [c]) := by
    intro c hc
    exact (ink.shows_paint_whole _ (by decide)).append
      (ink.shows_paint_whole _ (by simpa using hc.symm))
  unfold upperCell
  split
  · exact hbar
  · split
    · exact hline '_' (by decide)
    · split
      · exact hline '/' (by decide)
      · split
        · exact hbar
        · exact .of_notMem (by decide)

theorem shows_lowerCell (right : Option Lane) (lane : Lane) :
    Shows (lane.lowerCell ink moving source target right i)
      (lane.lowerCell .plain moving source target right i) := by
  have hpaint : ∀ style (t : Text), escapeChar ∉ t → Shows (ink.paint style t) t :=
    fun style _ => ink.shows_paint_whole style
  unfold lowerCell
  split
  · exact hpaint _ _ (by decide)
  · split
    · exact (hpaint _ _ (by decide)).append (hpaint _ _ (by decide))
    · split
      · exact hpaint _ _ (by decide)
      · split
        · exact hpaint _ _ (by decide)
        · exact .of_notMem (by decide)

theorem shows_mergeEdge :
    List.Forall₂ Shows (mergeEdge ink source target lanes)
      (mergeEdge .plain source target lanes) :=
  .cons (shows_cells (shows_upperCell ink _ source target) lanes) <|
    .cons (shows_cells (fun i => shows_lowerCell ink _ source target i lanes[i + 1]?) lanes) .nil

theorem shows_mergeAll (sources : List Nat) :
    List.Forall₂ Shows (mergeAll ink target sources lanes).1
      (mergeAll .plain target sources lanes).1 := by
  induction sources, lanes using mergeAll_induction with
  | nil lanes =>
    rw [mergeAll, mergeAll]
    exact .nil
  | cons source sources lanes ih =>
    rw [mergeAll_cons, mergeAll_cons]
    exact List.rel_append (shows_mergeEdge ink lanes source target) ih

theorem shows_mergeRows (sources : List Nat) :
    List.Forall₂ Shows (mergeRows ink sources target lanes)
      (mergeRows .plain sources target lanes) :=
  shows_mergeAll ink lanes target _

end

end Lane

/-! ## Columns -/

namespace Column

/-- What a drawing looks at in a column: the caller of its call, and its lane. -/
def key (c : Column) : Option Int × Lane :=
  (c.item.parent, c.lane)

section
variable {cs ds : List Column} (h : cs.map key = ds.map key)

include h

theorem ofCaller_congr (number : Int) : ofCaller number cs = ofCaller number ds := by
  have hkeys : ∀ l : List Column, ofCaller number l =
      (l.map key).findIdxs fun k => k.1 == some number := by
    intro l
    rw [ofCaller_eq, List.findIdxs_map]
    rfl
  rw [hkeys, hkeys, h]

theorem lanes_congr : cs.map lane = ds.map lane := by
  have hlane : lane = Prod.snd ∘ key := rfl
  rw [hlane, ← List.map_map, ← List.map_map, h]

theorem style_congr (i : Nat) : cs[i]?.bind (·.style) = ds[i]?.bind (·.style) := by
  have hget : ∀ l : List Column, l[i]?.bind (·.style) = (l.map key)[i]?.bind (·.2.style) := by
    intro l
    rw [List.getElem?_map]
    cases l[i]? <;> rfl
  rw [hget, hget, h]

end

end Column

/-! ## Drawings -/

/-- Two items are the same call, with labels of their own. -/
structure Item.SameCall (item other : Item) : Prop where
  number : item.number = other.number
  parent : item.parent = other.parent
  state : item.state = other.state

/-- Two steps leave the same to the next one, with rows of their own. -/
structure DrawStep.SameLanes (step other : DrawStep) : Prop where
  columns : step.columns.map Column.key = other.columns.map Column.key
  style : step.style = other.style

/-- An item shows another one if its label does and all else is the same. -/
structure Item.Shows (item shown : Item) : Prop extends item.SameCall shown where
  label : List.Forall₂ RuleTrace.Shows item.label shown.label

/-- A step shows another one if its rows do and it leaves the same to the next one. -/
structure DrawStep.Shows (step shown : DrawStep) : Prop extends step.SameLanes shown where
  rows : List.Forall₂ RuleTrace.Shows step.rows shown.rows

/-- The rows of a step are drawn over the columns in use after it. -/
theorem rows_place (ink : Ink) (columns : List Column) (item : Item) (isLast : Bool) :
    (Column.place ink columns item isLast).rows =
      let lanes := (Column.place ink columns item isLast).columns.map Column.lane
      match Column.ofCaller item.number columns with
      | [] => Lane.stateRows ink lanes (some columns.length) item.label false
      | target :: merged =>
        Lane.mergeRows ink merged target (columns.map Column.lane) ++
          Lane.stateRows ink lanes (some target) item.label isLast := by
  rw [Column.place]
  cases Column.ofCaller item.number columns <;> rfl

section
variable (ink ink' : Ink) {cs ds : List Column} (h : cs.map Column.key = ds.map Column.key)
include h

theorem sameLanes_place {item other : Item} (hitem : item.SameCall other) (isLast : Bool) :
    (Column.place ink cs item isLast).SameLanes (Column.place ink' ds other isLast) := by
  have hlength : cs.length = ds.length := by simpa using congrArg List.length h
  have hkey : ∀ style, Column.key ⟨item, style⟩ = Column.key ⟨other, style⟩ := by
    intro style
    simp only [Column.key, Column.lane, hitem.parent, hitem.state]
  rw [Column.place, Column.place, ← hitem.number, ← Column.ofCaller_congr h]
  split
  · refine ⟨?_, by rw [hlength]⟩
    rw [List.map_append, List.map_append, h, hlength, List.map_singleton, hkey]
    rfl
  · next target merged _ =>
    refine ⟨?_, Column.style_congr h target⟩
    dsimp only
    rw [Column.style_congr h, Column.without_eq, Column.without_eq, map_dropPlaces,
      map_dropPlaces, List.map_set, List.map_set, h, hkey]

theorem sameLanes_drawSteps (spaced spaced' : Bool) {items others : List Item}
    (hitems : List.Forall₂ Item.SameCall items others) :
    List.Forall₂ DrawStep.SameLanes (drawSteps ink spaced cs items)
      (drawSteps ink' spaced' ds others) := by
  induction hitems generalizing cs ds with
  | nil => exact .nil
  | @cons item _ rest rest' hitem hrest ih =>
    have hlast : rest.isEmpty = rest'.isEmpty := by
      cases hrest <;> rfl
    have hstep := sameLanes_place ink ink' h hitem rest.isEmpty
    rw [drawSteps, drawSteps, ← hlast]
    exact .cons ⟨hstep.columns, hstep.style⟩ (ih hstep.columns)

theorem shows_place {item shown : Item} (hitem : item.Shows shown) (isLast : Bool) :
    (Column.place ink cs item isLast).Shows (Column.place .plain ds shown isLast) := by
  have hlength : cs.length = ds.length := by simpa using congrArg List.length h
  have hstep := sameLanes_place ink .plain h hitem.toSameCall isLast
  refine ⟨hstep, ?_⟩
  rw [rows_place, rows_place, ← hitem.number, ← Column.ofCaller_congr h,
    Column.lanes_congr hstep.columns, ← hlength, Column.lanes_congr h]
  dsimp only
  split
  · exact Lane.shows_stateRows ink _ _ false hitem.label
  · next target merged _ =>
    exact List.rel_append (Lane.shows_mergeRows ink _ target merged)
      (Lane.shows_stateRows ink _ _ isLast hitem.label)

theorem shows_drawSteps (spaced : Bool) {items shown : List Item}
    (hitems : List.Forall₂ Item.Shows items shown) :
    List.Forall₂ DrawStep.Shows (drawSteps ink spaced cs items)
      (drawSteps .plain spaced ds shown) := by
  induction hitems generalizing cs ds with
  | nil => exact .nil
  | @cons item _ rest rest' hitem hrest ih =>
    have hlast : rest.isEmpty = rest'.isEmpty := by
      cases hrest <;> rfl
    have hstep := shows_place ink h hitem rest.isEmpty
    rw [drawSteps, drawSteps, ← hlast]
    refine .cons ⟨⟨hstep.columns, hstep.style⟩, List.rel_append hstep.rows ?_⟩ (ih hstep.columns)
    split
    · rw [Column.lanes_congr hstep.columns]
      exact Lane.shows_stateRows ink _ none false .nil
    · exact .nil

end

/-- The rows of a drawing show those of the plain one. -/
theorem shows_draw (ink : Ink) (spaced : Bool) {items shown : List Item}
    (h : List.Forall₂ Item.Shows items shown) :
    List.Forall₂ Shows (draw ink spaced items).rows (draw .plain spaced shown).rows := by
  have hsteps := shows_drawSteps ink (.refl (List.map Column.key [])) spaced (List.rel_reverse h)
  exact List.rel_flatMap hsteps fun _ _ hstep => hstep.rows

/-- The styles of a drawing depend on the calls alone, not on labels, ink and space. -/
theorem styles_draw (ink ink' : Ink) (spaced spaced' : Bool) {items others : List Item}
    (h : List.Forall₂ Item.SameCall items others) :
    (draw ink spaced items).styles = (draw ink' spaced' others).styles := by
  have hsteps := sameLanes_drawSteps ink ink' (.refl (List.map Column.key [])) spaced spaced'
    (List.rel_reverse h)
  have hstyles := List.rel_map (fun _ _ hstep => DrawStep.SameLanes.style hstep) hsteps
  rw [List.forall₂_eq_eq_eq] at hstyles
  rw [draw, draw, hstyles]

end RuleTrace
