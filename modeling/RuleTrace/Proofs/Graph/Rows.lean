import Mathlib.Algebra.GroupWithZero.Nat
import RuleTrace.Proofs.Graph.Callers
import RuleTrace.Proofs.Graph.Ink

/-!
# The rows of a drawing

A row of a drawing is made of lanes and a line of text. Escape sequences apart, each lane in use is
two characters wide (`IsRow`). A call adds two rows for each lane that it leads into its own, a row
for each line of its label, of which the first has the one glyph, and perhaps a row of bars
(`DrawsCall`). In the columns are the calls that were drawn and whose caller was not
(`Occupies.place`).

* `Lane.isRow_stateRows`, `Lane.isRow_mergeAll`: the width of rows, and their glyphs.
* `Column.drawsCall_place`: the rows that a call adds.
* `draw_layout`: the columns, the rows and their count.
-/

namespace RuleTrace

/-! ## Widths and glyphs -/

/-- The glyphs of a text that starts at an offset: the offset of each of them, and its state. -/
def glyphsIn : Nat → Text → List (Nat × NodeState)
  | _, [] => []
  | k, c :: t => ((NodeState.ofGlyph? c).map (k, ·)).toList ++ glyphsIn (k + 1) t

/-- A row over `n` lanes with a line of text after them: without escape sequences the lanes are two
characters wide each and have the given glyphs. -/
def IsRow (n : Nat) (glyphs : List (Nat × NodeState)) (line row : Text) : Prop :=
  ∃ lanes, row = lanes ++ line ∧ (stripEscapes lanes).length = 2 * n ∧
    glyphsIn 0 (stripEscapes lanes) = glyphs

theorem glyphsIn_append (k : Nat) (t u : Text) :
    glyphsIn k (t ++ u) = glyphsIn k t ++ glyphsIn (k + t.length) u := by
  induction t generalizing k with
  | nil => rfl
  | cons c t ih =>
    simp only [List.cons_append, glyphsIn, ih, List.append_assoc, List.length_cons,
      show k + 1 + t.length = k + (t.length + 1) by omega]

theorem glyphsIn_eq_nil {t : Text} (h : ∀ c ∈ t, NodeState.ofGlyph? c = none) (k : Nat) :
    glyphsIn k t = [] := by
  induction t generalizing k with
  | nil => rfl
  | cons c t ih =>
    rw [glyphsIn, h c List.mem_cons_self, ih fun d hd => h d (List.mem_cons_of_mem c hd)]
    rfl

theorem glyphsIn_glyph (k : Nat) (s : NodeState) : glyphsIn k s.glyph.1 = [(k, s)] := by
  rcases s with _ | _ | _ <;> rfl

namespace Lane

theorem forall_mem_cells {P : Char → Prop} {f : Nat → Lane → Text}
    (hf : ∀ i lane, ∀ c ∈ f i lane, P c) (lanes : List Lane) :
    ∀ c ∈ (lanes.mapIdx f).flatten, P c := by
  intro c hc
  obtain ⟨cell, hcell, hmem⟩ := List.mem_flatten.1 hc
  obtain ⟨i, _, rfl⟩ := List.mem_mapIdx.1 hcell
  exact hf i _ c hmem

section
variable {f : Nat → Lane → Text} (hf : ∀ i lane, (f i lane).length = 2)
include hf

theorem length_cells (lanes : List Lane) : (lanes.mapIdx f).flatten.length = 2 * lanes.length := by
  induction lanes generalizing f with
  | nil => rfl
  | cons lane lanes ih =>
    simp only [List.mapIdx_cons, List.flatten_cons, List.length_append, hf,
      ih fun i => hf (i + 1), List.length_cons]
    omega

/-- Cells that show plain ones of two characters make up a row. -/
theorem isRow_cells {g : Nat → Lane → Text} (hg : ∀ i lane, Shows (g i lane) (f i lane))
    (lanes : List Lane) (line : Text) :
    IsRow lanes.length (glyphsIn 0 (lanes.mapIdx f).flatten) line
      ((lanes.mapIdx g).flatten ++ line) := by
  have hshown := (shows_cells hg lanes).stripEscapes_eq
  exact ⟨_, rfl, by rw [hshown, length_cells hf], by rw [hshown]⟩

/-- The one glyph of a row is that of the marked lane. -/
theorem glyphsIn_cells {lanes : List Lane} {column : Nat} {lane : Lane}
    (hlane : lanes[column]? = some lane) (hat : ∀ lane, f column lane = lane.state.glyph.1)
    (hother : ∀ i, i ≠ column → ∀ lane, ∀ c ∈ f i lane, NodeState.ofGlyph? c = none) (k : Nat) :
    glyphsIn k (lanes.mapIdx f).flatten = [(k + 2 * column, lane.state)] := by
  induction lanes generalizing f column k with
  | nil => simp at hlane
  | cons first lanes ih =>
    rw [List.mapIdx_cons, List.flatten_cons, glyphsIn_append, hf]
    cases column with
    | zero =>
      obtain rfl : first = lane := by simpa using hlane
      have hrest := forall_mem_cells (fun i => hother (i + 1) (Nat.succ_ne_zero i)) lanes
      rw [hat, glyphsIn_glyph, glyphsIn_eq_nil hrest, List.append_nil]
      rfl
    | succ column =>
      have hnext := ih (fun i => hf (i + 1)) (by simpa using hlane) hat
        (fun i hi => hother (i + 1) (by omega)) (k + 2)
      rw [glyphsIn_eq_nil (hother 0 (by omega) first), hnext, List.nil_append]
      simp only [List.cons.injEq, Prod.mk.injEq, and_true]
      omega

end

/-! ## State rows -/

section
variable (ink : Ink) (lanes : List Lane) (isLast : Bool)

theorem length_stateCell (marked : Bool) (lane : Lane) :
    (lane.stateCell .plain isLast marked).length = 2 := by
  unfold stateCell
  rcases lane.state with _ | _ | _ <;> cases isLast <;> cases marked <;> rfl

theorem ofGlyph?_stateCell (lane : Lane) :
    ∀ c ∈ lane.stateCell .plain isLast false, NodeState.ofGlyph? c = none := by
  simp only [stateCell, Bool.false_eq_true, if_false, Ink.plain_paint]
  exact ofGlyph?_bar isLast

/-- A state row without a marked lane has no glyph. -/
theorem isRow_bars (line : Text) :
    IsRow lanes.length [] line (stateLine ink lanes none isLast ++ line) := by
  have hrow := isRow_cells (fun _ => length_stateCell isLast false)
    (fun _ => shows_stateCell ink isLast false) lanes line
  rwa [glyphsIn_eq_nil (forall_mem_cells (fun _ => ofGlyph?_stateCell isLast) lanes)] at hrow

variable {lanes} {column : Nat} {lane : Lane} (hlane : lanes[column]? = some lane)
include hlane

/-- A state row with a marked lane has its glyph there. -/
theorem isRow_stateLine (line : Text) :
    IsRow lanes.length [(2 * column, lane.state)] line
      (stateLine ink lanes (some column) isLast ++ line) := by
  have hrow := isRow_cells (fun i lane => length_stateCell isLast _ lane)
    (fun i lane => shows_stateCell ink isLast (some column == some i) lane) lanes line
  have hother : ∀ i, i ≠ column → ∀ lane,
      ∀ c ∈ stateCell .plain isLast (some column == some i) lane,
        NodeState.ofGlyph? c = none := by
    intro i hi lane
    have hunmarked : (some column == some i) = false := by simpa using Ne.symm hi
    rw [hunmarked]
    exact ofGlyph?_stateCell isLast lane
  rwa [glyphsIn_cells (fun i lane => length_stateCell isLast _ lane) hlane
    (fun lane => by simp [stateCell]) hother, Nat.zero_add] at hrow

/-- The rows of a label: one for each line, and one even without a line. The glyph is on the
first. -/
theorem isRow_stateRows (label : List Text) :
    (stateRows ink lanes (some column) label isLast).length = max 1 label.length ∧
      ∀ m row, (stateRows ink lanes (some column) label isLast)[m]? = some row →
        IsRow lanes.length (if m = 0 then [(2 * column, lane.state)] else [])
          (label[m]?.getD []) row := by
  cases label with
  | nil =>
    refine ⟨rfl, fun m row hrow => ?_⟩
    obtain ⟨rfl, rfl⟩ : m = 0 ∧ stateLine ink lanes (some column) isLast = row := by
      cases m <;> simp_all [stateRows]
    simpa using isRow_stateLine ink isLast hlane []
  | cons line rest =>
    refine ⟨by simp [stateRows], fun m row hrow => ?_⟩
    cases m with
    | zero =>
      obtain rfl : stateLine ink lanes (some column) isLast ++ line = row := by
        simpa [stateRows] using hrow
      exact isRow_stateLine ink isLast hlane line
    | succ m =>
      simp only [stateRows, List.getElem?_cons_succ, List.getElem?_map,
        Option.map_eq_some_iff] at hrow
      obtain ⟨text, htext, rfl⟩ := hrow
      simpa [htext] using isRow_bars ink lanes isLast text

end

/-! ## Edges -/

section
variable (moving : Option Style) (source target i : Nat) (lane : Lane)

theorem length_upperCell : (lane.upperCell .plain moving source target i).length = 2 := by
  simp only [upperCell, Ink.plain_paint]
  repeat' split
  all_goals rfl

theorem length_lowerCell (right : Option Lane) :
    (lane.lowerCell .plain moving source target right i).length = 2 := by
  simp only [lowerCell, Ink.plain_paint]
  repeat' split
  all_goals rfl

end

/-- Both rows of an edge are as wide as the lanes it is drawn over. -/
theorem isRow_mergeEdge (ink : Ink) (source target : Nat) (lanes : List Lane) :
    ∀ row ∈ mergeEdge ink source target lanes, IsRow lanes.length [] [] row := by
  have hrow : ∀ {f g : Nat → Lane → Text}, (∀ i lane, (f i lane).length = 2) →
      (∀ i lane, Shows (g i lane) (f i lane)) →
      (∀ i lane, ∀ c ∈ f i lane, NodeState.ofGlyph? c = none) →
      IsRow lanes.length [] [] (lanes.mapIdx g).flatten := by
    intro f g hf hg hnone
    have hcells := isRow_cells hf hg lanes []
    rwa [glyphsIn_eq_nil (forall_mem_cells hnone lanes), List.append_nil] at hcells
  intro row hmem
  rcases List.mem_cons.1 hmem with rfl | hmem
  · exact hrow (length_upperCell _ source target) (shows_upperCell ink _ source target)
      fun i lane => ofGlyph?_upperCell _ i lane
  · rw [List.mem_singleton.1 hmem]
    exact hrow (fun i lane => length_lowerCell _ source target i lane lanes[i + 1]?)
      (fun i => shows_lowerCell ink _ source target i _) fun i lane => ofGlyph?_lowerCell _ i lane _

/-- Two rows lead each source into the target, and every pair is one lane less wide than the one
before. -/
theorem isRow_mergeAll (ink : Ink) (target : Nat) {sources : List Nat} {lanes : List Lane}
    (hsorted : sources.Pairwise (· < ·)) (hlt : ∀ s ∈ sources, s < lanes.length) :
    (mergeAll ink target sources lanes).1.length = 2 * sources.length ∧
      ∀ m row, (mergeAll ink target sources lanes).1[m]? = some row →
        IsRow (lanes.length - m / 2) [] [] row := by
  induction sources, lanes using mergeAll_induction with
  | nil lanes =>
    rw [mergeAll]
    exact ⟨rfl, fun m row hrow => by simp at hrow⟩
  | cons source sources lanes ih =>
    obtain ⟨hsource, hsorted⟩ := List.pairwise_cons.1 hsorted
    rw [List.forall_mem_cons] at hlt
    have herase := List.length_eraseIdx_of_lt hlt.1
    obtain ⟨hlength, hrows⟩ := ih
      (by
        rw [List.pairwise_map]
        refine hsorted.imp_of_mem fun {a b} ha hb hab => ?_
        simp only [hsource a ha, hsource b hb, if_true]
        have := hsource a ha
        omega)
      (by
        intro s hs
        obtain ⟨a, ha, rfl⟩ := List.mem_map.1 hs
        have := hsource a ha
        have := hlt.2 a ha
        rw [if_pos (hsource a ha)]
        omega)
    have hedge : (mergeEdge ink source target lanes).length = 2 := rfl
    rw [mergeAll_cons]
    refine ⟨?_, fun m row hrow => ?_⟩
    · rw [List.length_append, hlength, hedge, List.length_map, List.length_cons]
      omega
    · rcases Nat.lt_or_ge m 2 with hm | hm
      · rw [List.getElem?_append_left (by omega)] at hrow
        have hwidth : m / 2 = 0 := by omega
        rw [hwidth]
        exact isRow_mergeEdge ink source target lanes row (List.mem_of_getElem? hrow)
      · rw [List.getElem?_append_right (by omega), hedge] at hrow
        have hwidth : lanes.length - m / 2 = (lanes.eraseIdx source).length - (m - 2) / 2 := by
          omega
        rw [hwidth]
        exact hrows (m - 2) row hrow

end Lane

/-! ## The rows of a call -/

/-- The rows that a call adds: two for each lane that is led into its own, every pair over one lane
less, and one for each line of its label, with the glyph of the call at its place on the first of
them. There are `callees` calls made by it in the columns before it. -/
structure DrawsCall (before after : List Column) (item : Item) (callees : Nat)
    (edges labelled : List Text) : Prop where
  length_edges : edges.length = 2 * (callees - 1)
  edges : ∀ m row, edges[m]? = some row → IsRow (before.length - m / 2) [] [] row
  length_labelled : labelled.length = max 1 item.label.length
  labelled : ∃ place style, after[place]? = some ⟨item, style⟩ ∧
    ∀ m row, labelled[m]? = some row →
      IsRow after.length (if m = 0 then [(2 * place, item.state)] else [])
        (item.label[m]?.getD []) row

/-- The rows that a call adds when it is drawn. -/
theorem Column.drawsCall_place (ink : Ink) (columns : List Column) (item : Item) (isLast : Bool) :
    ∃ edges labelled, (place ink columns item isLast).rows = edges ++ labelled ∧
      DrawsCall columns (place ink columns item isLast).columns item
        (ofCaller item.number columns).length edges labelled := by
  have hplace : ∀ style, (settle (ofCaller item.number columns) ⟨item, style⟩ columns)[
      (ofCaller item.number columns).headD columns.length]? = some ⟨item, style⟩ := by
    intro style
    rw [ofCaller_eq, getElem?_settle]
  have hlane : ∀ style, ((settle (ofCaller item.number columns) ⟨item, style⟩ columns).map lane)[
      (ofCaller item.number columns).headD columns.length]? = some ⟨item.state, style⟩ := by
    intro style
    rw [List.getElem?_map, hplace style]
    rfl
  have hlabel := fun style last => Lane.isRow_stateRows ink last (hlane style) item.label
  simp only [List.length_map] at hlabel
  have hsorted := sorted_ofCaller item.number columns
  have hlt : ∀ i ∈ ofCaller item.number columns, i < (columns.map lane).length := by
    simpa using fun i => lt_of_mem_ofCaller
  unfold place
  split
  · next htaken =>
    rw [htaken] at hlabel hplace ⊢
    obtain ⟨hlength, hrows⟩ := hlabel (laneStyle columns.length) false
    exact ⟨[], _, rfl, rfl, fun m row hrow => by simp at hrow, hlength, _, _, hplace _, hrows⟩
  · next target merged htaken =>
    rw [htaken] at hlabel hplace hsorted hlt ⊢
    rw [List.forall_mem_cons] at hlt
    have hmerged := (List.pairwise_cons.1 hsorted).2
    obtain ⟨hlength, hrows⟩ := hlabel (columns[target]?.bind (·.style)) isLast
    obtain ⟨hedges, hwidths⟩ := Lane.isRow_mergeAll ink target hmerged hlt.2
    have hsort : merged.mergeSort (· ≤ ·) = merged :=
      List.mergeSort_of_pairwise (hmerged.imp fun h => by simpa using Nat.le_of_lt h)
    refine ⟨Lane.mergeRows ink merged target (columns.map lane), _, rfl, ?_, ?_, hlength, _, _,
      hplace _, hrows⟩
    · rw [Lane.mergeRows, hsort, hedges, List.length_cons, Nat.add_sub_cancel]
    · simpa [Lane.mergeRows, hsort] using hwidths

/-! ## The columns of a drawing -/

/-- How many calls of a list were made by a call. -/
def calleeCount (items : List Item) (x : Item) : Nat :=
  items.countP fun y => y.parent == some x.number

/-- A new element comes in for those that the test holds of. -/
theorem perm_settle {α : Type} (p : α → Bool) (a : α) (l : List α) :
    (settle (l.findIdxs p) a l).Perm (a :: l.filter fun b => !p b) := by
  rcases exists_first p l with hl | ⟨u, t, v, rfl, hu, ht⟩
  · rw [settle_of_forall hl, List.filter_eq_self.2 fun b hb => by simp [hl b hb]]
    exact List.perm_append_singleton a l
  · have hkept : u.filter (fun b => !p b) = u :=
      List.filter_eq_self.2 fun b hb => by simp [hu b hb]
    rw [settle_append hu ht, List.filter_append, hkept, List.filter_cons, ht]
    exact List.perm_middle

/-- The columns have each call once of the first `k` whose caller is not among these. -/
def Occupies (items : List Item) (k : Nat) (columns : List Column) : Prop :=
  ∃ calls : List (Nat × Item), calls.map (·.2) = columns.map (·.item) ∧
    (calls.map (·.1)).Nodup ∧ IsOpen items k calls

theorem occupies_nil (items : List Item) : Occupies items 0 [] := by
  refine ⟨[], rfl, List.nodup_nil, fun b y => ?_⟩
  simp

theorem Occupies.nodup {items : List Item} (h : (items.map (·.number)).Nodup) {k : Nat}
    {columns : List Column} (hcols : Occupies items k columns) :
    (columns.map (·.item)).Nodup := by
  obtain ⟨calls, hitems, hnodup, hopen⟩ := hcols
  rw [← hitems]
  refine hnodup.of_map.map_on ?_
  rintro ⟨b, y⟩ hb ⟨c, z⟩ hc (rfl : y = z)
  have hb := ((hopen b y).1 hb).2.1
  have hc := ((hopen c y).1 hc).2.1
  obtain ⟨hlt, -⟩ := List.getElem?_eq_some_iff.1 hb
  have hsame : (items.map (·.number))[b]? = (items.map (·.number))[c]? := by
    simp [hb, hc]
  rw [(List.getElem?_inj (by simpa using hlt) h).1 hsame]

theorem Occupies.mem_iff {items : List Item} {k : Nat} {columns : List Column}
    (hcols : Occupies items k columns) (x : Item) :
    x ∈ columns.map (·.item) ↔
      ∃ b < k, items[b]? = some x ∧ ∀ c < k, ¬IsCaller items c b := by
  obtain ⟨calls, hitems, -, hopen⟩ := hcols
  rw [← hitems, List.mem_map]
  constructor
  · rintro ⟨⟨b, y⟩, hb, rfl⟩
    exact ⟨b, (hopen b y).1 hb⟩
  · rintro ⟨b, hb⟩
    exact ⟨(b, x), (hopen b x).2 hb, rfl⟩

section
variable {calls : List (Nat × Item)} {columns : List Column}
  (hitems : calls.map (·.2) = columns.map (·.item))
include hitems

theorem ofCaller_of_map_eq (number : Int) :
    Column.ofCaller number columns = calls.findIdxs fun c => c.2.parent == some number := by
  have hparent : columns.findIdxs (fun c => c.item.parent == some number) =
      (columns.map (·.item)).findIdxs fun i => i.parent == some number := by
    rw [List.findIdxs_map]
    rfl
  rw [Column.ofCaller_eq, hparent, ← hitems, List.findIdxs_map]
  rfl

theorem map_item_place (ink : Ink) (x : Item) (isLast : Bool) (k : Nat) :
    (settle (calls.findIdxs fun c => c.2.parent == some x.number) (k, x) calls).map (·.2) =
      (Column.place ink columns x isLast).columns.map (·.item) := by
  have hplace := Column.place_columns ink columns x isLast
  rw [hplace, ofCaller_of_map_eq hitems, map_settle, map_settle, hitems]

end

section
variable {items : List Item} (h : IsDrawOrder items) {k : Nat} {columns : List Column}
  (hcols : Occupies items k columns) {x : Item} (hx : items[k]? = some x)
include h hcols hx

/-- The next call takes the places of the calls made by it. -/
theorem Occupies.place (ink : Ink) (isLast : Bool) :
    Occupies items (k + 1) (Column.place ink columns x isLast).columns := by
  obtain ⟨calls, hitems, hnodup, hopen⟩ := hcols
  refine ⟨_, map_item_place hitems ink x isLast k, ?_, hopen.settle h hx⟩
  rw [((perm_settle _ _ calls).map _).nodup_iff, List.map_cons, List.nodup_cons]
  refine ⟨fun hmem => ?_, (List.filter_sublist.map _).nodup hnodup⟩
  obtain ⟨⟨b, y⟩, hb, rfl⟩ := List.mem_map.1 hmem
  exact Nat.lt_irrefl b ((hopen b y).1 (List.mem_filter.1 hb).1).1

/-- All the calls made by it are in the columns. -/
theorem Occupies.perm_callees :
    ((columns.map (·.item)).filter fun y => y.parent == some x.number).Perm
      (items.filter fun y => y.parent == some x.number) := by
  obtain ⟨calls, hitems, hnodup, hopen⟩ := hcols
  have hplaces : ((calls.filter fun c => c.2.parent == some x.number).map (·.1)).Perm
      (items.findIdxs fun y => y.parent == some x.number) := by
    refine (List.perm_ext_iff_of_nodup ((List.filter_sublist.map _).nodup hnodup)
      (List.pairwise_findIdxs.imp Nat.ne_of_lt)).2 fun b => ?_
    have hcaller := (mem_columns_iff h hopen hx b).trans (isCaller_iff hx)
    rw [List.mem_findIdxs_iff_exists_getElem_pos]
    simp only [List.mem_map, List.mem_filter, Prod.exists, beq_iff_eq, exists_and_right,
      exists_eq_right]
    rw [hcaller]
    simp [List.getElem?_eq_some_iff]
  have hcalls : ∀ l : List (Nat × Item), (∀ c ∈ l, c ∈ calls) →
      (l.map (·.1)).filterMap (items[·]?) = l.map (·.2) := by
    intro l hl
    rw [List.filterMap_map, ← List.filterMap_eq_map]
    exact List.filterMap_congr fun c hc => ((hopen c.1 c.2).1 (hl c hc)).2.1
  have hperm := hplaces.filterMap (items[·]?)
  rw [filterMap_findIdxs, hcalls _ fun c hc => (List.mem_filter.1 hc).1] at hperm
  rw [← hitems, List.filter_map]
  exact hperm

theorem Occupies.length_ofCaller :
    (Column.ofCaller x.number columns).length = calleeCount items x := by
  have hlength := (hcols.perm_callees h hx).length_eq
  rw [List.filter_map, List.length_map, ← List.countP_eq_length_filter,
    ← List.countP_eq_length_filter] at hlength
  rw [Column.ofCaller_eq, List.length_findIdxs]
  exact hlength

end

/-! ## Steps -/

/-- The columns in use after some steps of a drawing, of which the first found the given ones. -/
def columnsAfter (columns : List Column) (steps : List DrawStep) : List Column :=
  (steps.getLast?.map (·.columns)).getD columns

theorem columnsAfter_cons (columns : List Column) (step : DrawStep) (steps : List DrawStep) :
    columnsAfter columns (step :: steps) = columnsAfter step.columns steps := by
  cases steps with
  | nil => rfl
  | cons => simp [columnsAfter, List.getLast?_cons]

theorem columnsAfter_take_succ {columns : List Column} {steps : List DrawStep} {m : Nat}
    {step : DrawStep} (h : steps[m]? = some step) :
    columnsAfter columns (steps.take (m + 1)) = step.columns := by
  rw [List.take_add_one, h]
  simp [columnsAfter]

section
variable (ink : Ink) (spaced : Bool)

/-- A step draws a call over the columns that the steps before it left, and adds a row of bars if
another step comes. -/
theorem getElem?_drawSteps (columns : List Column) (items : List Item) {m : Nat} {x : Item}
    (hx : items[m]? = some x) :
    let before := columnsAfter columns ((drawSteps ink spaced columns items).take m)
    let isLast := (items.drop (m + 1)).isEmpty
    let step := Column.place ink before x isLast
    (drawSteps ink spaced columns items)[m]? = some { step with
      rows := step.rows ++ if spaced && !isLast then
        Lane.stateRows ink (step.columns.map Column.lane) none [] false else [] } := by
  induction items generalizing columns m with
  | nil => simp at hx
  | cons item rest ih =>
    cases m with
    | zero =>
      obtain rfl : item = x := by simpa using hx
      rfl
    | succ m =>
      simpa only [drawSteps, List.take_succ_cons, columnsAfter_cons, List.getElem?_cons_succ,
        List.drop_succ_cons] using ih _ (by simpa using hx)

theorem length_drawSteps (columns : List Column) (items : List Item) :
    (drawSteps ink spaced columns items).length = items.length := by
  induction items generalizing columns with
  | nil => rfl
  | cons item rest ih => simp [drawSteps, ih]

/-- What holds of no columns and is kept when a call is drawn holds after every step. -/
theorem drawSteps_induction {items : List Item} {P : Nat → List Column → Prop} (nil : P 0 [])
    (place : ∀ k columns x isLast, items[k]? = some x → P k columns →
      P (k + 1) (Column.place ink columns x isLast).columns) {m : Nat} (hm : m ≤ items.length) :
    P m (columnsAfter [] ((drawSteps ink spaced [] items).take m)) := by
  induction m with
  | zero => exact nil
  | succ m ih =>
    have hx := List.getElem?_eq_getElem (show m < items.length from hm)
    rw [columnsAfter_take_succ (getElem?_drawSteps ink spaced [] items hx)]
    exact place m _ _ _ hx (ih (by omega))

section
variable {items : List Item} (h : IsDrawOrder items)
include h

/-- After every step the columns have the calls that were drawn and whose caller was not. -/
theorem occupies_drawSteps {m : Nat} (hm : m ≤ items.length) :
    Occupies items m (columnsAfter [] ((drawSteps ink spaced [] items).take m)) :=
  drawSteps_induction ink spaced (occupies_nil items)
    (fun _ _ _ isLast hx hcols => hcols.place h hx ink isLast) hm

/-- The rows of a step: those that its call adds, and a row of bars if there is to be space and
another step comes. -/
theorem drawsCall_drawSteps {m : Nat} {x : Item} (hx : items[m]? = some x) :
    let steps := drawSteps ink spaced [] items
    ∃ step edges labelled space, steps[m]? = some step ∧
      step.rows = edges ++ labelled ++ space ∧
      DrawsCall (columnsAfter [] (steps.take m)) step.columns x (calleeCount items x) edges
        labelled ∧
      space.length = (if spaced ∧ m + 1 < items.length then 1 else 0) ∧
      ∀ row ∈ space, IsRow step.columns.length [] [] row := by
  intro steps
  have hlt := (List.getElem?_eq_some_iff.1 hx).1
  have hcols := occupies_drawSteps ink spaced h (Nat.le_of_lt hlt)
  obtain ⟨edges, labelled, hrows, hdraws⟩ := Column.drawsCall_place ink
    (columnsAfter [] (steps.take m)) x (items.drop (m + 1)).isEmpty
  rw [hcols.length_ofCaller h hx] at hdraws
  have hstep := getElem?_drawSteps ink spaced [] items hx
  refine ⟨_, edges, labelled, if spaced && !(items.drop (m + 1)).isEmpty then
    Lane.stateRows ink ((Column.place ink (columnsAfter [] (steps.take m)) x
      (items.drop (m + 1)).isEmpty).columns.map Column.lane) none [] false
    else [], hstep, ?_, hdraws, ?_, ?_⟩
  · rw [← hrows]
  · have hlast : (items.drop (m + 1)).isEmpty = !decide (m + 1 < items.length) := by
      rw [Bool.eq_iff_iff, List.isEmpty_iff, List.drop_eq_nil_iff]
      simp
    rw [hlast]
    cases spaced <;> by_cases hm : m + 1 < items.length <;> simp [hm, Lane.stateRows]
  · intro row hrow
    split at hrow
    · rw [Lane.stateRows, List.mem_singleton] at hrow
      have hbars := Lane.isRow_bars ink ((Column.place ink (columnsAfter [] (steps.take m)) x
        (items.drop (m + 1)).isEmpty).columns.map Column.lane) false []
      rwa [List.append_nil, List.length_map, ← hrow] at hbars
    · cases hrow

/-- The count of rows, from some call on. -/
theorem length_rows_drawSteps {k : Nat} {columns : List Column}
    (hcols : Occupies items k columns) :
    ((drawSteps ink spaced columns (items.drop k)).flatMap (·.rows)).length =
      ((items.drop k).map fun x => max 1 x.label.length + 2 * (calleeCount items x - 1)).sum +
        if spaced then (items.drop k).length - 1 else 0 := by
  induction hrest : items.drop k generalizing k columns with
  | nil => simp [drawSteps]
  | cons x rest ih =>
    have hx : items[k]? = some x := by
      rw [← List.head?_drop, hrest]
      rfl
    have hdrop : items.drop (k + 1) = rest := by
      rw [← List.drop_drop, hrest]
      rfl
    obtain ⟨edges, labelled, hrows, hdraws⟩ :=
      Column.drawsCall_place ink columns x rest.isEmpty
    have hlength := hdraws.length_edges
    rw [hcols.length_ofCaller h hx] at hlength
    have hnext := ih (hcols.place h hx ink rest.isEmpty) hdrop
    rw [drawSteps, List.flatMap_cons, hrows, List.length_append, List.length_append,
      List.length_append, hlength, hdraws.length_labelled, hnext, List.map_cons, List.sum_cons,
      List.length_cons]
    cases spaced <;> cases rest <;> simp [Lane.stateRows] <;> omega

end

end

/-! ## Drawings -/

/-- The columns in use when the calls of a list from place `i` on have been drawn. -/
def columnsFrom (ink : Ink) (spaced : Bool) (items : List Item) (i : Nat) : List Column :=
  columnsAfter [] ((drawSteps ink spaced [] items.reverse).take (items.length - i))

/-- The calls of a reversed list whose caller is not among the first ones are those of the list
whose caller is not among the last ones. -/
theorem exists_uncalled_reverse {items : List Item} {i : Nat} (hi : i ≤ items.length) (x : Item) :
    (∃ b < items.length - i, items.reverse[b]? = some x ∧
      ∀ c < items.length - i, ¬IsCaller items.reverse c b) ↔
    ∃ j, i ≤ j ∧ items[j]? = some x ∧ ∀ k, i ≤ k → ¬IsCaller items k j := by
  constructor
  · rintro ⟨b, hb, hx, hnone⟩
    rw [List.getElem?_reverse (by omega)] at hx
    refine ⟨items.length - 1 - b, by omega, hx, fun k hk hcall => ?_⟩
    have hlt := hcall.lt_length.1
    refine hnone (items.length - 1 - k) (by omega) ((isCaller_reverse (by omega) (by omega)).2 ?_)
    rwa [show items.length - 1 - (items.length - 1 - k) = k by omega]
  · rintro ⟨j, hj, hx, hnone⟩
    have hlt := (List.getElem?_eq_some_iff.1 hx).1
    have hback : items.length - 1 - (items.length - 1 - j) = j := by omega
    refine ⟨items.length - 1 - j, by omega, ?_, fun c hc hcall => ?_⟩
    · rw [List.getElem?_reverse (by omega), hback, hx]
    · rw [isCaller_reverse (by omega) (by omega), hback] at hcall
      exact hnone _ (by omega) hcall

/-- For a list of calls with distinct numbers, callers first. One step draws each call, the last one
first, and the rows of the steps make up the drawing. When the calls from place `i` on have been
drawn, in the columns is each of them once whose caller is not one of them. A step adds the edges
that lead together the lanes of the calls made by its call, the rows of the label, of which the
first has the one glyph, and a row of bars if there is to be space and another call comes. Every row
has two characters for each lane in use. -/
theorem draw_layout (ink : Ink) (spaced : Bool) {items : List Item} (h : IsListing items) :
    let steps := drawSteps ink spaced [] items.reverse
    (draw ink spaced items).rows = steps.flatMap (·.rows) ∧ steps.length = items.length ∧
    (∀ i ≤ items.length,
      let occupants := (columnsFrom ink spaced items i).map (·.item)
      occupants.Nodup ∧ ∀ x, x ∈ occupants ↔
        ∃ j, i ≤ j ∧ items[j]? = some x ∧ ∀ k, i ≤ k → ¬IsCaller items k j) ∧
    (∀ i x, items[i]? = some x → ∃ step edges labelled space,
      steps[items.length - 1 - i]? = some step ∧ step.rows = edges ++ labelled ++ space ∧
      DrawsCall (columnsFrom ink spaced items (i + 1)) (columnsFrom ink spaced items i) x
        (calleeCount items x) edges labelled ∧
      space.length = (if spaced ∧ i ≠ 0 then 1 else 0) ∧
      ∀ row ∈ space, IsRow (columnsFrom ink spaced items i).length [] [] row) ∧
    (draw ink spaced items).rows.length =
      (items.map fun x => max 1 x.label.length + 2 * (calleeCount items x - 1)).sum +
        if spaced then items.length - 1 else 0 := by
  intro steps
  have horder := h.reverse
  have hcount : ∀ x, calleeCount items.reverse x = calleeCount items x := fun x =>
    List.countP_reverse
  have hoccupies : ∀ m ≤ items.length,
      Occupies items.reverse m (columnsAfter [] (steps.take m)) := fun m hm =>
    occupies_drawSteps ink spaced horder (by simpa using hm)
  refine ⟨rfl, ?_, fun i hi => ?_, fun i x hx => ?_, ?_⟩
  · rw [length_drawSteps, List.length_reverse]
  · have hcols := hoccupies (items.length - i) (Nat.sub_le _ _)
    refine ⟨hcols.nodup horder.nodup, fun x => ?_⟩
    rw [columnsFrom, hcols.mem_iff, exists_uncalled_reverse hi]
  · have hlt := (List.getElem?_eq_some_iff.1 hx).1
    have hx' : items.reverse[items.length - 1 - i]? = some x := by
      rw [List.getElem?_reverse (by omega),
        show items.length - 1 - (items.length - 1 - i) = i by omega, hx]
    obtain ⟨step, edges, labelled, space, hstep, hrows, hdraws, hspace, hbars⟩ :=
      drawsCall_drawSteps ink spaced horder hx'
    have hbefore : columnsFrom ink spaced items (i + 1) =
        columnsAfter [] (steps.take (items.length - 1 - i)) := by
      rw [columnsFrom, show items.length - (i + 1) = items.length - 1 - i by omega]
    have hafter : columnsFrom ink spaced items i = step.columns := by
      rw [columnsFrom, show items.length - i = items.length - 1 - i + 1 by omega]
      exact columnsAfter_take_succ hstep
    rw [hcount] at hdraws
    refine ⟨step, edges, labelled, space, hstep, hrows, ?_, ?_, ?_⟩
    · rw [hbefore, hafter]
      exact hdraws
    · rw [hspace, List.length_reverse]
      congr 2
      rw [eq_iff_iff]
      omega
    · rw [hafter]
      exact hbars
  · have hrows := length_rows_drawSteps ink spaced horder (occupies_nil items.reverse)
    simp only [List.drop_zero, hcount, List.length_reverse] at hrows
    rw [draw, hrows, List.map_reverse, List.sum_reverse]

/-- Two calls of one caller, the first with two lines of label, take eight rows with space. -/
theorem draw_layout_twoCallees :
    let items : List Item := [⟨1, some 0, .resolved .matched, ["start".toList]⟩,
      ⟨2, some 1, .resolved .failed, ["number".toList, "1".toList]⟩, ⟨3, some 1, .pending, []⟩]
    IsListing items ∧ (draw .colored true items).rows.length = 8 := by
  intro items
  have hitems : IsListing items := .of_pairwise (by decide) (by decide) (by decide)
  obtain ⟨-, -, -, -, hlength⟩ := draw_layout .colored true hitems
  exact ⟨hitems, hlength⟩

end RuleTrace
