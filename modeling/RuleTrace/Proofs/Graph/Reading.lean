import RuleTrace.Proofs.Graph.Columns

/-!
# Reading a drawing

A plain drawing without labels is read back row by row. The glyph of a state is in one row for each
call, and says in which lane the call is. The rows before it lead lanes into that one: the second
row of an edge has a bar for each lane before the one that moves. So the places that every call took
in the columns can be told from the rows.

* `glyphIn?_stateLine`: where the glyph is.
* `readSources_mergeRows`: the edges say which lanes move.
* `readMoves_drawSteps`: the rows say which places are taken.
-/

namespace RuleTrace

/-! ## Glyphs -/

/-- The state with a glyph that starts with a character. -/
def NodeState.ofGlyph? (c : Char) : Option NodeState :=
  [.pending, .resolved .matched, .resolved .failed].find? fun s => s.glyph.1.head? == some c

/-- The first glyph of a row: its offset, and its state. -/
def glyphIn? : Text → Option (Nat × NodeState)
  | [] => none
  | c :: row =>
    match NodeState.ofGlyph? c with
    | some s => some (0, s)
    | none => (glyphIn? row).map fun g => (g.1 + 1, g.2)

theorem glyphIn?_append {t : Text} (ht : ∀ c ∈ t, NodeState.ofGlyph? c = none) (row : Text) :
    glyphIn? (t ++ row) = (glyphIn? row).map fun g => (g.1 + t.length, g.2) := by
  induction t with
  | nil => simp
  | cons c t ih =>
    rw [List.cons_append, glyphIn?, ht c List.mem_cons_self,
      ih fun d hd => ht d (List.mem_cons_of_mem c hd)]
    cases glyphIn? row <;> simp [Nat.add_assoc]

theorem glyphIn?_eq_none {t : Text} (ht : ∀ c ∈ t, NodeState.ofGlyph? c = none) :
    glyphIn? t = none := by
  have h := glyphIn?_append ht []
  rwa [List.append_nil] at h

theorem glyphIn?_glyph (s : NodeState) (row : Text) :
    glyphIn? (s.glyph.1 ++ row) = some (0, s) := by
  rcases s with _ | _ | _ <;> rfl

/-- Whether a text is without glyphs can be computed. -/
theorem ofGlyph?_eq_none_of_all {t : Text} (h : t.all fun c => (NodeState.ofGlyph? c).isNone) :
    ∀ c ∈ t, NodeState.ofGlyph? c = none :=
  fun c hc => Option.isNone_iff_eq_none.1 (List.all_eq_true.1 h c hc)

namespace Lane

section
variable {f : Nat → Lane → Text}

/-- A row of cells has no glyph if none of them does. -/
theorem glyphIn?_cells_eq_none (hf : ∀ i lane, ∀ c ∈ f i lane, NodeState.ofGlyph? c = none)
    (lanes : List Lane) : glyphIn? (lanes.mapIdx f).flatten = none := by
  refine glyphIn?_eq_none fun c hc => ?_
  obtain ⟨cell, hcell, hmem⟩ := List.mem_flatten.1 hc
  obtain ⟨i, _, rfl⟩ := List.mem_mapIdx.1 hcell
  exact hf i _ c hmem

/-- The glyph of a row of cells that are two characters wide is where the first cell with one is. -/
theorem glyphIn?_cells {lanes : List Lane} {column : Nat} {lane : Lane}
    (hlane : lanes[column]? = some lane) (hat : ∃ t, f column lane = lane.state.glyph.1 ++ t)
    (hbefore : ∀ i < column, ∀ lane, (f i lane).length = 2 ∧
      ∀ c ∈ f i lane, NodeState.ofGlyph? c = none) :
    glyphIn? (lanes.mapIdx f).flatten = some (2 * column, lane.state) := by
  induction lanes generalizing f column with
  | nil => cases hlane
  | cons first lanes ih =>
    rw [List.mapIdx_cons, List.flatten_cons]
    cases column with
    | zero =>
      obtain rfl : first = lane := by simpa using hlane
      obtain ⟨t, ht⟩ := hat
      rw [ht, List.append_assoc, glyphIn?_glyph]
    | succ column =>
      obtain ⟨hlength, hnone⟩ := hbefore 0 (Nat.zero_lt_succ _) first
      rw [glyphIn?_append hnone, ih (f := fun i => f (i + 1)) (by simpa using hlane) hat
        fun i hi => hbefore (i + 1) (Nat.succ_lt_succ hi), hlength]
      rfl

end

theorem ofGlyph?_bar (isLast : Bool) :
    ∀ c ∈ (if isLast then "  ".toList else "| ".toList), NodeState.ofGlyph? c = none := by
  cases isLast <;> exact ofGlyph?_eq_none_of_all (by decide)

/-- A state row has its glyph in the marked lane. -/
theorem glyphIn?_stateLine {lanes : List Lane} {column : Nat} {lane : Lane}
    (hlane : lanes[column]? = some lane) (isLast : Bool) :
    glyphIn? (stateLine .plain lanes (some column) isLast) = some (2 * column, lane.state) := by
  refine glyphIn?_cells hlane ⟨[], by simp [stateCell]⟩ fun i hi lane => ?_
  have hunmarked : (some column == some i) = false := by simp; omega
  rw [hunmarked, stateCell, if_neg Bool.false_ne_true, Ink.plain_paint]
  exact ⟨by cases isLast <;> rfl, ofGlyph?_bar isLast⟩

/-! ## Edges -/

section
variable (moving : Option Style) {source target : Nat} (i : Nat) (lane : Lane)

theorem ofGlyph?_upperCell :
    ∀ c ∈ lane.upperCell .plain moving source target i, NodeState.ofGlyph? c = none := by
  simp only [upperCell, Ink.plain_paint]
  repeat' split
  all_goals exact ofGlyph?_eq_none_of_all (by decide)

theorem ofGlyph?_lowerCell (right : Option Lane) :
    ∀ c ∈ lane.lowerCell .plain moving source target right i, NodeState.ofGlyph? c = none := by
  simp only [lowerCell, Ink.plain_paint]
  repeat' split
  all_goals exact ofGlyph?_eq_none_of_all (by decide)

/-- The lanes before the one that moves have a bar in the second row of an edge. -/
theorem count_lowerCell (h : target < source) (right : Option Lane) :
    (lane.lowerCell .plain moving source target right i).count '|' =
      if i < source then 1 else 0 := by
  simp only [lowerCell, Ink.plain_paint]
  split
  · rw [if_pos (by omega)]
    rfl
  · split
    · rw [if_pos (by omega)]
      rfl
    · split
      · rfl
      · cases right <;> rfl

end

theorem count_cells {f : Nat → Lane → Text} {c : Char} {lanes : List Lane} {source : Nat}
    (hf : ∀ i lane, (f i lane).count c = if i < source then 1 else 0)
    (hsource : source ≤ lanes.length) : (lanes.mapIdx f).flatten.count c = source := by
  induction lanes generalizing f source with
  | nil => exact (Nat.le_zero.1 hsource).symm
  | cons lane lanes ih =>
    rw [List.mapIdx_cons, List.flatten_cons, List.count_append, hf]
    cases source with
    | zero => rw [if_neg (Nat.lt_irrefl 0), ih (fun i => hf (i + 1)) (Nat.zero_le _)]
    | succ source =>
      have hrest : ∀ i lane, (f (i + 1) lane).count c = if i < source then 1 else 0 := by
        intro i lane
        simp only [hf, Nat.add_lt_add_iff_right]
      rw [if_pos (Nat.zero_lt_succ source), ih hrest (Nat.le_of_succ_le_succ hsource), Nat.add_comm]

/-- The sources of edges, of which the first comes after `k` others. Every source that is gone moves
those to its right one place to the left. -/
def readSources (k : Nat) : List Text → List Nat
  | _ :: lower :: rows => (lower.count '|' + k) :: readSources (k + 1) rows
  | _ => []

theorem glyphIn?_mergeEdge (source target : Nat) (lanes : List Lane) :
    ∀ row ∈ mergeEdge .plain source target lanes, glyphIn? row = none := by
  intro row hrow
  rcases List.mem_cons.1 hrow with rfl | hrow
  · exact glyphIn?_cells_eq_none (fun i lane => ofGlyph?_upperCell _ i lane) lanes
  · rw [List.mem_singleton.1 hrow]
    exact glyphIn?_cells_eq_none (fun i lane => ofGlyph?_lowerCell _ i lane _) lanes

theorem glyphIn?_mergeAll (target : Nat) (sources : List Nat) (lanes : List Lane) :
    ∀ row ∈ (mergeAll .plain target sources lanes).1, glyphIn? row = none := by
  induction sources, lanes using mergeAll_induction with
  | nil lanes =>
    rw [mergeAll]
    exact fun _ hrow => absurd hrow List.not_mem_nil
  | cons source sources lanes ih =>
    rw [mergeAll_cons]
    intro row hrow
    rcases List.mem_append.1 hrow with hrow | hrow
    · exact glyphIn?_mergeEdge source target lanes row hrow
    · exact ih row hrow

theorem readSources_mergeEdge {source target : Nat} {lanes : List Lane} (h : target < source)
    (hlt : source < lanes.length) (k : Nat) (rows : List Text) :
    readSources k (mergeEdge .plain source target lanes ++ rows) =
      (source + k) :: readSources (k + 1) rows := by
  have hcount := count_cells (f := fun i lane =>
    lane.lowerCell .plain (lanes[source]?.bind style) source target lanes[i + 1]? i)
    (fun i lane => count_lowerCell _ i lane h _) (Nat.le_of_lt hlt)
  rw [mergeEdge, List.cons_append, List.cons_append, readSources, hcount]
  rfl

/-- The sources of edges are read back, if they are in order and to the right of the target. -/
theorem readSources_mergeAll {target : Nat} {sources : List Nat} {lanes : List Lane}
    (hsorted : sources.Pairwise (· < ·)) (hgt : ∀ s ∈ sources, target < s)
    (hlt : ∀ s ∈ sources, s < lanes.length) (k : Nat) :
    readSources k (mergeAll .plain target sources lanes).1 = sources.map (· + k) := by
  induction sources, lanes using mergeAll_induction generalizing k with
  | nil lanes =>
    rw [mergeAll]
    rfl
  | cons source sources lanes ih =>
    obtain ⟨hsource, hsorted⟩ := List.pairwise_cons.1 hsorted
    rw [List.forall_mem_cons] at hgt hlt
    have hmoved : sources.map (fun i => if source < i then i - 1 else i) = sources.map (· - 1) :=
      List.map_congr_left fun i hi => if_pos (hsource i hi)
    have hinner : (sources.map (· - 1)).Pairwise (· < ·) := by
      rw [List.pairwise_map]
      refine hsorted.imp_of_mem fun {a b} ha _ hab => ?_
      have := hsource a ha
      omega
    have hleft : ∀ i ∈ sources.map (· - 1), target < i ∧ i < (lanes.eraseIdx source).length := by
      intro i hi
      obtain ⟨s, hs, rfl⟩ := List.mem_map.1 hi
      have := hsource s hs
      have := hlt.2 s hs
      rw [List.length_eraseIdx_of_lt hlt.1]
      omega
    rw [hmoved] at ih
    have hrest := ih hinner (fun i hi => (hleft i hi).1) (fun i hi => (hleft i hi).2) (k + 1)
    rw [mergeAll_cons, hmoved, readSources_mergeEdge hgt.1 hlt.1, hrest, List.map_cons,
      List.map_map]
    congr 1
    refine List.map_congr_left fun i hi => ?_
    have := hsource i hi
    simp only [Function.comp_apply]
    omega

theorem readSources_mergeRows {target : Nat} {sources : List Nat} {lanes : List Lane}
    (hsorted : sources.Pairwise (· < ·)) (hgt : ∀ s ∈ sources, target < s)
    (hlt : ∀ s ∈ sources, s < lanes.length) :
    readSources 0 (mergeRows .plain sources target lanes) = sources := by
  have hsort : sources.mergeSort (· ≤ ·) = sources :=
    List.mergeSort_of_pairwise (hsorted.imp fun h => by simpa using Nat.le_of_lt h)
  rw [mergeRows, hsort, readSources_mergeAll hsorted hgt hlt]
  exact List.map_id _

end Lane

/-! ## Steps -/

/-- The places taken by a call, of which the first is the place of its glyph. -/
theorem Column.place_rows (columns : List Column) {item : Item} (hlabel : item.label = [])
    (isLast : Bool) :
    ∃ edges line, (place .plain columns item isLast).rows = edges ++ [line] ∧
      (∀ row ∈ edges, glyphIn? row = none) ∧
      Lane.readSources 0 edges = (ofCaller item.number columns).tail ∧
      glyphIn? line =
        some (2 * (ofCaller item.number columns).headD columns.length, item.state) := by
  have hline : ∀ style last, glyphIn? (Lane.stateLine .plain
      ((settle (ofCaller item.number columns) ⟨item, style⟩ columns).map lane)
      (some ((ofCaller item.number columns).headD columns.length)) last) =
        some (2 * (ofCaller item.number columns).headD columns.length, item.state) := by
    intro style last
    have hlane : ((settle (ofCaller item.number columns) ⟨item, style⟩ columns).map lane)[
        (ofCaller item.number columns).headD columns.length]? = some ⟨item.state, style⟩ := by
      rw [List.getElem?_map, ofCaller_eq, getElem?_settle]
      rfl
    exact Lane.glyphIn?_stateLine hlane last
  have hsorted := sorted_ofCaller item.number columns
  have hlt : ∀ i ∈ ofCaller item.number columns, i < (columns.map lane).length := by
    rw [List.length_map]
    exact fun i => lt_of_mem_ofCaller
  cases htaken : ofCaller item.number columns with
  | nil =>
    rw [htaken] at hline
    refine ⟨[], _, ?_, nofun, rfl, hline (laneStyle columns.length) false⟩
    simp only [place, htaken, hlabel]
    rfl
  | cons target merged =>
    rw [htaken] at hline hsorted hlt
    rw [List.pairwise_cons] at hsorted
    rw [List.forall_mem_cons] at hlt
    refine ⟨Lane.mergeRows .plain merged target (columns.map lane), _, ?_,
      Lane.glyphIn?_mergeAll _ _ _, Lane.readSources_mergeRows hsorted.2 hsorted.1 hlt.2,
      hline (columns[target]?.bind (·.style)) isLast⟩
    simp only [place, htaken, hlabel]
    rfl

/-! ## The reader -/

/-- The states of calls in the order in which they are drawn, and the places that each of them takes
in the columns, as the rows of a drawing say. There are `n` columns in front of the rows, after the
rows of some edges; or a row of bars comes first. -/
def readMoves (spaced : Bool) : Bool → List Text → Nat → List Text → List (NodeState × List Nat)
  | _, _, _, [] => []
  | true, _, n, _ :: rows => readMoves spaced false [] n rows
  | false, edges, n, row :: rows =>
    match glyphIn? row with
    | none => readMoves spaced false (edges ++ [row]) n rows
    | some (offset, state) =>
      let taken := if offset / 2 = n then [] else offset / 2 :: Lane.readSources 0 edges
      (state, taken) :: readMoves spaced spaced [] (n + 1 - taken.length) rows

/-- The states of calls and the places that each of them takes, from the calls in the columns. -/
def moves : List Item → List Item → List (NodeState × List Nat)
  | _, [] => []
  | columns, item :: rest =>
    let taken := columns.findIdxs fun i => i.parent == some item.number
    (item.state, taken) :: moves (settle taken item columns) rest

theorem readMoves_edges (spaced : Bool) {edges : List Text}
    (h : ∀ row ∈ edges, glyphIn? row = none) (before : List Text) (n : Nat) (rows : List Text) :
    readMoves spaced false before n (edges ++ rows) =
      readMoves spaced false (before ++ edges) n rows := by
  induction edges generalizing before with
  | nil => rw [List.append_nil, List.nil_append]
  | cons row edges ih =>
    rw [List.cons_append, readMoves, h row List.mem_cons_self]
    simp only
    rw [ih fun r hr => h r (List.mem_cons_of_mem row hr), List.append_assoc, List.singleton_append]

/-- The row of bars between two calls is left out. -/
theorem readMoves_space (spaced : Bool) (rest : List Item) (n : Nat) (space : Text)
    {rows : List Text} (h : rest = [] → rows = []) :
    readMoves spaced spaced [] n ((if spaced && !rest.isEmpty then [space] else []) ++ rows) =
      readMoves spaced false [] n rows := by
  cases spaced with
  | false => rfl
  | true =>
    cases rest with
    | nil => rw [h rfl]; rfl
    | cons => rfl

/-- The moves are read from the rows of a drawing. -/
theorem readMoves_drawSteps (spaced : Bool) (columns : List Column) (items : List Item)
    (hlabels : ∀ item ∈ items, item.label = []) :
    readMoves spaced false [] columns.length
        ((drawSteps .plain spaced columns items).flatMap (·.rows)) =
      moves (columns.map (·.item)) items := by
  induction items generalizing columns with
  | nil => rfl
  | cons item rest ih =>
    rw [List.forall_mem_cons] at hlabels
    obtain ⟨edges, line, hrows, hedges, hsources, hglyph⟩ :=
      Column.place_rows columns hlabels.1 rest.isEmpty
    have hcolumns := Column.place_columns .plain columns item rest.isEmpty
    have hrest := ih (Column.place .plain columns item rest.isEmpty).columns hlabels.2
    rw [drawSteps, List.flatMap_cons, hrows, List.append_assoc, List.append_assoc,
      readMoves_edges spaced hedges, List.nil_append, List.singleton_append, readMoves, hglyph]
    simp only
    have htaken : (if 2 * (Column.ofCaller item.number columns).headD columns.length / 2 =
          columns.length then []
        else 2 * (Column.ofCaller item.number columns).headD columns.length / 2 ::
          Lane.readSources 0 edges) = Column.ofCaller item.number columns := by
      rw [hsources, Nat.mul_div_cancel_left _ Nat.two_pos]
      cases h : Column.ofCaller item.number columns with
      | nil => exact if_pos rfl
      | cons target merged =>
        exact if_neg (Nat.ne_of_lt (Column.lt_of_mem_ofCaller (h ▸ List.mem_cons_self)))
    have hitems : Column.ofCaller item.number columns =
        (columns.map (·.item)).findIdxs fun i => i.parent == some item.number := by
      rw [Column.ofCaller_eq, List.findIdxs_map]
      rfl
    have hlength : (Column.place .plain columns item rest.isEmpty).columns.length =
        columns.length + 1 - (Column.ofCaller item.number columns).length := by
      rw [hcolumns, Column.ofCaller_eq, length_settle]
    have hsettle : settle (Column.ofCaller item.number columns) item (columns.map (·.item)) =
        (Column.place .plain columns item rest.isEmpty).columns.map (·.item) := by
      rw [hcolumns, map_settle]
    rw [htaken, ← hlength, moves, ← hitems, hsettle, ← hrest]
    congr 1
    exact readMoves_space spaced rest _ _ fun hlast => by rw [hlast]; rfl

end RuleTrace
