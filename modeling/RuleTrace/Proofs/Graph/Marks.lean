import RuleTrace.Proofs.Graph.Rows
import RuleTrace.Proofs.Style.Strokes

/-!
# The marks of an edge

An edge takes two rows over the lanes, and every lane has two cells in a row. The marks of a row are
the bars, slopes and underscores in its cells, each of them for one lane. `UpperMark` and
`LowerMark` say which marks the rows of an edge have: a line for every lane, which goes on from one
row to the next one and meets no other line.

* `Segment.expand_segments_cells`: a colored row is read back cell by cell.
* `ShowsMarks.of_cells`: a row has some marks if each cell has the mark that is there, or a blank.
* `Lane.isMarked_upperCell`, `Lane.isMarked_lowerCell`: so it is with the cells of an edge.
* `Lane.mergeEdge_marks`: the rows of an edge have their marks and nothing else.
-/

namespace RuleTrace

/-! ## Marks -/

/-- A mark of a row: its cell, the character in the cell, and the lane whose line it is part of. -/
structure Mark where
  cell : Nat
  char : Char
  lane : Nat
deriving DecidableEq, Repr

/-- The marks of the first row of an edge over `n` lanes. All lanes but the source go straight down.
So does the source if the target is next to it; else it turns to the left, and passes the lanes in
between. -/
inductive UpperMark (n source target : Nat) : Mark → Prop
  | bar (i : Nat) : i < n → i ≠ source → UpperMark n source target ⟨2 * i, '|', i⟩
  | next : source = target + 1 → UpperMark n source target ⟨2 * source, '|', source⟩
  | slope : source ≠ target + 1 → UpperMark n source target ⟨2 * source - 1, '/', source⟩
  | pass (i : Nat) : target < i → i < source - 1 →
    UpperMark n source target ⟨2 * i + 1, '_', source⟩

/-- The marks of the second row of an edge over `n` lanes. The lanes before the source go straight
down, the source turns to the target, and the lanes after it move one place to the left. -/
inductive LowerMark (n source target : Nat) : Mark → Prop
  | bar (i : Nat) : i < source → LowerMark n source target ⟨2 * i, '|', i⟩
  | reach : LowerMark n source target ⟨2 * target + 1, '/', source⟩
  | move (i : Nat) : source < i → i < n → LowerMark n source target ⟨2 * i - 1, '/', i⟩

section
variable {n source target : Nat} (h : target < source) {m m' : Mark}
include h

theorem UpperMark.unique (hm : UpperMark n source target m) (hm' : UpperMark n source target m')
    (hcell : m.cell = m'.cell) : m = m' := by
  cases hm <;> cases hm' <;> simp only [Mark.mk.injEq, and_true, true_and] at hcell ⊢ <;> omega

theorem LowerMark.unique (hm : LowerMark n source target m) (hm' : LowerMark n source target m')
    (hcell : m.cell = m'.cell) : m = m' := by
  cases hm <;> cases hm' <;> simp only [Mark.mk.injEq, true_and] at hcell ⊢ <;> omega

end

/-- The classes of the style of a lane, if it has one. -/
def Lane.classes (lane : Lane) : List Text :=
  lane.style.elim [] Style.classes

/-- A row over lanes, in plain ink and in colors, has some marks, one in a cell, and blanks in all
other cells. In colors, every mark has the classes of its lane. -/
structure ShowsMarks (marks : Mark → Prop) (lanes : List Lane) (plain colored : Text) : Prop where
  width : plain.length = 2 * lanes.length
  strip : stripEscapes colored = plain
  unique : ∀ m m', marks m → marks m' → m.cell = m'.cell → m = m'
  char : ∀ m, marks m → plain[m.cell]? = some m.char
  blank : ∀ k < plain.length, (∀ m, marks m → m.cell ≠ k) → plain[k]? = some ' '
  color : ∀ m, marks m → ∃ lane, lanes[m.lane]? = some lane ∧
    (Segment.expand (segments colored))[m.cell]? = some (m.char, lane.classes)

/-! ## Cells -/

section
variable {α β : Type} {f : Nat → α → List β} (hf : ∀ i a, (f i a).length = 2)
include hf

/-- What is in a row that has two places for each element of a list. -/
theorem getElem?_flatten_mapIdx (l : List α) (i : Nat) {b : Nat} (hb : b < 2) :
    (l.mapIdx f).flatten[2 * i + b]? = l[i]?.bind fun a => (f i a)[b]? := by
  induction l generalizing f i with
  | nil => rfl
  | cons a l ih =>
    rw [List.mapIdx_cons, List.flatten_cons]
    cases i with
    | zero =>
      rw [List.getElem?_append_left (by rw [hf]; omega), Nat.mul_zero, Nat.zero_add,
        List.getElem?_cons_zero, Option.bind_some]
    | succ i =>
      rw [List.getElem?_append_right (by rw [hf]; omega), hf,
        show 2 * (i + 1) + b - 2 = 2 * i + b by omega, ih (fun i => hf (i + 1)),
        List.getElem?_cons_succ]

end

/-- The text of strokes in an ink. -/
def Ink.write (ink : Ink) (strokes : List Stroke) : Text :=
  strokes.flatMap fun s => ink.paint s.style s.text s.extent

/-- The strokes of a cell: they paint all of their text, which is two characters wide. -/
structure IsCell (strokes : List Stroke) : Prop where
  whole : ∀ s ∈ strokes, escapeChar ∉ s.text ∧ s.extent = .whole
  width : (strokes.flatMap Stroke.chars).length = 2

theorem IsCell.single {t : Text} (ht : escapeChar ∉ t) (hlength : t.length = 2)
    (style : Option Style) : IsCell [⟨t, style, .whole⟩] where
  whole := by simpa using ht
  width := by simpa [Stroke.chars] using hlength

theorem IsCell.pair {c d : Char} (hc : escapeChar ≠ c) (hd : escapeChar ≠ d)
    (style style' : Option Style) : IsCell [⟨[c], style, .whole⟩, ⟨[d], style', .whole⟩] where
  whole := by simp [hc, hd]
  width := rfl

theorem Stroke.map_fst_chars (s : Stroke) : s.chars.map (·.1) = s.text := by
  refine List.ext_getElem? fun i => ?_
  rw [List.getElem?_map, Stroke.chars, List.getElem?_mapIdx]
  cases s.text[i]? <;> rfl

section
variable {strokes : List Stroke}

theorem map_fst_chars_write :
    (strokes.flatMap Stroke.chars).map (·.1) = Ink.plain.write strokes := by
  rw [List.map_flatMap]
  exact List.flatMap_congr fun s _ => s.map_fst_chars

variable (h : ∀ s ∈ strokes, escapeChar ∉ s.text ∧ s.extent = .whole)
include h

theorem shows_write (ink : Ink) : Shows (ink.write strokes) (Ink.plain.write strokes) := by
  induction strokes with
  | nil => exact .nil
  | cons s strokes ih =>
    obtain ⟨⟨ht, hwhole⟩, hrest⟩ := List.forall_mem_cons.1 h
    rw [Ink.write, List.flatMap_cons, Ink.write, List.flatMap_cons, hwhole]
    exact (ink.shows_paint_whole s.style ht).append (ih hrest)

theorem Segment.readTokens_write (rest : Text) :
    readTokens [] (tokens (Ink.colored.write strokes ++ rest)) =
      strokes.flatMap Stroke.chars ++ readTokens [] (tokens rest) := by
  induction strokes with
  | nil => rfl
  | cons s strokes ih =>
    obtain ⟨⟨ht, hwhole⟩, hrest⟩ := List.forall_mem_cons.1 h
    have hs := readTokens_painted (s := s) ht (by rw [hwhole]; trivial)
      (Ink.colored.write strokes ++ rest)
    rw [Ink.write, List.flatMap_cons, List.flatMap_cons, List.append_assoc, List.append_assoc,
      ← ih hrest]
    exact hs

end

/-- A colored row is read back cell by cell. -/
theorem Segment.expand_segments_cells {g : Nat → Lane → List Stroke}
    (hg : ∀ i lane, IsCell (g i lane)) (lanes : List Lane) :
    expand (segments (lanes.mapIdx fun i lane => Ink.colored.write (g i lane)).flatten) =
      (lanes.mapIdx fun i lane => (g i lane).flatMap Stroke.chars).flatten := by
  rw [expand_segments]
  induction lanes generalizing g with
  | nil => rfl
  | cons lane lanes ih =>
    rw [List.mapIdx_cons, List.flatten_cons, List.mapIdx_cons, List.flatten_cons,
      readTokens_write (hg 0 lane).whole, ih fun i => hg (i + 1)]

/-- A plain row has the characters of its cells. -/
theorem map_fst_chars_cells (g : Nat → Lane → List Stroke) (lanes : List Lane) :
    (lanes.mapIdx fun i lane => (g i lane).flatMap Stroke.chars).flatten.map (·.1) =
      (lanes.mapIdx fun i lane => Ink.plain.write (g i lane)).flatten := by
  induction lanes generalizing g with
  | nil => rfl
  | cons lane lanes ih =>
    rw [List.mapIdx_cons, List.flatten_cons, List.map_append, map_fst_chars_write,
      ih fun i => g (i + 1), List.mapIdx_cons, List.flatten_cons]

/-! ## Rows of cells -/

/-- A cell of a row is as the marks say: it has the mark that is there, in the classes of its lane,
or a blank. -/
structure IsMarked (marks : Mark → Prop) (lanes : List Lane) (k : Nat) (a : Char × List Text) :
    Prop where
  mark : ∀ m, marks m → m.cell = k →
    ∃ lane, lanes[m.lane]? = some lane ∧ a = (m.char, lane.classes)
  blank : (∀ m, marks m → m.cell ≠ k) → a.1 = ' '

section
variable {marks : Mark → Prop} {lanes : List Lane} {k : Nat}

theorem IsMarked.of_blank (hnone : ∀ m, marks m → m.cell ≠ k) (selected : List Text) :
    IsMarked marks lanes k (' ', selected) :=
  ⟨fun m hm hcell => absurd hcell (hnone m hm), fun _ => rfl⟩

variable (hunique : ∀ m m', marks m → marks m' → m.cell = m'.cell → m = m')
include hunique

theorem IsMarked.of_mark {m : Mark} (hm : marks m) (hcell : m.cell = k) {lane : Lane}
    (hlane : lanes[m.lane]? = some lane) : IsMarked marks lanes k (m.char, lane.classes) := by
  refine ⟨fun m' hm' hcell' => ?_, fun hnone => absurd hcell (hnone m hm)⟩
  rw [hunique m' m hm' hm (hcell'.trans hcell.symm)]
  exact ⟨lane, hlane, rfl⟩

/-- A row has some marks if each of its cells is as they say. -/
theorem ShowsMarks.of_cells (hlt : ∀ m, marks m → m.cell < 2 * lanes.length)
    {g : Nat → Lane → List Stroke} (hg : ∀ i lane, IsCell (g i lane))
    (hmarked : ∀ i lane, lanes[i]? = some lane → ∃ a b, (g i lane).flatMap Stroke.chars = [a, b] ∧
      IsMarked marks lanes (2 * i) a ∧ IsMarked marks lanes (2 * i + 1) b) :
    ShowsMarks marks lanes (lanes.mapIdx fun i lane => Ink.plain.write (g i lane)).flatten
      (lanes.mapIdx fun i lane => Ink.colored.write (g i lane)).flatten := by
  have hwidth : ∀ i lane, (Ink.plain.write (g i lane)).length = 2 := fun i lane => by
    rw [← map_fst_chars_write, List.length_map, (hg i lane).width]
  have hlength := Lane.length_cells hwidth lanes
  have hplain := map_fst_chars_cells g lanes
  have hcell : ∀ k < 2 * lanes.length, ∃ a,
      (Segment.expand (segments
        (lanes.mapIdx fun i lane => Ink.colored.write (g i lane)).flatten))[k]? = some a ∧
      (lanes.mapIdx fun i lane => Ink.plain.write (g i lane)).flatten[k]? = some a.1 ∧
      IsMarked marks lanes k a := by
    intro k hk
    have hi : k / 2 < lanes.length := by omega
    obtain ⟨a, b, hab, ha, hb⟩ := hmarked (k / 2) _ (List.getElem?_eq_getElem hi)
    rw [Segment.expand_segments_cells hg, ← hplain, List.getElem?_map]
    have hget := fun c hc => getElem?_flatten_mapIdx (fun i lane => (hg i lane).width) lanes (k / 2)
      (b := c) hc
    simp only [List.getElem?_eq_getElem hi, Option.bind_some, hab] at hget
    rcases Nat.mod_two_eq_zero_or_one k with hmod | hmod
    · have hk : 2 * (k / 2) + 0 = k := by omega
      have hget := hget 0 (by omega)
      rw [hk] at hget
      rw [hget]
      exact ⟨a, rfl, rfl, hk ▸ ha⟩
    · have hk : 2 * (k / 2) + 1 = k := by omega
      have hget := hget 1 (by omega)
      rw [hk] at hget
      rw [hget]
      exact ⟨b, rfl, rfl, hk ▸ hb⟩
  refine ⟨hlength, ?_, hunique, fun m hm => ?_, fun k hk hnone => ?_, fun m hm => ?_⟩
  · exact (Lane.shows_cells (fun i lane => shows_write (hg i lane).whole .colored) lanes
      ).stripEscapes_eq
  · obtain ⟨a, -, hchar, hmark⟩ := hcell m.cell (hlt m hm)
    obtain ⟨lane, -, rfl⟩ := hmark.mark m hm rfl
    exact hchar
  · obtain ⟨a, -, hchar, hmark⟩ := hcell k (by omega)
    rw [hchar, hmark.blank hnone]
  · obtain ⟨a, hcolor, -, hmark⟩ := hcell m.cell (hlt m hm)
    obtain ⟨lane, hlane, rfl⟩ := hmark.mark m hm rfl
    exact ⟨lane, hlane, hcolor⟩

end

/-! ## The cells of an edge -/

namespace Lane

section
variable (moving : Option Style) (source target i : Nat) (lane : Lane)

/-- The strokes of a lane in the first row of an edge. -/
def upperStrokes : List Stroke :=
  if i ≤ target then [⟨"| ".toList, lane.style, .whole⟩]
  else if i + 1 < source then [⟨['|'], lane.style, .whole⟩, ⟨['_'], moving, .whole⟩]
  else if i + 1 = source then [⟨['|'], lane.style, .whole⟩, ⟨['/'], moving, .whole⟩]
  else if source < i ∨ (i = source ∧ target + 1 = source) then
    [⟨"| ".toList, lane.style, .whole⟩]
  else [⟨"  ".toList, none, .whole⟩]

/-- The strokes of a lane in the second row of an edge, given the lane to the right of it. -/
def lowerStrokes (right : Option Lane) : List Stroke :=
  if i < target then [⟨"| ".toList, lane.style, .whole⟩]
  else if i = target then [⟨['|'], lane.style, .whole⟩, ⟨['/'], moving, .whole⟩]
  else if i < source then [⟨"| ".toList, lane.style, .whole⟩]
  else match right with
    | some next => [⟨" /".toList, next.style, .whole⟩]
    | none => [⟨"  ".toList, none, .whole⟩]

theorem upperCell_eq (ink : Ink) : lane.upperCell ink moving source target i =
    ink.write (lane.upperStrokes moving source target i) := by
  unfold upperCell upperStrokes
  split_ifs <;> simp [Ink.write]

theorem lowerCell_eq (ink : Ink) (right : Option Lane) :
    lane.lowerCell ink moving source target right i =
      ink.write (lane.lowerStrokes moving source target i right) := by
  unfold lowerCell lowerStrokes
  cases right <;> split_ifs <;> simp [Ink.write]

theorem isCell_upperStrokes : IsCell (lane.upperStrokes moving source target i) := by
  have hbar : IsCell [⟨"| ".toList, lane.style, .whole⟩] := .single (by decide) rfl _
  unfold upperStrokes
  split_ifs
  · exact hbar
  · exact .pair (by decide) (by decide) _ _
  · exact .pair (by decide) (by decide) _ _
  · exact hbar
  · exact .single (by decide) rfl _

theorem isCell_lowerStrokes (right : Option Lane) :
    IsCell (lane.lowerStrokes moving source target i right) := by
  have hbar : IsCell [⟨"| ".toList, lane.style, .whole⟩] := .single (by decide) rfl _
  unfold lowerStrokes
  split_ifs
  · exact hbar
  · exact .pair (by decide) (by decide) _ _
  · exact hbar
  · cases right with
    | some next => exact .single (by decide) rfl _
    | none => exact .single (by decide) rfl _

end

/-! ## The rows of an edge -/

section
variable {source target : Nat} {lanes : List Lane} (h : target < source)
  (hlt : source < lanes.length) {i : Nat} {lane : Lane} (hlane : lanes[i]? = some lane)
include h hlt hlane

theorem isMarked_upperCell :
    ∃ a b, (lane.upperStrokes (lanes[source]?.bind style) source target i).flatMap Stroke.chars =
        [a, b] ∧
      IsMarked (UpperMark lanes.length source target) lanes (2 * i) a ∧
      IsMarked (UpperMark lanes.length source target) lanes (2 * i + 1) b := by
  have hi := (List.getElem?_eq_some_iff.1 hlane).1
  have hsource := List.getElem?_eq_getElem hlt
  have hmark : ∀ {m : Mark} {k : Nat} {lane : Lane}, UpperMark lanes.length source target m →
      m.cell = k → lanes[m.lane]? = some lane →
        IsMarked (UpperMark lanes.length source target) lanes k (m.char, lane.classes) :=
    fun hm hcell => .of_mark (fun _ _ => UpperMark.unique h) hm hcell
  have hbar : i ≠ source ∨ source = target + 1 →
      IsMarked (UpperMark lanes.length source target) lanes (2 * i) ('|', lane.classes) := by
    intro hshown
    by_cases heq : i = source
    · subst heq
      exact hmark (.next (hshown.resolve_left fun hne => hne rfl)) rfl hlane
    · exact hmark (.bar i hi heq) rfl hlane
  rw [hsource]
  unfold upperStrokes
  split_ifs with hleft hpass hslope hright
  · refine ⟨_, _, rfl, hbar (.inl (by omega)), .of_blank ?_ _⟩
    rintro _ (_ | _ | _ | _) <;> simp only [ne_eq] <;> omega
  · exact ⟨_, _, rfl, hbar (.inl (by omega)),
      hmark (.pass i (by omega) (by omega)) rfl hsource⟩
  · exact ⟨_, _, rfl, hbar (.inl (by omega)),
      hmark (.slope (by omega)) (by simp only; omega) hsource⟩
  · refine ⟨_, _, rfl, hbar (by omega), .of_blank ?_ _⟩
    rintro _ (_ | _ | _ | _) <;> simp only [ne_eq] <;> omega
  · refine ⟨_, _, rfl, .of_blank ?_ _, .of_blank ?_ _⟩ <;>
      rintro _ (_ | _ | _ | _) <;> simp only [ne_eq] <;> omega

theorem isMarked_lowerCell :
    ∃ a b, (lane.lowerStrokes (lanes[source]?.bind style) source target i
        lanes[i + 1]?).flatMap Stroke.chars = [a, b] ∧
      IsMarked (LowerMark lanes.length source target) lanes (2 * i) a ∧
      IsMarked (LowerMark lanes.length source target) lanes (2 * i + 1) b := by
  have hi := (List.getElem?_eq_some_iff.1 hlane).1
  have hsource := List.getElem?_eq_getElem hlt
  have hmark : ∀ {m : Mark} {k : Nat} {lane : Lane}, LowerMark lanes.length source target m →
      m.cell = k → lanes[m.lane]? = some lane →
        IsMarked (LowerMark lanes.length source target) lanes k (m.char, lane.classes) :=
    fun hm hcell => .of_mark (fun _ _ => LowerMark.unique h) hm hcell
  rw [hsource]
  unfold lowerStrokes
  split_ifs with hleft hreach hdown
  · refine ⟨_, _, rfl, hmark (.bar i (by omega)) rfl hlane, .of_blank ?_ _⟩
    rintro _ (_ | _ | _) <;> simp only [ne_eq] <;> omega
  · exact ⟨_, _, rfl, hmark (.bar i (by omega)) rfl hlane,
      hmark .reach (by simp only; omega) hsource⟩
  · refine ⟨_, _, rfl, hmark (.bar i (by omega)) rfl hlane, .of_blank ?_ _⟩
    rintro _ (_ | _ | _) <;> simp only [ne_eq] <;> omega
  · cases hright : lanes[i + 1]? with
    | some right =>
      have := (List.getElem?_eq_some_iff.1 hright).1
      refine ⟨_, _, rfl, .of_blank ?_ _, hmark (.move (i + 1) (by omega) this) ?_ hright⟩
      · rintro _ (_ | _ | _) <;> simp only [ne_eq] <;> omega
      · simp only
        omega
    | none =>
      have := List.getElem?_eq_none_iff.1 hright
      refine ⟨_, _, rfl, .of_blank ?_ _, .of_blank ?_ _⟩ <;>
        rintro _ (_ | _ | _) <;> simp only [ne_eq] <;> omega

end

/-- The rows of an edge have the marks that they should have and are blank elsewhere. No two marks
share a cell, each row is two cells wide for every lane, and in colors every mark has those of the
lane that it belongs to. -/
theorem mergeEdge_marks {source target : Nat} {lanes : List Lane} (h : target < source)
    (hlt : source < lanes.length) :
    ∃ upper lower coloredUpper coloredLower,
      mergeEdge .plain source target lanes = [upper, lower] ∧
      mergeEdge .colored source target lanes = [coloredUpper, coloredLower] ∧
      ShowsMarks (UpperMark lanes.length source target) lanes upper coloredUpper ∧
      ShowsMarks (LowerMark lanes.length source target) lanes lower coloredLower := by
  refine ⟨_, _, _, _, rfl, rfl, ?_, ?_⟩
  · simp only [upperCell_eq]
    refine .of_cells (fun _ _ => UpperMark.unique h) ?_
      (fun i lane => isCell_upperStrokes _ source target i lane)
      fun i lane => isMarked_upperCell h hlt
    rintro _ (_ | _ | _ | _) <;> simp only <;> omega
  · simp only [lowerCell_eq]
    refine .of_cells (fun _ _ => LowerMark.unique h) ?_
      (fun i lane => isCell_lowerStrokes _ source target i lane lanes[i + 1]?)
      fun i lane => isMarked_lowerCell h hlt
    rintro _ (_ | _ | _) <;> simp only <;> omega

/-- The fourth of five lanes is led into the first one, and passes two others on its way. -/
theorem mergeEdge_marks_fiveLanes :
    let lanes : List Lane := [⟨.pending, laneStyle 0⟩, ⟨.pending, laneStyle 1⟩,
      ⟨.pending, laneStyle 2⟩, ⟨.pending, laneStyle 3⟩, ⟨.pending, none⟩]
    0 < 3 ∧ 3 < lanes.length ∧
      mergeEdge .plain 3 0 lanes = ["| |_|/  | ".toList, "|/| |  /  ".toList] ∧
      ∃ upper lower coloredUpper coloredLower,
        mergeEdge .plain 3 0 lanes = [upper, lower] ∧
        mergeEdge .colored 3 0 lanes = [coloredUpper, coloredLower] ∧
        ShowsMarks (UpperMark 5 3 0) lanes upper coloredUpper ∧
        ShowsMarks (LowerMark 5 3 0) lanes lower coloredLower := by
  intro lanes
  have hlt : 3 < lanes.length := by decide
  exact ⟨by decide, hlt, by decide, mergeEdge_marks (by decide) hlt⟩

end Lane

end RuleTrace
