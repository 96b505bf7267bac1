import RuleTrace.Proofs.Source.Normal
import RuleTrace.Tracer.Basic

/-!
# What a quote marks

A quote without styles has the lines of a range and marker rows. `Text.marked` picks the characters
of a line that stand at the marks of a marker row.

* `Source.quote_plain_line`, `Source.quote_plain_lines`: the rows of a quote that is not elided.
* `Tracer.marked_sourceLines`: the quote of the location between two offsets marks the text between
  them, with spaces for tabs and newlines for line ends.
-/

namespace RuleTrace

namespace Text

/-- The characters of a line that stand at the marks of a marker row. -/
def marked (mark : Char) (marker line : Text) : Text :=
  ((marker.zip line).filter (·.1 = mark)).map (·.2)

theorem makeLine_singleton (a k : Nat) (c : Char) :
    makeLine a k [c] = List.replicate a ' ' ++ List.replicate k c := by
  simp [makeLine]

/-- The marks stand at the part of a line that they are as long as. -/
theorem marked_makeLine {mark : Char} (hm : mark ≠ ' ') (u v w : Text) :
    marked mark (makeLine u.length v.length [mark]) (u ++ v ++ w) = v := by
  have hu : ((List.replicate u.length ' ').zip u).filter (·.1 = mark) = [] := by
    refine List.filter_eq_nil_iff.2 fun p hp => ?_
    have hp1 := List.eq_of_mem_replicate (List.of_mem_zip (a := p.1) (b := p.2) hp).1
    simpa [hp1] using Ne.symm hm
  have hv : ((List.replicate v.length mark).zip v).filter (·.1 = mark) =
      (List.replicate v.length mark).zip v := by
    refine List.filter_eq_self.2 fun p hp => ?_
    have hp1 := List.eq_of_mem_replicate (List.of_mem_zip (a := p.1) (b := p.2) hp).1
    simpa using hp1
  have hw : (List.replicate v.length mark).zip (v ++ w) = (List.replicate v.length mark).zip v := by
    rw [← List.append_nil (List.replicate v.length mark), List.zip_append (by simp),
      List.zip_nil_left]
    simp
  rw [marked, makeLine_singleton, List.append_assoc, List.zip_append (by simp), List.filter_append,
    hu, hw, hv, List.nil_append, List.map_snd_zip (by simp)]

end Text

/-! ## Quotes without styles -/

namespace Source

section
variable {s : Source} {r : LineRange}

theorem line_natCast (s : Source) (i : Nat) : s.line i = s.lines.getD i [] := by
  rw [line, if_neg (by omega), Int.toNat_natCast]

/-- A source has the lines of the normal form of its text. -/
theorem lines_of_ofText {t : Text} (h : ofText t = .ok s) : s.lines = t.normalize.lines := by
  rw [ofText] at h
  split at h
  · exact nomatch h
  · cases h
    rfl

/-- The excerpt of a range is the part of the lines that it covers. -/
theorem excerpt_eq {xs lines ys : List Text} (hl : s.lines = xs ++ lines ++ ys)
    (hstart : r.startLine = xs.length) (hcount : r.lineCount = lines.length) :
    s.excerpt r = lines := by
  rw [excerpt, hcount, hstart]
  refine List.ext_getElem (by simp) fun i _ hi => ?_
  have hget : s.lines[xs.length + i]? = some lines[i] := by
    rw [hl, List.append_assoc, List.getElem?_append_right (by omega), Nat.add_sub_cancel_left,
      List.getElem?_append_left hi, List.getElem?_eq_getElem hi]
  rw [List.getElem_map, List.getElem_range, ← Int.natCast_add, line_natCast, List.getD, hget]
  rfl

theorem paintedExcerpt_plain (highlight : Option Style) :
    s.paintedExcerpt ⟨.plain, highlight⟩ r = s.excerpt r := by
  rw [paintedExcerpt]
  refine List.ext_getElem? fun i => ?_
  rw [List.getElem?_mapIdx]
  cases (s.excerpt r)[i]? with
  | none => rfl
  | some line => cases r.extentOn? i <;> simp

theorem elide_of_length_le {limit : Nat} {lines : List Text} (h : lines.length ≤ limit) :
    elide limit lines = lines :=
  if_pos h

end

section
variable {s : Source} {r : LineRange} {xs ys : List Text} {lead x y : Text} {maxLines : Option Int}
  {highlight : Option Style}

/-- A range on one line: the line, and carets at the range, one at least. -/
theorem quote_plain_line {m : Text} (hl : s.lines = xs ++ [x ++ m ++ y] ++ ys)
    (hr : r = ⟨xs.length, x.length, xs.length, x.length + m.length⟩) :
    s.quote ⟨.plain, highlight⟩ lead r maxLines =
      [x ++ m ++ y, makeLine x.length (max 1 m.length : Nat) ['^']].map (lead ++ ·) := by
  have hrows : s.excerpt r = [x ++ m ++ y] :=
    excerpt_eq hl (by rw [hr]) (by simp [hr, LineRange.lineCount])
  have helide : [x ++ m ++ y].length ≤ quoteLimit maxLines :=
    Nat.le_trans (by simp) (Nat.le_max_left 3 _)
  have hupper : s.upperMarker ⟨.plain, highlight⟩ r = [] := if_neg (by simp [hr])
  have hcarets : max 1 (r.stopColumn - r.startColumn) = (max 1 m.length : Nat) := by
    simp only [hr]
    omega
  have hlower : lowerMarker ⟨.plain, highlight⟩ r =
      [makeLine x.length (max 1 m.length : Nat) ['^']] := by
    have hle : r.startColumn ≤ r.stopColumn := by
      simp only [hr]
      omega
    rw [lowerMarker, if_pos ⟨by rw [hr], hle⟩, hcarets, hr]
    rfl
  rw [quote, paintedExcerpt_plain, hrows, elide_of_length_le helide, hupper, hlower]
  rfl

/-- A range over several lines: underscores at its part of the first line, the lines, and carets
at its part of the last line. -/
theorem quote_plain_lines {first last : Text} {inner : List Text}
    (hl : s.lines = xs ++ ((x ++ first) :: inner ++ [last ++ y]) ++ ys)
    (hr : r = ⟨xs.length, x.length, (xs.length + inner.length + 1 : Nat), last.length⟩)
    (hmax : inner.length + 2 ≤ quoteLimit maxLines) :
    s.quote ⟨.plain, highlight⟩ lead r maxLines =
      (makeLine x.length first.length ['_'] :: (x ++ first) :: (inner ++
        [last ++ y, makeLine 0 last.length ['^']])).map (lead ++ ·) := by
  have hlt : r.startLine < r.stopLine := by
    simp only [hr]
    omega
  have hrows : s.excerpt r = (x ++ first) :: inner ++ [last ++ y] := by
    refine excerpt_eq hl (by rw [hr]) ?_
    simp only [hr, LineRange.lineCount, List.length_append, List.length_cons, List.length_nil]
    omega
  have helide : ((x ++ first) :: inner ++ [last ++ y]).length ≤ quoteLimit maxLines := by
    simp only [List.cons_append, List.length_cons, List.length_append, List.length_nil]
    omega
  have hline : s.line r.startLine = x ++ first := by
    rw [hr, line_natCast, hl]
    simp
  have hupper : s.upperMarker ⟨.plain, highlight⟩ r =
      [makeLine x.length first.length ['_']] := by
    have hcount : ((x ++ first).length : Int) - r.startColumn = first.length := by
      simp only [hr, List.length_append]
      omega
    rw [upperMarker, if_pos hlt, hline, hcount, hr]
    rfl
  have hlower : lowerMarker ⟨.plain, highlight⟩ r = [makeLine 0 last.length ['^']] := by
    rw [lowerMarker, if_neg (by omega), if_pos hlt, hr]
    rfl
  rw [quote, paintedExcerpt_plain, hrows, elide_of_length_le helide, hupper, hlower]
  simp

end

end Source

/-! ## The quote of a location -/

/-- Two offsets cut a text into three parts. -/
theorem Text.exists_parts {text : Text} {s e : Nat} (hse : s ≤ e) (he : e ≤ text.length) :
    ∃ a m b, text = a ++ m ++ b ∧ s = a.length ∧ e = (a ++ m).length := by
  refine ⟨text.take s, (text.drop s).take (e - s), text.drop e, ?_, ?_, ?_⟩
  · rw [List.append_assoc, ← Nat.add_sub_cancel' hse, ← List.drop_drop, Nat.add_sub_cancel_left,
      List.take_append_drop, List.take_append_drop]
  · rw [List.length_take]
    omega
  · rw [List.length_append, List.length_take, List.length_take, List.length_drop]
    omega

theorem Text.between_append (a m b : Text) :
    (a ++ m ++ b).between a.length (a ++ m).length = m := by
  rw [between, cut_natCast (by simp), cut_natCast (by simp), List.take_left, List.drop_left]

section
variable {a m b : Text}

theorem Text.lastLineLength_le (t : Text) : t.lastLineLength ≤ t.length := by
  have hle := (List.takeWhile_prefix (l := t.reverse) (· ≠ '\n')).length_le
  rwa [List.length_reverse] at hle

/-- The position after a start of a source. -/
theorem Position.ofOffset_append (a b : Text) :
    Position.ofOffset (a ++ b) a.length =
      ⟨a.length, a.count '\n' + 1, a.lastLineLength + 1⟩ := by
  have hupto : (a ++ b).upto a.length = a := by
    rw [Text.upto, Text.cut_natCast (by simp), List.take_left]
  have hle := a.lastLineLength_le
  rw [ofOffset, hupto]
  simp only [mk.injEq, true_and]
  omega

theorem Location.lineRange_locate (a m b : Text) :
    (locate (a ++ m ++ b) a.length (a ++ m).length).lineRange =
      ⟨a.count '\n', a.lastLineLength, (a ++ m).count '\n', (a ++ m).lastLineLength⟩ := by
  have hstart := Position.ofOffset_append a (m ++ b)
  rw [← List.append_assoc] at hstart
  rw [locate, hstart, Position.ofOffset_append (a ++ m) b]
  simp [lineRange]

theorem Text.splitsLineEnd_append : (a ++ b).SplitsLineEnd a.length ↔ Splits a b := by
  rw [SplitsLineEnd, List.take_left, List.drop_left]

/-! ### Where a span is in the normal form -/

section
variable (hpaired : Text.ReturnsPaired (a ++ m ++ b)) (hs : ¬Text.Splits a (m ++ b))
  (he : ¬Text.Splits (a ++ m) b)
include hpaired hs he

/-- The parts of a text that is cut outside its line ends are paired and have normal forms that
make up that of the text. -/
theorem Text.normalize_parts :
    ReturnsPaired a ∧ ReturnsPaired (a ++ m) ∧ ReturnsPaired m ∧
      normalize (a ++ m) = normalize a ++ normalize m ∧
      normalize (a ++ m ++ b) = normalize a ++ normalize m ++ normalize b := by
  have ham : ¬Splits a m := by
    rintro ⟨hlast, hhead⟩
    cases m with
    | nil => simp at hhead
    | cons c m => exact hs ⟨hlast, hhead⟩
  have hleft : ReturnsPaired (a ++ m) := hpaired.left he
  have hnorm : normalize (a ++ m) = normalize a ++ normalize m := normalize_append ham
  exact ⟨hleft.left ham, hleft, hleft.right, hnorm, by rw [normalize_append he, hnorm]⟩

/-- A span without a newline is a part of one line. -/
theorem Text.lines_normalize_of_notMem (hm : '\n' ∉ m) :
    ∃ xs x y ys, lines (normalize (a ++ m ++ b)) = xs ++ [x ++ expandTabs m ++ y] ++ ys ∧
      (locate (a ++ m ++ b) a.length (a ++ m).length).lineRange =
        ⟨xs.length, x.length, xs.length, x.length + m.expandTabs.length⟩ := by
  obtain ⟨pa, pam, pm, hnam, hnamb⟩ := normalize_parts hpaired hs he
  have hcr : '\r' ∉ m := by
    intro hr
    obtain ⟨pre, post, rfl⟩ := List.append_of_mem hr
    have hnl := List.mem_of_mem_head? (Option.mem_def.2 pm.head?)
    exact hm (List.mem_append_right _ (List.mem_cons_of_mem _ hnl))
  have hnm : normalize m = expandTabs m := by
    rw [normalize_of_paired pm, List.filter_eq_self.2]
    intro c hc
    simpa using fun h : c = '\r' => hcr (h ▸ hc)
  have hlm : lines (normalize m) = [expandTabs m] := by
    rw [hnm]
    refine lines_of_notMem (List.count_eq_zero.1 ?_)
    rw [count_expandTabs, List.count_eq_zero.2 hm]
  obtain ⟨xs, x, hx⟩ := exists_lines_eq_concat (normalize a)
  obtain ⟨y, ys, hy⟩ := exists_lines_eq_cons (normalize b)
  have hxm : lines (normalize a ++ normalize m) = xs ++ [x ++ expandTabs m] := lines_append hx hlm
  refine ⟨xs, x, y, ys, ?_, ?_⟩
  · rw [hnamb, lines_append hxm hy]
    simp
  · obtain ⟨hca, hla⟩ := length_of_lines_eq hx
    obtain ⟨hcm, hlm⟩ := length_of_lines_eq hxm
    rw [count_normalize pa] at hca
    rw [lastLineLength_normalize pa] at hla
    rw [← hnam, count_normalize pam] at hcm
    rw [← hnam, lastLineLength_normalize pam, List.length_append] at hlm
    rw [Location.lineRange_locate, ← hca, ← hla, ← hcm, ← hlm, Int.natCast_add]

/-- A span with a newline has the end of one line, the lines after it and the start of a later
line. -/
theorem Text.lines_normalize_of_mem (hm : '\n' ∈ m) :
    ∃ xs x first inner last y ys,
      lines (normalize (a ++ m ++ b)) = xs ++ ((x ++ first) :: inner ++ [last ++ y]) ++ ys ∧
      (locate (a ++ m ++ b) a.length (a ++ m).length).lineRange =
        ⟨xs.length, x.length, (xs.length + inner.length + 1 : Nat), last.length⟩ ∧
      unlines (first :: inner ++ [last]) = m.expandTabs.joinLineEnds := by
  obtain ⟨pa, pam, pm, hnam, hnamb⟩ := normalize_parts hpaired hs he
  obtain ⟨zs, last, hzs⟩ := exists_lines_eq_concat (normalize m)
  have hcount := (length_of_lines_eq hzs).1
  rw [count_normalize pm] at hcount
  obtain ⟨first, inner, rfl⟩ := List.exists_cons_of_ne_nil
    (List.ne_nil_of_length_pos (hcount ▸ List.count_pos_iff.2 hm))
  obtain ⟨xs, x, hx⟩ := exists_lines_eq_concat (normalize a)
  obtain ⟨y, ys, hy⟩ := exists_lines_eq_cons (normalize b)
  have hxm : lines (normalize a ++ normalize m) = (xs ++ (x ++ first) :: inner) ++ [last] := by
    rw [lines_append hx hzs]
    simp
  refine ⟨xs, x, first, inner, last, y, ys, ?_, ?_, ?_⟩
  · rw [hnamb, lines_append hxm hy]
    simp
  · obtain ⟨hca, hla⟩ := length_of_lines_eq hx
    obtain ⟨hcm, hlm⟩ := length_of_lines_eq hxm
    rw [count_normalize pa] at hca
    rw [lastLineLength_normalize pa] at hla
    rw [← hnam, count_normalize pam, List.length_append, List.length_cons, ← Nat.add_assoc] at hcm
    rw [← hnam, lastLineLength_normalize pam] at hlm
    rw [Location.lineRange_locate, ← hca, ← hla, ← hcm, ← hlm]
  · rw [← hzs, unlines_lines, normalize_of_paired pm, joinLineEnds_of_paired pm]

end

end

/-- Without styles, the quote of the location between two offsets, neither of them inside a line
end, marks the text between them. On one line there are as many carets as characters, one at least,
from the column of the first offset on, and they stand under that text. Over several lines the
underscores stand at its part of the first line and the carets at its part of the last one. -/
theorem Tracer.marked_sourceLines (text : Text) (t : Tracer)
    (hsource : Source.ofText text = .ok t.source) (hink : t.options.ink = .plain)
    (hpaired : text.ReturnsPaired) (s e : Nat) (hse : s ≤ e) (he : e ≤ text.length)
    (hs : ¬text.SplitsLineEnd s) (he' : ¬text.SplitsLineEnd e) (maxLines : Int)
    (hmax : (locate text s e).stop.line - (locate text s e).start.line + 1 ≤ maxLines) :
    let l := locate text s e
    let rows := t.sourceLines [] l (some maxLines)
    (l.start.line = l.stop.line → ∃ line marker, rows = [line, marker] ∧
      line = t.source.line (l.start.line - 1) ∧
      marker = List.replicate (l.start.column - 1).toNat ' ' ++ List.replicate (max (e - s) 1) '^' ∧
      (s < e → Text.marked '^' marker line = (text.between s e).expandTabs)) ∧
    (l.start.line ≠ l.stop.line → ∃ upper first inner last lower,
      rows = upper :: first :: (inner ++ [last, lower]) ∧
      Text.unlines (Text.marked '_' upper first :: inner ++ [Text.marked '^' lower last]) =
        (text.between s e).expandTabs.joinLineEnds) := by
  obtain ⟨a, m, b, rfl, rfl, rfl⟩ := Text.exists_parts hse he
  rw [Text.splitsLineEnd_append] at he'
  rw [List.append_assoc, Text.splitsLineEnd_append] at hs
  rw [Text.between_append]
  intro l rows
  replace hmax : l.stop.line - l.start.line + 1 ≤ maxLines := hmax
  have hl : t.source.lines = Text.lines (Text.normalize (a ++ m ++ b)) :=
    Source.lines_of_ofText hsource
  have hrows : rows =
      t.source.quote ⟨.plain, some (.ofColor "cyan".toList)⟩ [] l.lineRange (some maxLines) := by
    rw [← hink]
    rfl
  by_cases hm : '\n' ∈ m
  · obtain ⟨xs, x, first, inner, last, y, ys, hlines, hrange, htext⟩ :=
      Text.lines_normalize_of_mem hpaired hs he' hm
    have hstart : l.start.line - 1 = xs.length := congrArg LineRange.startLine hrange
    have hstop : l.stop.line - 1 = (xs.length + inner.length + 1 : Nat) :=
      congrArg LineRange.stopLine hrange
    refine ⟨fun h => absurd h (by omega), fun _ => ⟨makeLine x.length first.length ['_'],
      x ++ first, inner, last ++ y, makeLine 0 last.length ['^'], ?_, ?_⟩⟩
    · have hlimit : inner.length + 2 ≤ quoteLimit (some maxLines) :=
        Nat.le_trans (by omega) (Nat.le_max_right 3 maxLines.toNat)
      rw [hrows, Source.quote_plain_lines (hl.trans hlines) hrange hlimit]
      simp
    · have hupper := Text.marked_makeLine (show '_' ≠ ' ' by decide) x first []
      have hlower : Text.marked '^' (makeLine 0 last.length ['^']) (last ++ y) = last :=
        Text.marked_makeLine (by decide) [] last y
      rw [List.append_nil] at hupper
      rw [hupper, hlower, htext]
  · obtain ⟨xs, x, y, ys, hlines, hrange⟩ := Text.lines_normalize_of_notMem hpaired hs he' hm
    have hstart : l.start.line - 1 = xs.length := congrArg LineRange.startLine hrange
    have hstop : l.stop.line - 1 = xs.length := congrArg LineRange.stopLine hrange
    have hcolumn : l.start.column - 1 = x.length := congrArg LineRange.startColumn hrange
    refine ⟨fun _ => ⟨x ++ m.expandTabs ++ y,
      makeLine x.length (max 1 m.expandTabs.length : Nat) ['^'], ?_, ?_, ?_, fun hlt => ?_⟩,
      fun h => absurd (by omega) h⟩
    · rw [hrows, Source.quote_plain_line (hl.trans hlines) hrange]
      simp
    · rw [hstart, Source.line_natCast, hl, hlines]
      simp
    · have hcarets : max 1 m.expandTabs.length = max ((a ++ m).length - a.length) 1 := by
        rw [Text.expandTabs, List.length_map, List.length_append, Nat.add_sub_cancel_left,
          Nat.max_comm]
      rw [hcolumn, hcarets, Text.makeLine_singleton, Int.toNat_natCast]
    · have hcarets : max 1 m.expandTabs.length = m.expandTabs.length := by
        rw [List.length_append] at hlt
        rw [Text.expandTabs, List.length_map]
        omega
      rw [hcarets]
      exact Text.marked_makeLine (by decide) x m.expandTabs y

/-- A span over two lines, with a tab in it and a carriage return at its line end. -/
theorem Tracer.marked_sourceLines_twoLines :
    let text := "ab\r\nc\td".toList
    let t : Tracer := ⟨{ ink := .plain }, ⟨["ab".toList, "c d".toList]⟩, [], ⟨false, false⟩, .empty⟩
    ∃ upper first inner last lower,
      t.sourceLines [] (locate text 1 6) (some 2) = upper :: first :: (inner ++ [last, lower]) ∧
      Text.unlines (Text.marked '_' upper first :: inner ++ [Text.marked '^' lower last]) =
        "b\nc ".toList :=
  (marked_sourceLines "ab\r\nc\td".toList
    ⟨{ ink := .plain }, ⟨["ab".toList, "c d".toList]⟩, [], ⟨false, false⟩, .empty⟩ (by rfl) rfl
    (by decide) 1 6 (by decide) (by decide) (by decide) (by decide) 2 (by decide)).2 (by decide)

end RuleTrace
