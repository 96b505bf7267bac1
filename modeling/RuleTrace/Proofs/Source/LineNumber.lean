import RuleTrace.Proofs.Source.LineEnds

/-!
# Line numbers of locations

A location counts the newlines before an offset of the text as it was given, and a source has the
lines of its normal form, in which a lone carriage return is a newline, too. So the line number of a
location is behind that of the source by the lone carriage returns before it.

* `Source.line_locate`: how far it is behind, and which line of the source has the offset.
* `Source.line_locate_loneReturn`: a location whose line number is that of another line.
-/

namespace RuleTrace

/-- The line of an offset that does not split a line end is counted without the lone carriage
returns before it. With these, it is one more than the newlines in the normal form of the text
before it, and the line of the source with that number is the one that has the offset: it is made up
of the end of the last line before the offset and the start of the first line after it. -/
theorem Source.line_locate (t : Text) (s : Source) (hs : ofText t = .ok s) (o : Nat)
    (ho : o ≤ t.length) (hcut : ¬t.SplitsLineEnd o) :
    let line := (locate t o o).start.line
    let before := t.take o
    line + Text.loneReturns before = (Text.normalize before).count '\n' + 1 ∧
    ∃ xs x y ys, Text.lines (Text.normalize before) = xs ++ [x] ∧
      Text.lines (Text.normalize (t.drop o)) = y :: ys ∧
      s.lines = xs ++ (x ++ y) :: ys ∧
      s.line (line - 1 + Text.loneReturns before) = x ++ y := by
  intro line before
  have hline : line = before.count '\n' + 1 := by
    show ((t.upto o).count '\n' : Int) + 1 = _
    rw [Text.upto, Text.cut_natCast ho]
  have hcount : line + Text.loneReturns before = (Text.normalize before).count '\n' + 1 := by
    rw [Text.count_newline_normalize, Text.lineEndCount, hline]
    omega
  refine ⟨hcount, ?_⟩
  obtain ⟨xs, x, hx⟩ := Text.exists_lines_eq_concat (Text.normalize before)
  obtain ⟨y, ys, hy⟩ := Text.exists_lines_eq_cons (Text.normalize (t.drop o))
  have hlines : s.lines = xs ++ (x ++ y) :: ys := by
    rw [lines_of_ofText hs, ← Text.lines_append hx hy, ← Text.normalize_append hcut,
      List.take_append_drop]
  have hindex : line - 1 + Text.loneReturns before = (xs.length : Nat) := by
    rw [(Text.length_of_lines_eq hx).1]
    omega
  refine ⟨xs, x, y, ys, hx, hy, hlines, ?_⟩
  rw [hindex, line_natCast, hlines]
  simp

/-- Of two line ends before the offset one is a lone carriage return: the location says line 2, and
the offset is in the third line of the source. -/
theorem Source.line_locate_mixedEnds :
    let t := "a\rb\r\ncd".toList
    let s : Source := ⟨["a".toList, "b".toList, "cd".toList]⟩
    ofText t = .ok s ∧ 6 ≤ t.length ∧ ¬Text.SplitsLineEnd t 6 ∧
      (locate t 6 6).start.line + 1 = (Text.normalize (t.take 6)).count '\n' + 1 ∧
      ∃ xs x y ys, Text.lines (Text.normalize (t.take 6)) = xs ++ [x] ∧
        Text.lines (Text.normalize (t.drop 6)) = y :: ys ∧ s.lines = xs ++ (x ++ y) :: ys ∧
        s.line ((locate t 6 6).start.line - 1 + 1) = x ++ y := by
  intro t s
  have hs : ofText t = .ok s := by rfl
  have hcut : ¬Text.SplitsLineEnd t 6 := by decide
  exact ⟨hs, by decide, hcut, line_locate t s hs 6 (by decide) hcut⟩

/-- A carriage return and then a newline are two line ends of this text. The offset after them is at
the start of the third line, but its location says line 2, which is another line of the source. -/
theorem Source.line_locate_loneReturn :
    let t := "a\rb\nc".toList
    let s : Source := ⟨["a".toList, "b".toList, "c".toList]⟩
    ofText t = .ok s ∧ 4 ≤ t.length ∧ ¬Text.SplitsLineEnd t 4 ∧ t.drop 4 = "c".toList ∧
      (Text.normalize (t.take 4)).count '\n' + 1 = 3 ∧ s.line 2 = "c".toList ∧
      (locate t 4 4).start.line = 2 ∧ s.line ((locate t 4 4).start.line - 1) = "b".toList :=
  ⟨rfl, by decide, by decide, rfl, by decide, rfl, by decide, rfl⟩

end RuleTrace
