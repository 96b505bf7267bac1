import RuleTrace.Proofs.Source.Marked

/-!
# What a quote leaves out

A quote has marker rows around the lines of a range. When the lines are more than it may show
(`quoteLimit`), dots stand for the ones between its head and its tail.

* `Source.linesFrom_add`: lines with consecutive indices are split where one likes.
* `Source.elide_linesFrom`: what is left out of such lines.
* `Source.quote_plain`: the rows of every quote without styles.
-/

namespace RuleTrace

/-- A quote shows three lines at least, and three if no count or 0 is asked for. -/
theorem quoteLimit_eq (maxLines : Option Int) :
    (quoteLimit maxLines : Int) =
      max (if maxLines.getD 0 = 0 then 3 else maxLines.getD 0) 3 := by
  unfold quoteLimit
  cases maxLines with
  | none => rfl
  | some k =>
    simp only [Option.getD_some]
    split <;> omega

theorem three_le_quoteLimit (maxLines : Option Int) : 3 ≤ quoteLimit maxLines :=
  Nat.le_max_left 3 _

theorem LineRange.lineCount_eq (r : LineRange) :
    (r.lineCount : Int) = max 1 (r.stopLine - r.startLine + 1) := by
  unfold lineCount
  omega

namespace Source

/-- The lines with consecutive indices, the first of them given, empty where the source has none. -/
def linesFrom (s : Source) (first : Int) (count : Nat) : List Text :=
  (List.range count).map fun (i : Nat) => s.line (first + i)

section
variable (s : Source)

theorem length_linesFrom (first : Int) (count : Nat) :
    (s.linesFrom first count).length = count := by
  simp [linesFrom]

theorem linesFrom_add (first : Int) (a b : Nat) :
    s.linesFrom first (a + b) = s.linesFrom first a ++ s.linesFrom (first + a) b := by
  unfold linesFrom
  rw [List.range_add, List.map_append, List.map_map]
  simp [Int.add_assoc]

/-- Of too many lines the head and the tail are kept, and the lines between them are left out. The
head is as long as the tail, or one line longer. -/
theorem elide_linesFrom {limit count : Nat} (hlimit : 2 ≤ limit) (h : limit < count)
    (first : Int) :
    ∃ a b, a + b = limit ∧ (a = b ∨ a = b + 1) ∧ 0 < b ∧
      s.linesFrom first count = s.linesFrom first a ++ s.linesFrom (first + a) (count - limit) ++
        s.linesFrom (first + count - b) b ∧
      elide limit (s.linesFrom first count) =
        s.linesFrom first a ++ "...".toList :: s.linesFrom (first + count - b) b := by
  refine ⟨(limit + 1) / 2, limit / 2, by omega, by omega, by omega, ?_⟩
  generalize ha : (limit + 1) / 2 = a
  generalize hb : limit / 2 = b
  have hlast : first + count - b = first + (a + (count - limit) : Nat) := by omega
  have hsplit : s.linesFrom first count = s.linesFrom first a ++
      s.linesFrom (first + a) (count - limit) ++ s.linesFrom (first + count - b) b := by
    rw [hlast, ← linesFrom_add, ← linesFrom_add]
    congr 1
    omega
  refine ⟨hsplit, ?_⟩
  have hhead : (s.linesFrom first count).take a = s.linesFrom first a := by
    rw [hsplit, List.append_assoc]
    exact List.take_left' (length_linesFrom s first a)
  have htail : (s.linesFrom first count).drop (count - b) = s.linesFrom (first + count - b) b := by
    rw [hsplit]
    refine List.drop_left' ?_
    rw [List.length_append, length_linesFrom, length_linesFrom]
    omega
  rw [elide, length_linesFrom, if_neg (by omega), ha, hb, hhead, htail]

end

/-- A quote without styles loses only one gap in the middle. Its rows are underscores at the part of
the first line if the range spans several lines, the lines of the range, and carets at the part of
the last line if the range does not end before it starts. The lines are all there if they are no
more than may be shown. Otherwise those left out are next to each other, as many as there are too
many, with dots in their place. -/
theorem quote_plain (s : Source) (highlight : Option Style) (lead : Text) (r : LineRange)
    (maxLines : Option Int) :
    let total := r.lineCount
    let limit := quoteLimit maxLines
    let rows := s.quote ⟨.plain, highlight⟩ lead r maxLines
    (total : Int) = max 1 (r.stopLine - r.startLine + 1) ∧
    (limit : Int) = max (if maxLines.getD 0 = 0 then 3 else maxLines.getD 0) 3 ∧
    (∃ body, rows = ((if r.startLine < r.stopLine then
          [makeLine r.startColumn ((s.line r.startLine).length - r.startColumn) ['_']] else []) ++
        body ++
        if r.startLine = r.stopLine ∧ r.startColumn ≤ r.stopColumn then
          [makeLine r.startColumn (max 1 (r.stopColumn - r.startColumn)) ['^']]
        else if r.startLine < r.stopLine then [makeLine 0 r.stopColumn ['^']]
        else []).map (lead ++ ·) ∧
      (total ≤ limit ∧ body = s.linesFrom r.startLine total ∨
        limit < total ∧ ∃ a b, a + b = limit ∧ (a = b ∨ a = b + 1) ∧ 0 < b ∧
          s.linesFrom r.startLine total =
            s.linesFrom r.startLine a ++ s.linesFrom (r.startLine + a) (total - limit) ++
              s.linesFrom (r.stopLine + 1 - b) b ∧
          body = s.linesFrom r.startLine a ++ "...".toList ::
            s.linesFrom (r.stopLine + 1 - b) b)) ∧
    1 ≤ rows.length ∧ rows.length ≤ limit + 3 := by
  intro total limit rows
  have hlimit : 3 ≤ limit := three_le_quoteLimit maxLines
  have htotal : (total : Int) = max 1 (r.stopLine - r.startLine + 1) := r.lineCount_eq
  have hrows : rows = (s.upperMarker ⟨.plain, highlight⟩ r ++
      elide limit (s.linesFrom r.startLine total) ++
        lowerMarker ⟨.plain, highlight⟩ r).map (lead ++ ·) := by
    show s.quote _ lead r maxLines = _
    rw [quote, paintedExcerpt_plain]
    rfl
  have hmarkers : (s.upperMarker ⟨.plain, highlight⟩ r).length ≤ 1 ∧
      (lowerMarker ⟨.plain, highlight⟩ r).length ≤ 1 := by
    unfold upperMarker lowerMarker
    constructor
    · split <;> simp
    · split
      · simp
      · split <;> simp
  have hlength : rows.length = (s.upperMarker ⟨.plain, highlight⟩ r).length +
      (elide limit (s.linesFrom r.startLine total)).length +
        (lowerMarker ⟨.plain, highlight⟩ r).length := by
    rw [hrows, List.length_map, List.length_append, List.length_append]
  rcases Nat.lt_or_ge limit total with hlt | hle
  · obtain ⟨a, b, hab, hhalf, hb, hsplit, helide⟩ :=
      s.elide_linesFrom (by omega) hlt r.startLine
    have hlast : r.startLine + total - b = r.stopLine + 1 - b := by omega
    rw [hlast] at hsplit helide
    have hbody : (elide limit (s.linesFrom r.startLine total)).length = limit + 1 := by
      rw [helide, List.length_append, List.length_cons, length_linesFrom, length_linesFrom]
      omega
    exact ⟨htotal, quoteLimit_eq maxLines,
      ⟨_, hrows, .inr ⟨hlt, a, b, hab, hhalf, hb, hsplit, helide⟩⟩, by omega, by omega⟩
  · have helide : elide limit (s.linesFrom r.startLine total) = s.linesFrom r.startLine total :=
      elide_of_length_le (by rw [length_linesFrom]; exact hle)
    have hbody := congrArg List.length helide
    rw [length_linesFrom] at hbody
    exact ⟨htotal, quoteLimit_eq maxLines, ⟨_, hrows, .inl ⟨hle, helide⟩⟩, by omega, by omega⟩

end Source

end RuleTrace
