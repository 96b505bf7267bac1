import RuleTrace.Source.Basic
import RuleTrace.Style.Basic

/-!
# Quoting a source

A range of the source is quoted as the lines it covers, with the range itself painted, and with
marker rows beneath and, when it spans several lines, above. A quote of many lines keeps its head
and its tail and has dots for its middle.

Lines and columns are counted from zero here.
-/

namespace RuleTrace

/-- A range of a source by lines and columns, counted from zero. -/
structure LineRange where
  startLine : Int
  startColumn : Int
  stopLine : Int
  stopColumn : Int
deriving DecidableEq, Repr

namespace LineRange

/-- The count of quoted lines; a range that ends before it starts has its first line. -/
def lineCount (r : LineRange) : Nat :=
  max 1 (r.stopLine - r.startLine + 1).toNat

/-- The part of the `i`-th quoted line that belongs to the range. -/
def extentOn? (r : LineRange) (i : Nat) : Option Extent :=
  if r.startLine = r.stopLine then
    if r.startColumn < r.stopColumn then some (.slice r.startColumn (some r.stopColumn)) else none
  else if r.startLine < r.stopLine then
    if i = 0 then some (.slice r.startColumn none)
    else if i + 1 = r.lineCount then some (.slice 0 (some (r.stopColumn + 1)))
    else some .whole
  else none

end LineRange

/-- How ranges are quoted: with which ink, and in which style. -/
structure QuoteStyle where
  ink : Ink
  highlight : Option Style := some (.ofColor "cyan".toList)
deriving DecidableEq, Repr

namespace QuoteStyle

/-- A marker row: a run of a character in the highlight style. -/
def marker (q : QuoteStyle) (indent count : Int) (c : Char) : Text :=
  q.ink.paint q.highlight (makeLine indent count [c])

end QuoteStyle

/-- The count of lines that a quote shows at most: never fewer than 3. -/
def quoteLimit (requested : Option Int) : Nat :=
  max 3 (requested.getD 3).toNat

/-- The lines of a quote with dots for the middle of those beyond the limit. The head is the
longer half of what is kept. -/
def elide (limit : Nat) (lines : List Text) : List Text :=
  if lines.length ≤ limit then lines
  else lines.take ((limit + 1) / 2) ++ "...".toList :: lines.drop (lines.length - limit / 2)

namespace Source

/-- The lines that a range covers. -/
def excerpt (s : Source) (r : LineRange) : List Text :=
  (List.range r.lineCount).map fun (i : Nat) => s.line (r.startLine + i)

/-- The covered lines with the range painted on them. -/
def paintedExcerpt (s : Source) (q : QuoteStyle) (r : LineRange) : List Text :=
  (s.excerpt r).mapIdx fun i line =>
    match r.extentOn? i with
    | some extent => q.ink.paint q.highlight line extent
    | none => line

/-- The marker row above the lines of a range, for a range over several lines. -/
def upperMarker (s : Source) (q : QuoteStyle) (r : LineRange) : List Text :=
  if r.startLine < r.stopLine then
    [q.marker r.startColumn ((s.line r.startLine).length - r.startColumn) '_']
  else []

/-- The marker row beneath the lines of a range; an empty range has one mark. -/
def lowerMarker (q : QuoteStyle) (r : LineRange) : List Text :=
  if r.startLine = r.stopLine ∧ r.startColumn ≤ r.stopColumn then
    [q.marker r.startColumn (max 1 (r.stopColumn - r.startColumn)) '^']
  else if r.startLine < r.stopLine then [q.marker 0 r.stopColumn '^']
  else []

/-- The rows that quote a range, each after a given lead. -/
def quote (s : Source) (q : QuoteStyle) (lead : Text) (r : LineRange)
    (maxLines : Option Int := some 3) : List Text :=
  (s.upperMarker q r ++ elide (quoteLimit maxLines) (s.paintedExcerpt q r) ++ lowerMarker q r).map
    (lead ++ ·)

end Source

end RuleTrace
