import RuleTrace.Text.Basic

/-!
# Locations

A position is an offset into the source together with its line and column, both counted from 1.
A location is the range between two positions. `locate` finds the lines and columns of two
offsets; positions that come from elsewhere are taken as they are.
-/

namespace RuleTrace

/-- A place in a source. -/
structure Position where
  offset : Int
  line : Int
  column : Int
deriving DecidableEq, Repr

/-- A range of a source. -/
structure Location where
  start : Position
  stop : Position
deriving DecidableEq, Repr

namespace Text

/-- The length of the text after the last newline. -/
def lastLineLength (t : Text) : Nat :=
  (t.reverse.takeWhile (· ≠ '\n')).length

end Text

/-- The position of an offset: its line is one more than the newlines before it, and its column
is counted from the last of them. -/
def Position.ofOffset (source : Text) (offset : Int) : Position :=
  let before := source.upto offset
  { offset
    line := before.count '\n' + 1
    column := offset - (before.length - before.lastLineLength : Nat) + 1 }

/-- The location between two offsets of a source. -/
def locate (source : Text) (start stop : Int) : Location :=
  ⟨.ofOffset source start, .ofOffset source stop⟩

/-- The location of what is before every source. -/
def Location.origin : Location :=
  ⟨⟨0, 0, 0⟩, ⟨0, 0, 0⟩⟩

end RuleTrace
