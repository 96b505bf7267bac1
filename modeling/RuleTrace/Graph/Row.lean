import RuleTrace.Call.Node

/-!
# Rows of a graph

A row is drawn over lanes, each two characters wide. A state row has a bar in every lane, or the
glyph of a state in the lane of the node that is being shown. A merge edge is two rows that lead
one lane into another one to the left of it, while the lanes to its right move one place left.
-/

namespace RuleTrace

/-- A lane of a graph: the state of the call that it comes from, and the style of its bars. -/
structure Lane where
  state : NodeState
  style : Option Style
deriving DecidableEq, Repr

/-- The glyph of a state and the style of the glyph. -/
def NodeState.glyph : NodeState → Text × Style
  | .pending => ("? ".toList, .ofColor "yellow".toList)
  | .resolved .matched => ("o ".toList, .ofColor "green".toList)
  | .resolved .failed => ("x ".toList, .ofColor "red".toList)

namespace Lane

/-! ## State rows -/

/-- One lane of a state row. Bars are blank in the last row of a graph. -/
def stateCell (ink : Ink) (isLast marked : Bool) (lane : Lane) : Text :=
  if marked then ink.paint (some lane.state.glyph.2) lane.state.glyph.1
  else ink.paint lane.style (if isLast then "  ".toList else "| ".toList)

/-- A state row. No lane is marked when the column is missing or not one of the lanes. -/
def stateLine (ink : Ink) (lanes : List Lane) (column : Option Nat) (isLast : Bool) : Text :=
  (lanes.mapIdx fun i lane => lane.stateCell ink isLast (column == some i)).flatten

/-- The rows that show the lines of a label, the glyph on the first one. There is a row even
without a label. -/
def stateRows (ink : Ink) (lanes : List Lane) (column : Option Nat) (label : List Text)
    (isLast : Bool) : List Text :=
  match label with
  | [] => [stateLine ink lanes column isLast]
  | line :: rest =>
    (stateLine ink lanes column isLast ++ line) ::
      rest.map (stateLine ink lanes none isLast ++ ·)

/-! ## Merge edges -/

/-- One lane of the first row of a merge edge: the moving line leaves its lane and crosses the
lanes up to its goal. -/
def upperCell (ink : Ink) (moving : Option Style) (source target i : Nat) (lane : Lane) : Text :=
  if i ≤ target then ink.paint lane.style "| ".toList
  else if i + 1 < source then ink.paint lane.style ['|'] ++ ink.paint moving ['_']
  else if i + 1 = source then ink.paint lane.style ['|'] ++ ink.paint moving ['/']
  else if source < i ∨ (i = source ∧ target + 1 = source) then ink.paint lane.style "| ".toList
  else "  ".toList

/-- One lane of the second row of a merge edge: the moving line reaches its goal, and the lanes to
the right of its old place move left. -/
def lowerCell (ink : Ink) (moving : Option Style) (source target : Nat) (right : Option Lane)
    (i : Nat) (lane : Lane) : Text :=
  if i < target then ink.paint lane.style "| ".toList
  else if i = target then ink.paint lane.style ['|'] ++ ink.paint moving ['/']
  else if i < source then ink.paint lane.style "| ".toList
  else match right with
    | some next => ink.paint next.style " /".toList
    | none => "  ".toList

/-- The two rows that lead the source lane into the target lane, which is to the left of it. -/
def mergeEdge (ink : Ink) (source target : Nat) (lanes : List Lane) : List Text :=
  let moving := lanes[source]?.bind style
  [(lanes.mapIdx fun i lane => lane.upperCell ink moving source target i).flatten,
    (lanes.mapIdx fun i lane =>
      lane.lowerCell ink moving source target lanes[i + 1]? i).flatten]

/-- Leads lanes into a target lane, one after the other: the rows, and the lanes that are left.
Every lane that goes renumbers those to the right of it. -/
def mergeAll (ink : Ink) (target : Nat) : List Nat → List Lane → List Text × List Lane
  | [], lanes => ([], lanes)
  | source :: sources, lanes =>
    let sources := sources.map fun i => if source < i then i - 1 else i
    let (rows, left) := mergeAll ink target sources (lanes.eraseIdx source)
    (mergeEdge ink source target lanes ++ rows, left)
termination_by sources => sources.length
decreasing_by simp

/-- The rows that lead lanes into a target lane, the leftmost first. -/
def mergeRows (ink : Ink) (sources : List Nat) (target : Nat) (lanes : List Lane) : List Text :=
  (mergeAll ink target (sources.mergeSort (· ≤ ·)) lanes).1

end Lane

end RuleTrace
