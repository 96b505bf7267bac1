import RuleTrace.Graph.Row

/-!
# Drawings

A list of calls is drawn from its last entry to its first, one row after the other from the top. A
call without a listed call below it opens a new lane. Any other call takes over the leftmost lane
that belongs to one of them, after the rest of their lanes were led into it.
-/

namespace RuleTrace

/-- A call as it is drawn: its number, the number of its caller, its state, and the lines of its
label. -/
structure Item where
  number : Int
  parent : Option Int
  state : NodeState
  label : List Text
deriving DecidableEq, Repr

/-- A lane in use: the call that it comes from, and the style of its bars. -/
structure Column where
  item : Item
  style : Option Style
deriving DecidableEq, Repr

/-- A column as a lane. -/
def Column.lane (c : Column) : Lane :=
  ⟨c.item.state, c.style⟩

/-- The styles of lanes, in the order in which lanes open. -/
def laneStyles : List Style :=
  [.ofColor "yellow".toList, .ofColor "magenta".toList, .ofColor "blue".toList,
    .ofColor "white".toList, .ofColor "green".toList]

/-- The style of a lane that opens in a column. -/
def laneStyle (column : Nat) : Option Style :=
  laneStyles[column % laneStyles.length]?

/-- One step of a drawing: the rows that it adds, the columns in use after it, and the style of
the call's own lane. -/
structure DrawStep where
  rows : List Text
  columns : List Column
  style : Option Style
deriving DecidableEq, Repr

namespace Column

/-- The columns of the calls made by the call with a number. -/
def ofCaller (number : Int) (columns : List Column) : List Nat :=
  (columns.zipIdx.filter fun c => c.1.item.parent == some number).map (·.2)

/-- The columns whose places are not in a list. -/
def without (gone : List Nat) (columns : List Column) : List Column :=
  (columns.zipIdx.filter fun c => !gone.contains c.2).map (·.1)

/-- Draws a call. Its bars are blank if it is the last one to be drawn and has calls below it. -/
def place (ink : Ink) (columns : List Column) (item : Item) (isLast : Bool) : DrawStep :=
  match ofCaller item.number columns with
  | [] =>
    let style := laneStyle columns.length
    let after := columns ++ [⟨item, style⟩]
    { rows := Lane.stateRows ink (after.map lane) (some columns.length) item.label false
      columns := after
      style }
  | target :: merged =>
    let style := columns[target]?.bind (·.style)
    let after := without merged (columns.set target ⟨item, style⟩)
    { rows := Lane.mergeRows ink merged target (columns.map lane) ++
        Lane.stateRows ink (after.map lane) (some target) item.label isLast
      columns := after
      style }

end Column

/-- The steps that draw calls in the given order, with a row of bars after each but the last if
there is to be space between them. -/
def drawSteps (ink : Ink) (spaced : Bool) : List Column → List Item → List DrawStep
  | _, [] => []
  | columns, item :: rest =>
    let step := Column.place ink columns item rest.isEmpty
    let space :=
      if spaced && !rest.isEmpty then
        Lane.stateRows ink (step.columns.map Column.lane) none [] false
      else []
    { step with rows := step.rows ++ space } :: drawSteps ink spaced step.columns rest

/-- A finished drawing: its rows from the top, and the style of each call's lane, in the order in
which the calls are listed. -/
structure Drawing where
  rows : List Text
  styles : List (Option Style)
deriving DecidableEq, Repr

/-- Draws a list of calls. -/
def draw (ink : Ink) (spaced : Bool) (items : List Item) : Drawing :=
  let steps := drawSteps ink spaced [] items.reverse
  { rows := steps.flatMap (·.rows), styles := (steps.map (·.style)).reverse }

end RuleTrace
