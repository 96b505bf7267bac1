import RuleTrace.Tracer.Basic

/-!
# Graphs of a tracer

A view of the calls is drawn with a label for each of them. Drawing also notes the styles of the
lanes in the call tree, which changes no later drawing. A view without calls has a notice in place
of a graph. Drawing goes from the last call to the first, and breaks off at one whose location
cannot be written.
-/

namespace RuleTrace

/-- A call as it is drawn, with its label. -/
def Node.item (label : Node → List Text) (n : Node) : Item :=
  { number := n.number
    parent := n.parent.map fun (p : Nat) => (p : Int)
    state := n.state
    label := label n }

/-- Draws calls, and notes the styles of their lanes. Of a call listed more than once, the first
place counts. -/
def CallTree.draw (t : CallTree) (ink : Ink) (spaced : Bool) (label : Node → List Text)
    (nodes : List Node) : List Text × CallTree :=
  let drawing := RuleTrace.draw ink spaced (nodes.map (·.item label))
  (drawing.rows, t.noteStyles ((nodes.map (·.number)).zip drawing.styles).reverse)

/-- The notice for a view without calls. -/
def View.notice : View → Text
  | .full =>
    "No trace found. Make sure your parser sends its trace events to the tracer.".toList
  | .failure =>
    "No backtrace found. Make sure your parser sends its trace events to the tracer.\n".toList ++
      "Or, the failure might occur in the start node.".toList

/-- The calls of a list after the last one whose location cannot be written. -/
def writableEnd (nodes : List Node) : List Node :=
  (nodes.reverse.takeWhile (·.location.isWritable)).reverse

namespace Tracer

/-- Draws a view: its rows, and the tracer with the styles noted of the calls that were drawn. There
is a row of bars between calls when no source is quoted. -/
def render (t : Tracer) (view : View) : Except Decimal.LengthError (List Text) × Tracer :=
  let nodes := t.tree.flatten t.hidden view
  let drawn := writableEnd nodes
  let label n := t.label n t.options.showSource []
  let (rows, tree) := t.tree.draw t.options.ink (!t.options.showSource) label drawn
  (if drawn.length < nodes.length then .error .longNumber else .ok rows, { t with tree })

/-- A view as text, and the tracer with the styles noted. -/
def graphText (t : Tracer) (view : View) : Except Decimal.LengthError Text × Tracer :=
  let (rows, t) := t.render view
  (rows.map fun rows => if rows.isEmpty then view.notice else Text.unlines rows, t)

end Tracer

end RuleTrace
