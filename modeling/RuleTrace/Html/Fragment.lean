import RuleTrace.Html.Stylesheet
import RuleTrace.Style.Segment
import RuleTrace.Tracer.Graph

/-!
# Graphs on web pages

The text of a graph becomes a fragment of a page that has the same layout: segments with classes
become spans. How elements and texts are written is up to a library (`Writer`).
-/

namespace RuleTrace

namespace Html

/-- How the elements of a page and the texts in them are written. -/
structure Writer where
  /-- The tag that opens an element, with the value of its class attribute. -/
  opening : (element value : Text) → Text
  /-- The tag that closes an element. -/
  closing : (element : Text) → Text
  /-- A text in an element. -/
  text : Text → Text
  /-- The element for a stylesheet. -/
  style : (sheet : Text) → Text

/-- Class names with a blank between neighbours. -/
def classAttribute : List Text → Text
  | [] => []
  | [name] => name
  | name :: rest => name ++ ' ' :: classAttribute rest

/-- The word for a view in the class of its fragment. -/
def viewName : View → Text
  | .full => "trace".toList
  | .failure => "backtrace".toList

section
variable (w : Writer)

/-- A segment as page text, in a span if it has classes. -/
def segment (s : Text × List Text) : Text :=
  match s.2 with
  | [] => w.text s.1
  | names =>
    w.opening "span".toList (classAttribute names) ++ w.text s.1 ++ w.closing "span".toList

/-- The lines of a terminal text as page text. -/
def body (t : Text) : Text :=
  (w.text ['\n']).intercalate (t.lines.map fun line => (segments line).flatMap (segment w))

/-- The fragment for the text of a graph, with the stylesheet if asked for. -/
def fragment (view : View) (withStyles : Bool) (t : Text) : Text :=
  w.opening "div".toList ("parsetrace parsetrace-".toList ++ viewName view) ++
    (if withStyles then w.style stylesheet else []) ++
    w.opening "pre".toList "graph".toList ++ body w t ++ w.closing "pre".toList ++
    w.closing "div".toList

end

/-! ## A writer -/

/-- A character of page text. -/
def escape (c : Char) : Text :=
  if c = '&' then "&amp;".toList else if c = '<' then "&lt;".toList else [c]

/-- A writer that has class names in quotes unless they are one word, and escapes the two characters
that have a meaning in page text. -/
def Writer.standard : Writer where
  opening element value :=
    '<' :: element ++ " class=".toList ++
      (if value.all Char.isAlphanum then value else '"' :: value ++ ['"']) ++ ['>']
  closing element := "</".toList ++ element ++ ['>']
  text t := t.flatMap escape
  style sheet := "<style>".toList ++ sheet ++ "</style>".toList

end Html

namespace Tracer

/-- A view as a fragment of a page, and the tracer with the styles noted. -/
def html (t : Tracer) (w : Html.Writer) (view : View) (withStyles : Bool) :
    Except Decimal.LengthError Text × Tracer :=
  let (text, t) := t.graphText view
  (text.map (Html.fragment w view withStyles), t)

end Tracer

end RuleTrace
