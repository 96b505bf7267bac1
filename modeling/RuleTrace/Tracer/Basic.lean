import RuleTrace.Call.View
import RuleTrace.Graph.Drawing
import RuleTrace.Source.Quote
import RuleTrace.Tracer.Sink

/-!
# Tracers

A tracer collects the events of the parse of one source and shows them: as a graph of all calls,
as a graph of the calls that lead to the furthest failures, and, while they arrive, as a live
trace.
-/

namespace RuleTrace

/-- What a tracer shows, and how. -/
structure TracerOptions where
  ink : Ink := .colored
  /-- How many source lines are quoted for a call, at least 3. -/
  maxSourceLines : Int := 6
  /-- Quote the source of every call. -/
  showSource : Bool := true
  /-- Write every event as it arrives. -/
  showTrace : Bool := false
  /-- Name calls by their full paths. -/
  showFullPath : Bool := false
  /-- Longer paths lose their front. -/
  maxPathLength : Int := 64
deriving DecidableEq, Repr

/-- The options, the source, the patterns that hide calls, the sink of the live trace, and the
calls so far. -/
structure Tracer where
  options : TracerOptions
  source : Source
  hidden : List Pattern
  sink : Sink
  tree : CallTree := .empty
deriving DecidableEq, Repr

/-- A location as a range of lines, counted from zero. -/
def Location.lineRange (l : Location) : LineRange :=
  ⟨l.start.line - 1, l.start.column - 1, l.stop.line - 1, l.stop.column - 1⟩

/-- Whether the lines and columns of a location are short enough to be written. -/
def Location.isWritable (l : Location) : Bool :=
  Decimal.fits l.start.line && Decimal.fits l.start.column &&
    Decimal.fits l.stop.line && Decimal.fits l.stop.column

/-! ## Construction -/

/-- What a tracer is made from. -/
structure TracerSetup where
  source : Option Text
  options : TracerOptions := {}
  hidden : List PathFilter := []
  sink : Sink
deriving DecidableEq, Repr

/-- Why a tracer cannot be made. -/
inductive SetupError where
  | source (e : SourceError)
  | pattern (e : PatternError)
deriving DecidableEq, Repr

/-- The message for a tracer that cannot be made. -/
def SetupError.message : SetupError → Text
  | .source e => e.message
  | .pattern e => e.message

/-- The patterns of some filters. -/
def patternsOf : List PathFilter → Except PatternError (List Pattern)
  | [] => .ok []
  | f :: fs => do
    let p ← f.pattern
    return p :: (← patternsOf fs)

namespace Tracer

/-- A tracer without events. The source is checked before the patterns. -/
def ofSetup (s : TracerSetup) : Except SetupError Tracer := do
  let source ← (Source.ofText? s.source).mapError SetupError.source
  let hidden ← (patternsOf s.hidden).mapError SetupError.pattern
  return {
    options := { s.options with maxSourceLines := max s.options.maxSourceLines 3 }
    source, hidden, sink := s.sink }

/-- The tracer without its events. -/
def reset (t : Tracer) : Tracer :=
  { t with tree := .empty }

/-! ## Labels -/

/-- The style of what is of less interest. -/
def thin : Style :=
  { effect := some "thin".toList }

/-- The style of rule names. -/
def ruleStyle : Style :=
  { color := some "yellow".toList, effect := some "bold".toList }

/-- A location as text, without its offsets. -/
def spanText (l : Location) : Text :=
  Decimal.ofInt l.start.line ++ ':' :: Decimal.ofInt l.start.column ++
    '-' :: Decimal.ofInt l.stop.line ++ ':' :: Decimal.ofInt l.stop.column

/-- The name of a call in its title. -/
def callName (t : Tracer) (n : Node) : Text :=
  if t.options.showFullPath then truncate n.path t.options.maxPathLength ++ n.rule else n.rule

/-- The title of a call: its location and name, after its number while events are written as they
arrive. -/
def title (t : Tracer) (n : Node) : Text :=
  let number :=
    if t.options.showTrace then
      t.options.ink.paint (some thin) ('#' :: Decimal.digits n.number) ++ [' ']
    else []
  number ++ t.options.ink.paint (some thin) (spanText n.location) ++
    ' ' :: t.options.ink.paint (some ruleStyle) (t.callName n)

/-- The rows that quote a location of the source. -/
def sourceLines (t : Tracer) (lead : Text) (l : Location) (maxLines : Option Int) : List Text :=
  t.source.quote { ink := t.options.ink } lead l.lineRange maxLines

/-- The label of a call: its title, and the quoted source if asked for. -/
def label (t : Tracer) (n : Node) (withSource : Bool) (lead : Text) : List Text :=
  t.title n ::
    if withSource then t.sourceLines lead n.location (some t.options.maxSourceLines) else []

/-- The label of a call whose location can be written. -/
def nodeText (t : Tracer) (n : Node) (withSource : Bool) (lead : Text) :
    Except Decimal.LengthError (List Text) :=
  if n.location.isWritable then .ok (t.label n withSource lead) else .error .longNumber

end Tracer

end RuleTrace
