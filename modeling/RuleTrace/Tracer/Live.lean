import RuleTrace.Tracer.Graph

/-!
# Live traces

A tracer takes events one at a time. While its live trace is on, each event whose call is not
hidden is written as a block of lines, indented by the count of calls around it. The first text
that the sink refuses turns the live trace off for good; the event itself is taken all the same. So
is an event whose block has a number that is too long to be written, but that is an error. An offset
that the log cannot be told of is an error too: the call has ended, and nothing is written.

Tracers can be chained: an event goes to the oldest tracer first and stops at the first one that
has an error, so that younger ones never see it.
-/

namespace RuleTrace

/-- The tag of a kind of event and the tag's style. -/
def EventKind.tag : EventKind → Text × Style
  | .enter => ("ENTER".toList, .ofColor "cyan".toList)
  | .leave .matched => ("MATCH".toList, .ofColor "green".toList)
  | .leave .failed => ("FAIL ".toList, .ofColor "red".toList)

/-- Why an event does not lead to the number of a call. -/
inductive RecordError where
  /-- The event is refused. -/
  | refused (e : CallError)
  /-- The tree changed, but the log or the live trace cannot write a number about the event. -/
  | unwritten (e : Decimal.LengthError)
deriving DecidableEq, Repr

/-- The message for an event that does not lead to the number of a call. -/
def RecordError.message : RecordError → Text
  | .refused e => e.message
  | .unwritten e => e.message

/-- What an event leads to besides the new state: text on the sink, and records for the log. -/
structure Activity where
  written : Text := []
  log : List LogRecord := []
deriving DecidableEq, Repr

/-- What an event comes to: the tracer after it, what else happened, and the number of the call
that the event is about. -/
structure Recording where
  tracer : Tracer
  activity : Activity := {}
  result : Except RecordError Nat

namespace Tracer

/-- How deep a call is indented, just after an event about it. -/
def liveLevel (t : Tracer) : EventKind → Nat
  | .enter => t.tree.depth - 1
  | .leave _ => t.tree.depth

/-- The block of lines for an event, just after it. -/
def liveBlock (t : Tracer) (kind : EventKind) (n : Node) : Text :=
  let level := t.liveLevel kind
  let head := List.replicate level ' ' ++ t.options.ink.paint (some kind.tag.2) kind.tag.1 ++ [' ']
  let tail := List.replicate (level + 1) ' '
  Text.unlines ((t.label n t.options.showSource [' ']).mapIdx fun i line =>
    (if i = 0 then head else tail) ++ line)

/-- Writes the block of an event that was just taken, if the live trace is on: the tracer after
that, and what happened. -/
def writeLive (t : Tracer) (kind : EventKind) (n : Node) :
    Except Decimal.LengthError (Tracer × Activity) :=
  if !t.options.showTrace || n.isHidden t.hidden then .ok (t, {})
  else if !n.location.isWritable then .error .longNumber
  else match t.sink.write? (t.liveBlock kind n) with
    | some written => .ok (t, { written })
    | none =>
      let options := { t.options with showTrace := false }
      .ok ({ t with options }, { log := [.liveTraceOff] })

/-- Takes an event. -/
def record (t : Tracer) (e : Event) : Recording :=
  match t.tree.apply e with
  | .error err => { tracer := t, result := .error (.refused err) }
  | .ok (tree, .error err) => { tracer := { t with tree }, result := .error (.unwritten err) }
  | .ok (tree, .ok i) =>
    let moved : List LogRecord :=
      if t.tree.furthest < tree.furthest then [.furthestMoved tree.furthest e.rule] else []
    match writeLive { t with tree } e.kind (tree.node i) with
    | .error err =>
      { tracer := { t with tree }
        activity := { log := moved }
        result := .error (.unwritten err) }
    | .ok (t, activity) =>
      { tracer := t
        activity := { activity with log := moved ++ activity.log }
        result := .ok i }

/-- Takes events one after the other, up to the first error: the tracer after them, and what
happened for each. -/
def recordAll (t : Tracer) : List Event → Except RecordError (Tracer × List Activity)
  | [] => .ok (t, [])
  | e :: es => do
    let r := t.record e
    let _ ← r.result
    let (t, activities) ← r.tracer.recordAll es
    return (t, r.activity :: activities)

/-! ## Chains of tracers -/

/-- Makes a chain of tracers, the youngest first; the oldest is made first. -/
def chainOf : List TracerSetup → Except SetupError (List Tracer)
  | [] => .ok []
  | s :: older => do
    let ancestors ← chainOf older
    return (← ofSetup s) :: ancestors

/-- Takes an event into a chain of tracers, the youngest first: each tracer after it and what
happened there, and the number of the call for the youngest one, or the first error. An empty
chain takes every event. -/
def recordChain : List Tracer → Event → List (Tracer × Activity) × Except RecordError Nat
  | [], _ => ([], .ok 0)
  | t :: ancestors, e =>
    match recordChain ancestors e with
    | (above, .error err) => ((t, {}) :: above, .error err)
    | (above, .ok _) =>
      let r := t.record e
      ((r.tracer, r.activity) :: above, r.result)

end Tracer

end RuleTrace
