import RuleTrace.BracketList.Parser

/-!
# The list command

Reads the nested list in its argument and prints it. If the source cannot be read, the calls that
lead to the furthest failures are shown; an option asks for all calls.
-/

namespace RuleTrace.BracketList

/-- What a run of the command leaves behind. -/
structure CommandResult where
  code : Nat
  stdout : Text
  stderr : Text
deriving DecidableEq, Repr

/-- Why a run of the command breaks off. -/
inductive CommandError where
  | setup (e : SetupError)
  | length (e : Decimal.LengthError)
  | record (e : RecordError)
deriving DecidableEq, Repr

/-- The message for a run that breaks off. -/
def CommandError.message : CommandError → Text
  | .setup e => e.message
  | .length e => e.message
  | .record e => e.message

/-- The argument that asks for all calls. -/
def traceOption : Text :=
  "--trace".toList

/-- The source that is read when there is no argument. -/
def defaultSource : Text :=
  "[1, [2 3]]".toList

/-- The source that the arguments give. -/
def sourceOf (args : List Text) : Text :=
  ((args.filter (· ≠ traceOption)).head?).getD defaultSource

/-- Runs the command; the flag says whether its error output is a terminal. -/
def run (args : List Text) (isTerminal : Bool) : Except CommandError CommandResult := do
  let source := sourceOf args
  let sink : Sink := { isTerminal }
  let tracer ← (Tracer.ofSetup { source := some source, sink }).mapError CommandError.setup
  let reading ← (read source).mapError CommandError.length
  let events := reading.reports.map (·.event source)
  let (tracer, activities) ← (tracer.recordAll events).mapError CommandError.record
  let live := activities.flatMap (·.written)
  let shown (view : View) : Except CommandError Text := do
    let text ← (tracer.graphText view).1.mapError CommandError.length
    return (sink.write? text).getD []
  let trace ← if traceOption ∈ args then shown .full else .ok []
  match reading.value with
  | some v => return { code := 0, stdout := v.print ++ ['\n'], stderr := live ++ trace }
  | none =>
    let notice := "Unable to parse ".toList ++ Quoted.quote source ++ ['\n']
    return { code := 1, stdout := [], stderr := live ++ trace ++ notice ++ (← shown .failure) }

end RuleTrace.BracketList
