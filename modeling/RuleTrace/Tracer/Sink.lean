import RuleTrace.Style.Escape
import RuleTrace.Text.Decimal

/-!
# Output

Live traces and graphs are written to sinks. A sink that is no terminal gets text without escape
sequences. A broken sink refuses every text.
-/

namespace RuleTrace

/-- Where text is written. -/
structure Sink where
  isTerminal : Bool
  isBroken : Bool := false
deriving DecidableEq, Repr

/-- The text that a sink receives when a text is written to it, with a newline at its end; nothing
if the sink is broken. -/
def Sink.write? (s : Sink) (t : Text) : Option Text :=
  if s.isBroken then none
  else some ((if s.isTerminal then t else stripEscapes t) ++ ['\n'])

/-- A record for the log. -/
inductive LogRecord where
  /-- A rule failed further into the source than any before it. The offset is one that can be
  written: with a longer one there is an error and no record. -/
  | furthestMoved (offset : Int) (rule : Text)
  /-- The live trace cannot be written and stops. -/
  | liveTraceOff
deriving DecidableEq, Repr

namespace LogRecord

/-- Whether a record is of interest for debugging only. -/
def isDebug : LogRecord → Bool
  | .furthestMoved .. => true
  | .liveTraceOff => false

/-- The name of a record's level. -/
def level (r : LogRecord) : Text :=
  if r.isDebug then "DEBUG".toList else "ERROR".toList

/-- The message of a record. -/
def message : LogRecord → Text
  | .furthestMoved offset rule =>
    "Furthest failure moved to offset ".toList ++ Decimal.ofInt offset ++ " (".toList ++ rule ++
      [')']
  | .liveTraceOff => "Unable to write the live trace, turning it off".toList

end LogRecord

end RuleTrace
