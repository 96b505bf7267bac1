import RuleTrace.Event.Basic
import RuleTrace.Event.PlainValue

/-!
# Events as parsers send them

Parsers send events as records with fields of their own making. `RawEvent.read` turns one into an
event. Its checks come in a fixed order, so that the first fault decides the error: the rule and
the location are there, the kind is known, the location has a start and an end, and each of them
has an offset, a line and a column.
-/

namespace RuleTrace

/-! ## Kinds -/

/-- The kind of an event as it was sent: a proper kind, or a plain value. -/
inductive RawKind where
  | kind (k : EventKind)
  | plain (v : PlainValue)
deriving DecidableEq, Repr

namespace RawKind

/-- A kind as an error message shows it. -/
def quoted : RawKind → Text
  | .kind k => k.name
  | .plain v => v.literal

/-- Whether a kind says nothing, so that the other field for it is looked at. -/
def isBlank : RawKind → Bool
  | .kind _ => false
  | .plain v => v.isBlank

end RawKind

/-- A text without the word that some parsers put in front of a kind. -/
def withoutRuleMark (t : Text) : Text :=
  if "rule.".toList.isPrefixOf t then t.drop "rule.".toList.length else t

/-! ## Locations and events -/

/-- A place with the fields that were sent. -/
structure RawPosition where
  offset : Option Int := none
  line : Option Int := none
  column : Option Int := none
deriving DecidableEq, Repr

/-- A location as it was sent: a proper one, null, or the fields for its start and its end, each
of which may be missing or null. Null stands for everything that has no fields. -/
inductive RawLocation where
  | location (l : Location)
  | null
  | fields (start stop : Option (Option RawPosition))
deriving DecidableEq, Repr

/-- An event as it was sent: as a unit, or as a record of fields with two places for the kind. -/
inductive RawEvent where
  | unit (kind : RawKind) (rule : Text) (location : RawLocation)
  | fields (kind type : Option RawKind) (rule : Option Text) (location : Option RawLocation)
deriving DecidableEq, Repr

/-- Why something sent is no event. -/
inductive EventError where
  /-- A field is not there. -/
  | missingField (name : Text)
  /-- There is no kind of event with this name. -/
  | unknownKind (name : Text)
  /-- A null stands where fields are needed. -/
  | nullRecord
deriving DecidableEq, Repr

/-- The message for something that is no event; a null record has none. -/
def EventError.message? : EventError → Option Text
  | .missingField name => some (Quoted.quote name)
  | .unknownKind name => some (Quoted.quote name ++ " is not a valid EventKind".toList)
  | .nullRecord => none

/-- The value of a field. -/
def field {α : Type} (name : Text) (value : Option α) : Except EventError α :=
  match value with
  | some a => .ok a
  | none => .error (.missingField name)

/-- Reads a place that may be null. -/
def RawPosition.read : Option RawPosition → Except EventError Position
  | none => .error .nullRecord
  | some p => do
    let offset ← field "offset".toList p.offset
    let line ← field "line".toList p.line
    let column ← field "column".toList p.column
    return ⟨offset, line, column⟩

/-- Reads a location. -/
def RawLocation.read : RawLocation → Except EventError Location
  | .location l => .ok l
  | .null => .error .nullRecord
  | .fields start stop => do
    let start ← field "start".toList start
    let stop ← field "end".toList stop
    return ⟨← RawPosition.read start, ← RawPosition.read stop⟩

/-- Reads a kind; a plain value is one by its name. -/
def RawKind.read : RawKind → Except EventError EventKind
  | .kind k => .ok k
  | .plain v =>
    let name := withoutRuleMark v.shown
    match EventKind.ofName? name with
    | some k => .ok k
    | none => .error (.unknownKind name)

/-- The kind of a record: its first field for it, or the second one when the first is missing or
blank. -/
def RawKind.choose (first second : Option RawKind) : RawKind :=
  match first with
  | some k => if k.isBlank then second.getD (.plain .null) else k
  | none => second.getD (.plain .null)

/-- Reads an event. -/
def RawEvent.read : RawEvent → Except EventError Event
  | .unit kind rule location => do
    return ⟨← kind.read, rule, ← location.read⟩
  | .fields kind type rule location => do
    let rule ← field "rule".toList rule
    let location ← field "location".toList location
    return ⟨← (RawKind.choose kind type).read, rule, ← location.read⟩

/-- A proper event, as it is sent. -/
def Event.toRaw (e : Event) : RawEvent :=
  .unit (.kind e.kind) e.rule (.location e.location)

@[simp] theorem RawEvent.read_toRaw (e : Event) : e.toRaw.read = .ok e := rfl

end RuleTrace
