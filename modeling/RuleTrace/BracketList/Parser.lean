import RuleTrace.BracketList.Value
import RuleTrace.Tracer.Live

/-!
# Reading nested lists

A value is a number or a list, a list has values with commas between them in brackets, and blanks
and newlines may stand before every token. Every rule reports where it is entered and how it ends;
a rule that fails is back where it was entered.

The reports are a value of their own: they do not depend on who listens to them.

Numerals have a greatest length. `scan` reads numerals of any length; `read` refuses a source as
soon as a longer numeral is read in it, even one that cannot be read to its end.
-/

namespace RuleTrace

namespace BracketList

/-- The rules of the list language. -/
inductive Rule where
  | start
  | value
  | number
  | list
deriving DecidableEq, Repr

/-- The name of a rule. -/
def Rule.name : Rule → Text
  | .start => "start".toList
  | .value => "value".toList
  | .number => "number".toList
  | .list => "list".toList

/-- What a rule reports: an event between two offsets. -/
structure Report where
  kind : EventKind
  rule : Rule
  start : Nat
  stop : Nat
deriving DecidableEq, Repr

/-- A place in a source: its offset and the text from it on. -/
structure Cursor where
  offset : Nat
  rest : Text
deriving DecidableEq, Repr

/-- What reading did: its reports, and if it succeeded the result and the place after it. -/
structure Run (α : Type) where
  reports : List Report
  result : Option (α × Cursor)
deriving Repr

namespace Run

variable {α β : Type}

/-- Fails without a report. -/
def fail : Run α :=
  ⟨[], none⟩

/-- Succeeds without a report. -/
def done (a : α) (c : Cursor) : Run α :=
  ⟨[], some (a, c)⟩

/-- Goes on after a success. -/
def bind (r : Run α) (next : α → Cursor → Run β) : Run β :=
  match r.result with
  | none => ⟨r.reports, none⟩
  | some (a, c) =>
    let s := next a c
    ⟨r.reports ++ s.reports, s.result⟩

/-- Tries something else after a failure. -/
def orElse (r : Run α) (other : Unit → Run α) : Run α :=
  match r.result with
  | some _ => r
  | none =>
    let s := other ()
    ⟨r.reports ++ s.reports, s.result⟩

end Run

/-! ## Tokens -/

/-- Whether a character may stand before every token. -/
def isBlank (c : Char) : Bool :=
  c == ' ' || c == '\n'

namespace Cursor

/-- The place a number of characters further. -/
def advance (c : Cursor) (n : Nat) : Cursor :=
  ⟨c.offset + n, c.rest.drop n⟩

/-- The place after the blanks that come next. -/
def skipBlanks (c : Cursor) : Cursor :=
  c.advance (c.rest.takeWhile isBlank).length

/-- The place after a character, if it comes next. -/
def char? (c : Cursor) (expected : Char) : Option Cursor :=
  let c := c.skipBlanks
  if c.rest.head? = some expected then some (c.advance 1) else none

/-- The digits that come next, if there are any, and the place after them. -/
def digits? (c : Cursor) : Option (Nat × Cursor) :=
  match c.rest.takeWhile Char.isDigit with
  | [] => none
  | ds => some (Decimal.ofDigits ds, c.advance ds.length)

/-- The integer that comes next, and the place after it. -/
def int? (c : Cursor) : Option (Int × Cursor) :=
  let c := c.skipBlanks
  if c.rest.head? = some '-' then
    (c.advance 1).digits?.map fun (n, c) => (-(n : Int), c)
  else c.digits?.map fun (n, c) => ((n : Int), c)

end Cursor

/-! ## Rules -/

/-- Reads by a rule, with a report before and after. -/
def called {α : Type} (rule : Rule) (c : Cursor) (body : Cursor → Run α) : Run α :=
  let r := body c
  let last : Report :=
    match r.result with
    | some (_, after) => ⟨.leave .matched, rule, c.offset, after.offset⟩
    | none => ⟨.leave .failed, rule, c.offset, c.offset⟩
  ⟨⟨.enter, rule, c.offset, c.offset⟩ :: r.reports ++ [last], r.result⟩

/-- Reads a number. -/
def number (c : Cursor) : Run Value :=
  called .number c fun c =>
    match c.int? with
    | some (i, c) => .done (.int i) c
    | none => .fail

/-- Reads the items after the first one, each after a comma. Every item takes up text, so the
length of the text bounds their count. -/
def moreItems (item : Cursor → Run Value) : Nat → Cursor → Run (List Value)
  | 0, _ => .fail
  | n + 1, c =>
    match c.char? ',' with
    | none => .done [] c
    | some c =>
      (item c).bind fun v c => (moreItems item n c).bind fun vs c => .done (v :: vs) c

/-- Reads the items of a list, of which there may be none. -/
def items (item : Cursor → Run Value) (c : Cursor) : Run (List Value) :=
  let first := item c
  match first.result with
  | none => ⟨first.reports, some ([], c)⟩
  | some _ =>
    first.bind fun v c =>
      (moreItems item (c.rest.length + 1) c).bind fun vs c => .done (v :: vs) c

/-- Reads a list. -/
def list (item : Cursor → Run Value) (c : Cursor) : Run Value :=
  called .list c fun c =>
    match c.char? '[' with
    | none => .fail
    | some c =>
      (items item c).bind fun vs c =>
        match c.char? ']' with
        | none => .fail
        | some c => .done (.list vs) c

/-- Reads a value with lists nested less deep than a bound. The limit on nested calls that a runtime
sets, by default one that about 165 lists in each other reach, is not modelled: `value` takes a bound
that its text does not reach. -/
def valueWithin : Nat → Cursor → Run Value
  | 0, _ => .fail
  | n + 1, c => called .value c fun c => (number c).orElse fun _ => list (valueWithin n) c

/-- Reads a value. Every list in a list takes up text, so the length of the text bounds the
nesting. -/
def value (c : Cursor) : Run Value :=
  valueWithin (c.rest.length + 1) c

/-- What reading a whole source came to. -/
structure Reading where
  /-- What the rules reported. -/
  reports : List Report
  /-- The value, if the source is one value and nothing else. -/
  value : Option Value
  /-- Where reading stopped. -/
  position : Nat
deriving Repr

/-- Reads a source, with numerals of any length. -/
def scan (source : Text) : Reading :=
  let first : Cursor := ⟨0, source⟩
  let r := called .start first value
  match r.result with
  | some (v, c) =>
    let c := c.skipBlanks
    { reports := r.reports, value := if c.rest.isEmpty then some v else none, position := c.offset }
  | none => { reports := r.reports, value := none, position := first.skipBlanks.offset }

/-! ## The length of numerals -/

/-- The count of digits that a report says were read as a numeral, leading zeros included; none
for reports about anything else. -/
def Report.digitCount (source : Text) (r : Report) : Nat :=
  if r.kind = .leave .matched ∧ r.rule = .number then
    ((source.drop r.start).take (r.stop - r.start)).countP Char.isDigit
  else 0

/-- Reads a source. The first numeral with too many digits decides the error. -/
def read (source : Text) : Except Decimal.LengthError Reading :=
  let reading := scan source
  match (reading.reports.map (·.digitCount source)).find? (Decimal.maxDigits < ·) with
  | some digits => .error (.longNumeral digits)
  | none => .ok reading

/-! ## Tracing -/

/-- A report as an event in a source. -/
def Report.event (source : Text) (r : Report) : Event :=
  ⟨r.kind, r.rule.name, locate source r.start r.stop⟩

end BracketList

end RuleTrace
