import RuleTrace.Text.Decimal
import RuleTrace.Text.Quoted

/-!
# Source texts

A source is read as lines. Tabs count as one space, and a carriage return, alone or before a
newline, ends a line like a newline does. Other line boundaries would throw off line numbers, so
a text that has one is refused.
-/

namespace RuleTrace

namespace Text

/-- A text with a space for every tab. -/
def expandTabs (t : Text) : Text :=
  t.map fun c => if c = '\t' then ' ' else c

/-- A text without the carriage returns that stand before a newline. -/
def joinLineEnds : Text → Text
  | [] => []
  | c :: t =>
    if c = '\r' ∧ t.head? = some '\n' then joinLineEnds t else c :: joinLineEnds t

/-- A text with a newline for every carriage return. -/
def replaceReturns (t : Text) : Text :=
  t.map fun c => if c = '\r' then '\n' else c

/-- A text in which newlines alone end lines and no tab is left. -/
def normalize (t : Text) : Text :=
  replaceReturns (joinLineEnds (expandTabs t))

/-- Whether a character is a line boundary that no source may have: vertical tab, form feed, the
file, group and record separators, next line, and the line and paragraph separators. -/
def isUnsupportedBreak (c : Char) : Bool :=
  c ∈ ['\x0b', '\x0c', '\x1c', '\x1d', '\x1e', '\u0085', '\u2028', '\u2029']

/-- The first unsupported line boundary of a text and its offset. -/
def unsupportedBreak? : Text → Option (Char × Nat)
  | [] => none
  | c :: t =>
    if isUnsupportedBreak c then some (c, 0)
    else (unsupportedBreak? t).map fun (b, offset) => (b, offset + 1)

end Text

/-- Why a text is no source. -/
inductive SourceError where
  /-- There is no text. -/
  | missing
  /-- The text has an unsupported line boundary at an offset of its normal form. -/
  | unsupportedBreak (boundary : Char) (offset : Nat)
deriving DecidableEq, Repr

/-- The message for an invalid source. -/
def SourceError.message : SourceError → Text
  | .missing => "Missing source argument".toList
  | .unsupportedBreak boundary offset =>
    "Unsupported line break ".toList ++ Quoted.quote [boundary] ++ " at offset ".toList ++
      Decimal.digits offset ++ ", lines must end with '\\n'".toList

/-- A source text, as its lines. -/
structure Source where
  lines : List Text
deriving DecidableEq, Repr

namespace Source

/-- Reads a text as a source. -/
def ofText (t : Text) : Except SourceError Source :=
  match t.normalize.unsupportedBreak? with
  | some (boundary, offset) => .error (.unsupportedBreak boundary offset)
  | none => .ok ⟨t.normalize.lines⟩

/-- Reads a text that may be missing. -/
def ofText? : Option Text → Except SourceError Source
  | none => .error .missing
  | some t => ofText t

/-- The line with an index counted from zero, empty outside the source. -/
def line (s : Source) (i : Int) : Text :=
  if i < 0 then [] else s.lines.getD i.toNat []

end Source

end RuleTrace
