import RuleTrace.Pattern.CharSet
import RuleTrace.Text.Basic

/-!
# Regular expressions

`Regex` is the structure of a pattern. An expression leads from places of a text to other places,
which are numbers from 0, before the first character, to the length of the text.
-/

namespace RuleTrace

/-- A condition on a place of a text. -/
inductive Anchor where
  /-- Before the first character. -/
  | start
  /-- After the last character. -/
  | stop
  /-- After the last character, or before a newline that is the last character. -/
  | lineStop
  /-- Between a word character and one that is none, or at an end of the text next to a word
  character. -/
  | boundary
  /-- At no boundary, in a text that is not empty. -/
  | nonBoundary
deriving DecidableEq, Repr

namespace Anchor

/-- Whether a place lies at a word boundary. -/
def isBoundary (before : Option Char) (after : Text) : Bool :=
  before.any isWordChar != after.head?.any isWordChar

/-- Whether a condition holds between the character before a place and the text after it. -/
def holds (before : Option Char) (after : Text) : Anchor → Bool
  | .start => before.isNone
  | .stop => after.isEmpty
  | .lineStop => after.isEmpty || after == ['\n']
  | .boundary => isBoundary before after
  | .nonBoundary => !isBoundary before after && (before.isSome || !after.isEmpty)

end Anchor

/-- A regular expression. A repetition has a least count, and up to a number of further rounds or
any number of them; a lazy one prefers fewer rounds, any other one more. An atomic expression has
no other match than the one that its body prefers. -/
inductive Regex where
  | empty
  | chars (set : CharSet)
  | anchor (a : Anchor)
  | seq (r s : Regex)
  | alt (r s : Regex)
  | times (r : Regex) (least : Nat) (further : Option Nat) (lazy : Bool)
  | atomic (r : Regex)
deriving DecidableEq, Repr

end RuleTrace
