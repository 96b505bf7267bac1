import RuleTrace.Pattern.Regex
import RuleTrace.Text.Decimal

/-!
# Lexemes of patterns

The text of a pattern is read one character at a time: `LexState.step` says what a character adds
to the lexemes and which state follows, and `LexState.finish` what the end of the text adds.
Reading is a fold, so the lexemes of two texts in a row are those of the first followed by those
read on from its last state.
-/

namespace RuleTrace

/-- Why a text is no pattern. -/
inductive PatternError where
  | trailingBackslash
  | unknownEscape (c : Char)
  | unclosedSet
  | badRange
  | unknownExtension
  | unclosedComment
  | reversedBounds
  | nothingToRepeat
  | repeatedRepeat
  | unopenedGroup
  | unclosedGroup
deriving DecidableEq, Repr

/-- The message for a text that is no pattern. -/
def PatternError.message : PatternError → Text
  | .trailingBackslash => "Nothing follows the backslash at the end".toList
  | .unknownEscape c => "Unknown escape \\".toList ++ [c]
  | .unclosedSet => "A set has no closing bracket".toList
  | .badRange => "The ends of a range are not characters in order".toList
  | .unknownExtension => "Unknown kind of group".toList
  | .unclosedComment => "A comment has no closing parenthesis".toList
  | .reversedBounds => "The least count of a repeat is above the greatest".toList
  | .nothingToRepeat => "Nothing to repeat".toList
  | .repeatedRepeat => "A repeat of a repeat".toList
  | .unopenedGroup => "A closing parenthesis has no opening one".toList
  | .unclosedGroup => "An opening parenthesis has no closing one".toList

/-- Which matches a repeat prefers: those with more rounds, those with fewer, or those with more
without ever giving a round back. -/
inductive RepeatMode where
  | eager
  | lazy
  | possessive
deriving DecidableEq, Repr

/-- A unit of a pattern. -/
inductive Lexeme where
  | chars (set : CharSet)
  | anchor (a : Anchor)
  | opening (isAtomic : Bool)
  | closing
  | bar
  | times (least : Nat) (most : Option Nat) (mode : RepeatMode)
deriving DecidableEq, Repr

/-- The lexeme of a character that stands for itself. -/
def Lexeme.literal (c : Char) : Lexeme :=
  .chars (.single c)

/-! ## Escapes -/

/-- The category that an escaped letter names, and whether it stands for the complement. -/
def categoryOfEscape? : Char → Option (CharCategory × Bool)
  | 'w' => some (.word, false)
  | 'W' => some (.word, true)
  | 'd' => some (.digit, false)
  | 'D' => some (.digit, true)
  | 's' => some (.blank, false)
  | 'S' => some (.blank, true)
  | _ => none

/-- The condition that an escaped letter names. -/
def anchorOfEscape? : Char → Option Anchor
  | 'A' => some .start
  | 'Z' => some .stop
  | 'b' => some .boundary
  | 'B' => some .nonBoundary
  | _ => none

/-- The control character that an escaped letter names. -/
def controlOfEscape? : Char → Option Char
  | 'a' => some '\x07'
  | 'f' => some '\x0c'
  | 'n' => some '\n'
  | 'r' => some '\r'
  | 't' => some '\t'
  | 'v' => some '\x0b'
  | _ => none

/-- The character that an escape stands for: no ASCII letter or digit stands for itself. -/
def charOfEscape (c : Char) : Except PatternError Char :=
  match controlOfEscape? c with
  | some control => .ok control
  | none => if c.isAlphanum then .error (.unknownEscape c) else .ok c

/-- The lexeme of an escaped character. -/
def Lexeme.ofEscape (c : Char) : Except PatternError Lexeme :=
  match categoryOfEscape? c, anchorOfEscape? c with
  | some (k, negated), _ => .ok (.chars (.ofCategory k negated))
  | none, some a => .ok (.anchor a)
  | none, none => (charOfEscape c).map Lexeme.literal

/-- The member of a set that an escaped character is; `b` is the backspace there. -/
def CharMember.ofEscape (c : Char) : Except PatternError CharMember :=
  match categoryOfEscape? c with
  | some (k, negated) => .ok (.category k negated)
  | none => if c = 'b' then .ok (.single '\x08') else (charOfEscape c).map .single

/-- The range between two members, which have to be single characters in order. -/
def CharMember.to : CharMember → CharMember → Except PatternError CharMember
  | .range a a', .range b b' =>
    if a = a' ∧ b = b' ∧ a.toNat ≤ b.toNat then .ok (.range a b) else .error .badRange
  | _, _ => .error .badRange

/-! ## States -/

/-- Where reading stands inside the brackets of a set. -/
inductive SetPlace where
  /-- After the bracket: a caret negates the set. -/
  | caret
  /-- Before the first member: a closing bracket is a member here. -/
  | first
  /-- Before another member, or the closing bracket. -/
  | next
  /-- After a backslash. -/
  | escape
  /-- After a member, which a dash makes the start of a range. -/
  | member (m : CharMember)
  /-- After a member and a dash. -/
  | dash (m : CharMember)
  /-- After a member, a dash and a backslash. -/
  | dashEscape (m : CharMember)
deriving DecidableEq, Repr

/-- Where reading stands. -/
inductive LexState where
  /-- Between lexemes. -/
  | ground
  /-- After a repeat, whose mode the next character may tell. -/
  | repeated (least : Nat) (most : Option Nat)
  /-- After a backslash. -/
  | escape
  /-- After an opening parenthesis. -/
  | opened
  /-- After an opening parenthesis and a question mark. -/
  | extension
  /-- Inside a comment, which the next closing parenthesis ends. -/
  | comment
  /-- After an opening brace and the digits of bounds. -/
  | bounds (low : Text) (high : Option Text)
  /-- Inside a set. -/
  | set (s : CharSet) (place : SetPlace)
deriving DecidableEq, Repr

/-- What a character leads to: the next state and the lexemes that are complete. -/
abbrev LexStep := Except PatternError (LexState × List Lexeme)

namespace LexState

/-- A character between lexemes. -/
def stepGround (c : Char) : LexState × List Lexeme :=
  match c with
  | '\\' => (.escape, [])
  | '[' => (.set { members := [] } .caret, [])
  | '(' => (.opened, [])
  | ')' => (.ground, [.closing])
  | '|' => (.ground, [.bar])
  | '.' => (.ground, [.chars .inLine])
  | '^' => (.ground, [.anchor .start])
  | '$' => (.ground, [.anchor .lineStop])
  | '*' => (.repeated 0 none, [])
  | '+' => (.repeated 1 none, [])
  | '?' => (.repeated 0 (some 1), [])
  | '{' => (.bounds [] none, [])
  | c => (.ground, [.literal c])

/-- A character between lexemes, after some lexemes that end before it. -/
def stepAfter (ls : List Lexeme) (c : Char) : LexState × List Lexeme :=
  let (state, more) := stepGround c
  (state, ls ++ more)

/-- The characters of an opening brace and digits that are no bounds stand for themselves. -/
def literalBounds (low : Text) (high : Option Text) : List Lexeme :=
  ('{' :: low ++ (high.map (',' :: ·)).getD []).map .literal

/-- After complete bounds. One number alone is both bounds; missing ones are 0 and no limit. -/
def afterBounds (low : Text) : Option Text → LexState
  | none => .repeated (Decimal.ofDigits low) (some (Decimal.ofDigits low))
  | some high =>
    .repeated (Decimal.ofDigits low) (if high.isEmpty then none else some (Decimal.ofDigits high))

/-- A character after an opening brace and digits. -/
def stepBounds (low : Text) (high : Option Text) (c : Char) : LexState × List Lexeme :=
  if c.isDigit then
    match high with
    | none => (.bounds (low ++ [c]) none, [])
    | some high => (.bounds low (some (high ++ [c])), [])
  else if c = ',' ∧ high = none then (.bounds low (some []), [])
  else if c = '}' ∧ ¬(low = [] ∧ high = none) then (afterBounds low high, [])
  else stepAfter (literalBounds low high) c

/-- A set with one more member. -/
def addMember (s : CharSet) (m : CharMember) : CharSet :=
  { s with members := s.members ++ [m] }

/-- A character that starts a member of a set. -/
def stepMember (s : CharSet) (c : Char) : LexState :=
  if c = '\\' then .set s .escape else .set s (.member (.single c))

/-- A character where a set may end. -/
def stepNext (s : CharSet) (c : Char) : LexState × List Lexeme :=
  if c = ']' then (.ground, [.chars s]) else (stepMember s c, [])

/-- A character inside the brackets of a set. -/
def stepSet (s : CharSet) (place : SetPlace) (c : Char) : LexStep :=
  match place with
  | .caret =>
    if c = '^' then .ok (.set { s with negated := true } .first, []) else .ok (stepMember s c, [])
  | .first => .ok (stepMember s c, [])
  | .next => .ok (stepNext s c)
  | .escape => (CharMember.ofEscape c).map fun m => (.set s (.member m), [])
  | .member m => .ok (if c = '-' then (.set s (.dash m), []) else stepNext (addMember s m) c)
  | .dash m =>
    if c = ']' then .ok (.ground, [.chars (addMember (addMember s m) (.single '-'))])
    else if c = '\\' then .ok (.set s (.dashEscape m), [])
    else (m.to (.single c)).map fun m => (.set (addMember s m) .next, [])
  | .dashEscape m => do
    let last ← CharMember.ofEscape c
    (m.to last).map fun m => (.set (addMember s m) .next, [])

/-- A character after a repeat: a question mark makes it lazy, a plus possessive. -/
def stepRepeated (least : Nat) (most : Option Nat) (c : Char) : LexState × List Lexeme :=
  match c with
  | '?' => (.ground, [.times least most .lazy])
  | '+' => (.ground, [.times least most .possessive])
  | c => stepAfter [.times least most .eager] c

/-- A character after an opening parenthesis and a question mark. -/
def stepExtension (c : Char) : LexStep :=
  match c with
  | ':' => .ok (.ground, [.opening false])
  | '>' => .ok (.ground, [.opening true])
  | '#' => .ok (.comment, [])
  | _ => .error .unknownExtension

/-- What a character leads to. -/
def step (state : LexState) (c : Char) : LexStep :=
  match state with
  | .ground => .ok (stepGround c)
  | .repeated least most => .ok (stepRepeated least most c)
  | .escape => (Lexeme.ofEscape c).map fun l => (.ground, [l])
  | .opened => .ok (if c = '?' then (.extension, []) else stepAfter [.opening false] c)
  | .extension => stepExtension c
  | .comment => .ok (if c = ')' then .ground else .comment, [])
  | .bounds low high => .ok (stepBounds low high c)
  | .set s place => stepSet s place c

/-- The lexemes that the end of the text completes. -/
def finish : LexState → Except PatternError (List Lexeme)
  | .ground => .ok []
  | .repeated least most => .ok [.times least most .eager]
  | .escape => .error .trailingBackslash
  | .opened => .ok [.opening false]
  | .extension => .error .unknownExtension
  | .comment => .error .unclosedComment
  | .bounds low high => .ok (literalBounds low high)
  | .set _ _ => .error .unclosedSet

/-- Reads a text on from a state: the state after it and the lexemes complete by then. -/
def read : LexState → Text → LexStep
  | state, [] => .ok (state, [])
  | state, c :: t => do
    let (next, ls) ← state.step c
    let (last, more) ← next.read t
    return (last, ls ++ more)

end LexState

/-- The lexemes of a pattern. -/
def lexemes (t : Text) : Except PatternError (List Lexeme) := do
  let (last, ls) ← LexState.ground.read t
  return ls ++ (← last.finish)

end RuleTrace
