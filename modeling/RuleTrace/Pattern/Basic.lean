import RuleTrace.Pattern.Lexeme
import RuleTrace.Pattern.Search

/-!
# Patterns

The lexemes of a pattern are put together on a stack of open groups. A repeat applies to the one
piece before it, which has to be there and to be neither a condition nor a repeat itself.

A component pattern is searched in rule paths: it has to match whole components of them, where a
component lies between slashes or the ends of the path.
-/

namespace RuleTrace

/-- What a repeat may do to a piece of a pattern. -/
inductive PieceKind where
  | plain
  | anchor
  | repeated
deriving DecidableEq, Repr

/-- A piece of a sequence. -/
structure Piece where
  regex : Regex
  kind : PieceKind
deriving DecidableEq, Repr

/-- An open group: its finished alternatives, and the pieces of the current one, last first. -/
structure Group where
  isAtomic : Bool := false
  earlier : Option Regex := none
  pieces : List Piece := []
deriving DecidableEq, Repr

namespace Group

/-- The current alternative. -/
def sequence (g : Group) : Regex :=
  g.pieces.foldl (fun r p => .seq p.regex r) .empty

/-- The alternatives. -/
def alternatives (g : Group) : Regex :=
  match g.earlier with
  | none => g.sequence
  | some r => .alt r g.sequence

/-- The whole group. -/
def regex (g : Group) : Regex :=
  if g.isAtomic then .atomic g.alternatives else g.alternatives

/-- A group with one more alternative to come. -/
def split (g : Group) : Group :=
  { g with earlier := some g.alternatives, pieces := [] }

/-- A group with one more piece. -/
def push (g : Group) (kind : PieceKind) (r : Regex) : Group :=
  { g with pieces := ⟨r, kind⟩ :: g.pieces }

/-- A repeated expression. A possessive repeat keeps what each round prefers, and what all of them
come to. -/
def repeated (r : Regex) (least : Nat) (further : Option Nat) : RepeatMode → Regex
  | .eager => .times r least further false
  | .lazy => .times r least further true
  | .possessive => .atomic (.times (.atomic r) least further false)

/-- A group whose last piece is repeated. -/
def repeatLast (g : Group) (least : Nat) (most : Option Nat) (mode : RepeatMode) :
    Except PatternError Group :=
  match g.pieces with
  | [] => .error .nothingToRepeat
  | p :: ps =>
    match p.kind with
    | .plain =>
      let r := repeated p.regex least (most.map (· - least)) mode
      .ok { g with pieces := ⟨r, .repeated⟩ :: ps }
    | .anchor => .error .nothingToRepeat
    | .repeated => .error .repeatedRepeat

end Group

/-- The open groups, innermost first. The last one is the pattern itself. -/
structure Groups where
  inner : Group := {}
  outer : List Group := []
deriving DecidableEq, Repr

namespace Groups

/-- The open groups after one more lexeme. -/
def add (gs : Groups) : Lexeme → Except PatternError Groups
  | .chars set => .ok { gs with inner := gs.inner.push .plain (.chars set) }
  | .anchor a => .ok { gs with inner := gs.inner.push .anchor (.anchor a) }
  | .opening isAtomic => .ok ⟨{ isAtomic }, gs.inner :: gs.outer⟩
  | .closing =>
    match gs.outer with
    | [] => .error .unopenedGroup
    | g :: outer => .ok ⟨g.push .plain gs.inner.regex, outer⟩
  | .bar => .ok { gs with inner := gs.inner.split }
  | .times least most mode =>
    if most.any (· < least) then .error .reversedBounds
    else (gs.inner.repeatLast least most mode).map fun g => { gs with inner := g }

/-- The open groups after some lexemes. -/
def addAll : Groups → List Lexeme → Except PatternError Groups
  | gs, [] => .ok gs
  | gs, l :: ls => do (← gs.add l).addAll ls

/-- The expression of a pattern, once every group is closed. -/
def regex (gs : Groups) : Except PatternError Regex :=
  if gs.outer.isEmpty then .ok gs.inner.regex else .error .unclosedGroup

end Groups

/-- The expression that lexemes make up. -/
def Regex.ofLexemes (ls : List Lexeme) : Except PatternError Regex := do
  (← Groups.addAll {} ls).regex

/-- A pattern: its text and what the text means. -/
structure Pattern where
  text : Text
  regex : Regex
deriving DecidableEq, Repr

namespace Pattern

/-- Reads the text of a pattern. -/
def ofText (t : Text) : Except PatternError Pattern := do
  return ⟨t, ← Regex.ofLexemes (← lexemes t)⟩

/-- The text of a component pattern with the boundaries of components around it. -/
def wrapComponent (t : Text) : Text :=
  "(^|/)".toList ++ t ++ "(/|$)".toList

/-- Reads a component pattern. -/
def ofComponent (t : Text) : Except PatternError Pattern :=
  ofText (wrapComponent t)

/-- Whether a path has a match. -/
def occursIn (p : Pattern) (path : Text) : Bool :=
  p.regex.search path

end Pattern

/-- What to hide: the paths that a component pattern matches, or those of a ready pattern. -/
inductive PathFilter where
  | component (t : Text)
  | ready (p : Pattern)
deriving DecidableEq, Repr

/-- The pattern that a filter stands for. -/
def PathFilter.pattern : PathFilter → Except PatternError Pattern
  | .component t => Pattern.ofComponent t
  | .ready p => .ok p

end RuleTrace
