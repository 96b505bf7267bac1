import RuleTrace.Pattern.Regex

/-!
# Preferred matches

Of the matches that start at a place some are preferred to others: those of the earlier
alternative, and those with more rounds of a repetition, or with fewer rounds of a lazy one.
`Regex.firstEnd` goes through the ends of the matches in this order until one of them leads to a
goal.
-/

namespace RuleTrace

/-- A place of a text, with the character before it and the text after it. -/
structure Spot where
  place : Nat
  before : Option Char
  after : Text
deriving DecidableEq, Repr

/-- The spot at a place of a text. -/
def Spot.of (t : Text) (i : Nat) : Spot :=
  ⟨i, (t.take i).getLast?, t.drop i⟩

/-- The spots of a text, given the place of the first one and what is before it. -/
def Spot.all (i : Nat) (before : Option Char) : Text → List Spot
  | [] => [⟨i, before, []⟩]
  | c :: t => ⟨i, before, c :: t⟩ :: all (i + 1) (some c) t

@[simp]
theorem Spot.place_of (t : Text) (i : Nat) : (Spot.of t i).place = i :=
  rfl

/-- What spots lead to, if to anything. -/
abbrev Goal := Spot → Option Spot

namespace Goal

/-- A number of rounds of a body before a goal. -/
def due (body : Goal → Goal) : Nat → Goal → Goal
  | 0, goal, s => goal s
  | n + 1, goal, s => body (due body n goal) s

/-- Up to a number of rounds of a body before a goal. A round that leads nowhere is the last
one. -/
def further (body : Goal → Goal) (lazy : Bool) : Nat → Goal → Goal
  | 0, goal, s => goal s
  | n + 1, goal, s =>
    let round : Goal :=
      body fun next => if next.place = s.place then goal s else further body lazy n goal next
    if lazy then goal s <|> round s else round s <|> goal s

end Goal

namespace Regex

/-- Matches an expression before a goal, in a text of a given length. A repetition without a limit
has no use for more rounds than the text has characters. -/
def firstEnd (size : Nat) : Regex → Goal → Goal
  | .empty, goal, s => goal s
  | .chars set, goal, s =>
    match s.after with
    | [] => none
    | c :: after => if set.contains c then goal ⟨s.place + 1, some c, after⟩ else none
  | .anchor a, goal, s => if a.holds s.before s.after then goal s else none
  | .seq q r, goal, s => q.firstEnd size (r.firstEnd size goal) s
  | .alt q r, goal, s => q.firstEnd size goal s <|> r.firstEnd size goal s
  | .times r least further lazy, goal, s =>
    let body := r.firstEnd size
    Goal.due body least (Goal.further body lazy (further.getD size) goal) s
  | .atomic r, goal, s => (r.firstEnd size some s).bind goal

/-- Where the match ends that an expression prefers of those that start at a spot. -/
def preferredEnd? (size : Nat) (r : Regex) (s : Spot) : Option Nat :=
  (r.firstEnd size some s).map (·.place)

end Regex

end RuleTrace
