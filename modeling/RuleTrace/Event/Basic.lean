import RuleTrace.Source.Location

/-!
# Events

A parser reports every rule that it tries: an event when it enters the rule, and later one when it
leaves it, with the outcome. Events nest like calls.
-/

namespace RuleTrace

/-- How a rule ended. -/
inductive Outcome where
  | matched
  | failed
deriving DecidableEq, Repr

/-- What happens to a rule. -/
inductive EventKind where
  | enter
  | leave (outcome : Outcome)
deriving DecidableEq, Repr

/-- The name of a kind of event. -/
def EventKind.name : EventKind → Text
  | .enter => "enter".toList
  | .leave .matched => "match".toList
  | .leave .failed => "fail".toList

/-- The kind of event with a name. -/
def EventKind.ofName? (name : Text) : Option EventKind :=
  [.enter, .leave .matched, .leave .failed].find? fun kind => kind.name = name

@[simp] theorem EventKind.ofName?_name (kind : EventKind) : ofName? kind.name = some kind := by
  rcases kind with _ | _ | _ <;> decide

/-- A rule is entered or left at a location of the source. -/
structure Event where
  kind : EventKind
  rule : Text
  location : Location
deriving DecidableEq, Repr

end RuleTrace
