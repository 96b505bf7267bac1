import Mathlib.Data.List.Induction
import RuleTrace.Proofs.Call.Update

/-!
# Runs of a call tree

A session is a call tree with the events that it accepted since it was last empty. `Session.run`
carries out any list of calls on an empty tree; a call that is refused leaves the session as it
is. An event is accepted if it enters a rule or ends the innermost call, also when the log cannot be
told of a failure then.

* `Session.step_cases`: all that one call can do.
* `Session.run_induction`: what holds of the empty session and is kept by an accepted enter event,
  by the end of a pending call and by the notes of a drawing holds after every run.
-/

namespace RuleTrace

/-- What can be done to a tree: events come in, by the method of their kind or by `apply`; the tree
starts anew; a drawing notes the styles of calls. -/
inductive TreeCall where
  | enter (rule : Text) (location : Location)
  | leave (outcome : Outcome) (rule : Text) (location : Location)
  | apply (kind : RawKind) (rule : Text) (location : Location)
  | reset
  | noteStyles (styles : List (Nat × Option Style))
deriving DecidableEq, Repr

/-- An accepted event and the number of the call that it is about. -/
structure Entry where
  kind : RawKind
  rule : Text
  location : Location
  call : Nat
deriving DecidableEq, Repr

/-- A tree and the events accepted since it was last empty. -/
structure Session where
  tree : CallTree
  accepted : List Entry
deriving DecidableEq, Repr

namespace Session

/-- The session before the first call. -/
def empty : Session :=
  ⟨.empty, []⟩

/-- The session after an event that the tree accepted or refused. An event that the log cannot be
told of is about the innermost call. -/
def take (s : Session) (kind : RawKind) (rule : Text) (location : Location) :
    Except CallError (CallTree × Except Decimal.LengthError Nat) → Session
  | .ok (tree, result) =>
    ⟨tree, s.accepted ++ [⟨kind, rule, location, result.toOption.getD s.tree.cursor⟩]⟩
  | .error _ => s

/-- The session after one call. -/
def step (s : Session) : TreeCall → Session
  | .enter rule location =>
    s.take (.kind .enter) rule location (.ok ((s.tree.enter rule location).map id .ok))
  | .leave outcome rule location =>
    s.take (.kind (.leave outcome)) rule location (s.tree.leave outcome rule location)
  | .apply kind rule location => s.take kind rule location (s.tree.applyKind kind rule location)
  | .reset => .empty
  | .noteStyles styles => { s with tree := s.tree.noteStyles styles }

/-- The session after some calls. -/
def run (calls : List TreeCall) : Session :=
  calls.foldl step .empty

/-- The accepted enter events. -/
def enters (s : Session) : List Entry :=
  s.accepted.filter (·.kind = .kind .enter)

/-- The accepted events that ended a call. -/
def ends (s : Session) : List Entry :=
  s.accepted.filter (·.kind ≠ .kind .enter)

/-- The accepted fail events. -/
def failures (s : Session) : List Entry :=
  s.accepted.filter (·.kind = .kind (.leave .failed))

/-! ## What a call can do -/

/-- The session after a rule is entered. -/
def enter (s : Session) (rule : Text) (location : Location) : Session :=
  ⟨(s.tree.enter rule location).1,
    s.accepted ++ [⟨.kind .enter, rule, location, s.tree.nodes.length⟩]⟩

/-- The session after the innermost call ends. -/
def close (s : Session) (outcome : Outcome) (location : Location) : Session :=
  ⟨s.tree.close outcome location,
    s.accepted ++ [⟨.kind (.leave outcome), s.tree.current.rule, location, s.tree.cursor⟩]⟩

section
variable (s : Session) (rule : Text) (outcome : Outcome) (location : Location)

theorem enters_enter : (s.enter rule location).enters =
    s.enters ++ [⟨.kind .enter, rule, location, s.tree.nodes.length⟩] := by
  simp [enters, enter]

theorem ends_enter : (s.enter rule location).ends = s.ends := by
  simp [ends, enter]

theorem failures_enter : (s.enter rule location).failures = s.failures := by
  simp [failures, enter]

theorem enters_close : (s.close outcome location).enters = s.enters := by
  simp [enters, close]

theorem ends_close : (s.close outcome location).ends =
    s.ends ++ [⟨.kind (.leave outcome), s.tree.current.rule, location, s.tree.cursor⟩] := by
  simp [ends, close]

theorem failures_close_matched : (s.close .matched location).failures = s.failures := by
  simp [failures, close]

theorem failures_close_failed : (s.close .failed location).failures =
    s.failures ++ [⟨.kind (.leave .failed), s.tree.current.rule, location, s.tree.cursor⟩] := by
  simp [failures, close]

end

/-- The end of the innermost call is accepted, also when the log cannot be told of it. -/
theorem take_finish (s : Session) (outcome : Outcome) (location : Location) :
    s.take (.kind (.leave outcome)) s.tree.current.rule location
        (.ok (s.tree.finish outcome location)) = s.close outcome location := by
  rw [take, close, CallTree.close]
  rcases s.tree.finish_snd_cases outcome location with h | ⟨-, h⟩ <;> rw [h] <;> rfl

theorem take_leave (s : Session) (outcome : Outcome) (rule : Text) (location : Location) :
    s.take (.kind (.leave outcome)) rule location (s.tree.leave outcome rule location) = s ∨
      s.tree.cursor ≠ 0 ∧
        s.take (.kind (.leave outcome)) rule location (s.tree.leave outcome rule location) =
          s.close outcome location := by
  unfold CallTree.leave
  split
  · exact .inl rfl
  · next hc =>
    split
    · exact .inl rfl
    · next hr =>
      obtain rfl : s.tree.current.rule = rule := by simpa using hr
      exact .inr ⟨hc, s.take_finish outcome location⟩

/-- All that one call can do. -/
theorem step_cases (s : Session) (c : TreeCall) :
    s.step c = s ∨ (c = .reset ∧ s.step c = .empty) ∨
      (∃ styles, s.step c = { s with tree := s.tree.noteStyles styles }) ∨
      (∃ rule location, s.step c = s.enter rule location) ∨
      ∃ outcome location, s.tree.cursor ≠ 0 ∧ s.step c = s.close outcome location := by
  have hleave : ∀ outcome rule location,
      s.step (.leave outcome rule location) = s ∨ s.tree.cursor ≠ 0 ∧
        s.step (.leave outcome rule location) = s.close outcome location := s.take_leave
  cases c with
  | enter rule location => exact .inr (.inr (.inr (.inl ⟨rule, location, rfl⟩)))
  | leave outcome rule location =>
    rcases hleave outcome rule location with h | ⟨hc, h⟩
    · exact .inl h
    · exact .inr (.inr (.inr (.inr ⟨outcome, location, hc, h⟩)))
  | apply kind rule location =>
    match kind with
    | .kind .enter => exact .inr (.inr (.inr (.inl ⟨rule, location, rfl⟩)))
    | .kind (.leave outcome) =>
      rcases hleave outcome rule location with h | ⟨hc, h⟩
      · exact .inl h
      · exact .inr (.inr (.inr (.inr ⟨outcome, location, hc, h⟩)))
    | .plain _ => exact .inl rfl
  | reset => exact .inr (.inl ⟨rfl, rfl⟩)
  | noteStyles styles => exact .inr (.inr (.inl ⟨styles, rfl⟩))

theorem run_concat (calls : List TreeCall) (c : TreeCall) :
    run (calls ++ [c]) = (run calls).step c := by
  simp [run]

/-- Induction over runs. -/
theorem run_induction {P : Session → Prop} (empty : P .empty)
    (noteStyles : ∀ s styles, P s → P { s with tree := s.tree.noteStyles styles })
    (enter : ∀ s rule location, P s → P (s.enter rule location))
    (close : ∀ s outcome location, s.tree.cursor ≠ 0 → P s → P (s.close outcome location))
    (calls : List TreeCall) : P (run calls) := by
  induction calls using List.reverseRecOn with
  | nil => exact empty
  | append_singleton calls c ih =>
    rw [run_concat]
    rcases (run calls).step_cases c with h | ⟨-, h⟩ | ⟨styles, h⟩ | ⟨rule, location, h⟩ |
      ⟨outcome, location, hc, h⟩
    · rw [h]; exact ih
    · rw [h]; exact empty
    · rw [h]; exact noteStyles _ styles ih
    · rw [h]; exact enter _ rule location ih
    · rw [h]; exact close _ outcome location hc ih

end Session

end RuleTrace
