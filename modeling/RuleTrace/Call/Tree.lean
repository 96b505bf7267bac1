import RuleTrace.Call.Node
import RuleTrace.Event.Raw

/-!
# Call trees

The events of a parse build a tree of calls. The cursor is at the innermost call that is pending:
an enter event adds a call below it and moves down, and the event that ends the call moves back
up. An event that does not end the innermost call is refused and changes nothing.

The frontier holds the calls that failed furthest into the source. A call that only repeats what
a member says (`Node.repeats`) is left out. Each failure that is further than any before is told to
the log. An offset that is too long to be written is an error, and it comes when the call has ended
and before the frontier changes.
-/

namespace RuleTrace

/-- Why an event is refused. -/
inductive CallError where
  /-- A rule ends while none is pending. -/
  | nothingPending (outcome : Outcome) (rule : Text)
  /-- A rule ends that is not the innermost pending one. -/
  | otherPending (outcome : Outcome) (rule pending : Text)
  /-- The kind of the event is none. -/
  | unknownKind (kind : RawKind)
deriving DecidableEq, Repr

/-- The message for a refused event. -/
def CallError.message : CallError → Text
  | .nothingPending outcome rule =>
    "Cannot ".toList ++ (EventKind.leave outcome).name ++ " rule ".toList ++ Quoted.quote rule ++
      ": no rule is pending".toList
  | .otherPending outcome rule pending =>
    "Cannot ".toList ++ (EventKind.leave outcome).name ++ " rule ".toList ++ Quoted.quote rule ++
      ": the pending rule is ".toList ++ Quoted.quote pending
  | .unknownKind kind => "Unknown trace event kind ".toList ++ kind.quoted

/-- The calls of a parse by number, the innermost pending one, how many are pending, the furthest
offset of a failure, and the calls that failed there. -/
structure CallTree where
  nodes : List Node
  cursor : Nat
  depth : Nat
  furthest : Int
  frontier : List Nat
deriving DecidableEq, Repr

namespace CallTree

/-- The tree before the first event. -/
def empty : CallTree :=
  { nodes := [.root], cursor := 0, depth := 0, furthest := 0, frontier := [] }

/-- The call with a number; the root for a number that no call has. -/
def node (t : CallTree) (i : Nat) : Node :=
  t.nodes.getD i .root

/-- The innermost pending call. -/
def current (t : CallTree) : Node :=
  t.node t.cursor

/-- The count of calls so far. -/
def callCount (t : CallTree) : Nat :=
  t.nodes.length - 1

/-- The caller of a call, the root's excepted. -/
def caller (t : CallTree) (i : Nat) : Nat :=
  (t.node i).parent.getD 0

/-! ## Pending calls -/

/-- The calls from one up to the root, the root itself left out. Callers have smaller numbers. -/
def chain (t : CallTree) (i : Nat) : List Nat :=
  if i = 0 then []
  else i :: if t.caller i < i then chain t (t.caller i) else []
termination_by i

/-- The pending calls, innermost first. -/
def pending (t : CallTree) : List Nat :=
  t.chain t.cursor

/-! ## Events -/

/-- A rule is entered: the tree after it, and the number of the new call. -/
def enter (t : CallTree) (rule : Text) (location : Location) : CallTree × Nat :=
  let i := t.nodes.length
  let node : Node :=
    { number := i, path := t.current.childPath, rule, location, parent := some t.current.number }
  ({ t with nodes := t.nodes ++ [node], cursor := i, depth := t.depth + 1 }, i)

/-- Takes a failed call into the frontier, if it failed far enough and says something new. The log
is told first of a failure that is further than any before, so its offset must be short enough to
be written. -/
def noteFailure (t : CallTree) (i : Nat) : Except Decimal.LengthError CallTree :=
  let n := t.node i
  let offset := n.location.start.offset
  if t.furthest < offset then
    if Decimal.fits offset then .ok { t with furthest := offset, frontier := [i] }
    else .error .longNumber
  else if offset = t.furthest ∧ ¬t.frontier.any (fun f => n.repeats (t.node f)) then
    .ok { t with frontier := t.frontier ++ [i] }
  else .ok t

/-- The innermost call ends and is listed with its caller. -/
def endCurrent (t : CallTree) (outcome : Outcome) (location : Location) : CallTree :=
  let i := t.cursor
  let parent := t.caller i
  { t with
    nodes := (t.nodes.modify i (·.resolve outcome location)).modify parent (·.addChild outcome i)
    cursor := parent
    depth := t.depth - 1 }

/-- The innermost call ends: the tree after it, and the number of the call. There is no number when
its failure cannot be noted, and then the call has ended all the same. -/
def finish (t : CallTree) (outcome : Outcome) (location : Location) :
    CallTree × Except Decimal.LengthError Nat :=
  let i := t.cursor
  let ended := t.endCurrent outcome location
  match outcome with
  | .matched => (ended, .ok i)
  | .failed =>
    match ended.noteFailure i with
    | .ok noted => (noted, .ok i)
    | .error err => (ended, .error err)

/-- A rule ends: the tree after it, and the number of the call if there is one. -/
def leave (t : CallTree) (outcome : Outcome) (rule : Text) (location : Location) :
    Except CallError (CallTree × Except Decimal.LengthError Nat) :=
  if t.cursor = 0 then .error (.nothingPending outcome rule)
  else if t.current.rule ≠ rule then .error (.otherPending outcome rule t.current.rule)
  else .ok (t.finish outcome location)

/-- Takes an event: the tree after it, and the number of the call it is about if there is one. -/
def apply (t : CallTree) (e : Event) :
    Except CallError (CallTree × Except Decimal.LengthError Nat) :=
  match e.kind with
  | .enter => .ok ((t.enter e.rule e.location).map id .ok)
  | .leave outcome => t.leave outcome e.rule e.location

/-- Takes an event whose kind may be any value; only proper kinds are accepted. -/
def applyKind (t : CallTree) (kind : RawKind) (rule : Text) (location : Location) :
    Except CallError (CallTree × Except Decimal.LengthError Nat) :=
  match kind with
  | .kind k => t.apply ⟨k, rule, location⟩
  | _ => .error (.unknownKind kind)

/-- Notes the styles that calls were drawn in, by number. A later entry replaces an earlier
one. -/
def noteStyles (t : CallTree) (styles : List (Nat × Option Style)) : CallTree :=
  { t with
    nodes := styles.foldl (fun nodes (i, s) => nodes.modify i ({ · with style := s })) t.nodes }

end CallTree

end RuleTrace
