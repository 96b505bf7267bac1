import RuleTrace.Proofs.Call.Frontier

/-!
# Call trees as stacks of rules

Seen from its callers a call tree is a stack: a rule is put on top when it is entered and taken off
when it ends, and only the rule on top can end (`RuleStack.call`). An event that is refused leaves
no trace. Since `CallTree` builds the tree after an event as one value, this is only worth saying
about the statements that do it one after the other (`TreeM.call`), where an error takes back
nothing of what came before it. So the error of a failure that the log cannot be told of comes when
its rule is off the stack (`TreeM.updateFrontier`).

* `TreeM.run_call`: the statements do what the tree does, and the refusal of an event comes before
  every change.
* `CallTree.rules_take`: a call does to the rules of the pending calls what it does to the stack.
* `TreeM.stack_run`: every run of calls is a run of the stack, and is not changed by leaving out the
  calls that were refused.
-/

namespace RuleTrace

/-! ## The stack -/

/-- What a caller sees of an error: a rule ends out of turn, or there is something wrong with a
value. -/
inductive Refusal where
  | unbalanced (message : Text)
  | badValue (message : Text)
deriving DecidableEq, Repr

/-- What a caller sees of a refused event. -/
def CallError.refusal (err : CallError) : Refusal :=
  match err with
  | .nothingPending .. | .otherPending .. => .unbalanced err.message
  | .unknownKind _ => .badValue err.message

/-- Whether the log can be told of what a call does. -/
def TreeCall.isLoggable : TreeCall → Bool
  | .leave .failed _ location | .apply (.kind (.leave .failed)) _ location => location.isLoggable
  | _ => true

/-- The rules that were entered and did not end, the last one first. -/
abbrev RuleStack := List Text

namespace RuleStack

/-- The message for a rule that ends while it is not on top. -/
def complaint (stack : RuleStack) (outcome : Outcome) (rule : Text) : Text :=
  "Cannot ".toList ++ (EventKind.leave outcome).name ++ " rule ".toList ++ Quoted.quote rule ++
    match stack with
    | [] => ": no rule is pending".toList
    | top :: _ => ": the pending rule is ".toList ++ Quoted.quote top

/-- The stack after a rule ends: it must be on top. -/
def leave (stack : RuleStack) (outcome : Outcome) (rule : Text) : Except Refusal RuleStack :=
  if stack.head? = some rule then .ok stack.tail
  else .error (.unbalanced (stack.complaint outcome rule))

/-- The stack after a call, or why the call is refused. -/
def call (stack : RuleStack) : TreeCall → Except Refusal RuleStack
  | .enter rule _ | .apply (.kind .enter) rule _ => .ok (rule :: stack)
  | .leave outcome rule _ | .apply (.kind (.leave outcome)) rule _ => stack.leave outcome rule
  | .apply (.plain value) _ _ =>
    .error (.badValue ("Unknown trace event kind ".toList ++ value.literal))
  | .reset => .ok []
  | .noteStyles _ => .ok stack

/-- What a call comes to: it is refused, or it changes the stack and may still be an error. -/
def result (stack : RuleStack) (c : TreeCall) : Except Refusal Unit :=
  match stack.call c with
  | .error err => .error err
  | .ok _ =>
    if c.isLoggable then .ok () else .error (.badValue (Decimal.LengthError.message .longNumber))

/-- What each call comes to, and the stack after all of them. -/
def runAll (stack : RuleStack) : List TreeCall → List (Except Refusal Unit) × RuleStack
  | [] => ([], stack)
  | c :: calls =>
    let (results, last) := runAll ((stack.call c).toOption.getD stack) calls
    (stack.result c :: results, last)

end RuleStack

/-! ## The statements of a call -/

/-- How statements end in an error. -/
inductive StatementError where
  /-- The event is refused. -/
  | refused (err : CallError)
  /-- The log cannot be told of a failure. -/
  | unlogged (err : Decimal.LengthError)
deriving DecidableEq, Repr

/-- What a caller sees of an error. -/
def StatementError.refusal : StatementError → Refusal
  | .refused err => err.refusal
  | .unlogged err => .badValue err.message

/-- Statements on a call tree, one after the other. An error ends them and takes back nothing. -/
abbrev TreeM := EStateM StatementError CallTree

namespace TreeM

/-- Changes the call with a number. -/
def modifyNode (i : Nat) (f : Node → Node) : TreeM Unit :=
  modify fun t => { t with nodes := t.nodes.modify i f }

/-- Enters a rule. -/
def enter (rule : Text) (location : Location) : TreeM Nat := do
  let t ← get
  let node : Node :=
    { number := t.nodes.length, path := t.current.childPath, rule, location
      parent := some t.current.number }
  modify fun t => { t with nodes := t.nodes ++ [node] }
  modify fun t => { t with cursor := node.number }
  modify fun t => { t with depth := t.depth + 1 }
  return node.number

/-- Ends the innermost call, if it is one of the rule. -/
def resolve (outcome : Outcome) (rule : Text) (location : Location) : TreeM Nat := do
  let t ← get
  let i := t.cursor
  if i = 0 then
    throw (.refused (.nothingPending outcome rule))
  if t.current.rule ≠ rule then
    throw (.refused (.otherPending outcome rule t.current.rule))
  modifyNode i fun n => { n with state := .resolved outcome }
  modifyNode i fun n => { n with location }
  modify fun t => { t with cursor := t.caller i }
  modify fun t => { t with depth := t.depth - 1 }
  return i

/-- Takes a failed call into the frontier. The log is told first of one that is further than any
before. -/
def updateFrontier (i : Nat) : TreeM Unit := do
  let t ← get
  let n := t.node i
  let offset := n.location.start.offset
  if t.furthest < offset then
    if !Decimal.fits offset then
      throw (.unlogged .longNumber)
    modify fun t => { t with furthest := offset }
    modify fun t => { t with frontier := [i] }
  else if offset = t.furthest then
    if t.frontier.any fun f => n.repeats (t.node f) then
      return
    modify fun t => { t with frontier := t.frontier ++ [i] }

/-- Ends a rule, and lists its call with the caller. -/
def leave (outcome : Outcome) (rule : Text) (location : Location) : TreeM Nat := do
  let i ← resolve outcome rule location
  let t ← get
  modifyNode (t.caller i) (·.addChild outcome i)
  if outcome = .failed then
    updateFrontier i
  return i

/-- Takes an event, by the method of its kind. -/
def apply (kind : RawKind) (rule : Text) (location : Location) : TreeM Nat :=
  match kind with
  | .kind .enter => enter rule location
  | .kind (.leave outcome) => leave outcome rule location
  | _ => throw (.refused (.unknownKind kind))

/-- Starts anew. -/
def reset : TreeM Unit := do
  modify fun t => { t with nodes := [.root] }
  modify fun t => { t with cursor := 0 }
  modify fun t => { t with depth := 0 }
  modify fun t => { t with furthest := 0 }
  modify fun t => { t with frontier := [] }

/-- Does a call: the number of the call of a rule that it is about, if it is about one. -/
def call : TreeCall → TreeM (Option Nat)
  | .enter rule location => some <$> enter rule location
  | .leave outcome rule location => some <$> leave outcome rule location
  | .apply kind rule location => some <$> apply kind rule location
  | .reset => (fun _ => none) <$> reset
  | .noteStyles styles => (fun _ => none) <$> (modify (·.noteStyles styles) : TreeM Unit)

/-- What each call of a list comes to, and the tree after all of them. After an error the calls go
on with the tree as the error left it. -/
def runAll (t : CallTree) : List TreeCall → List (Except StatementError (Option Nat)) × CallTree
  | [] => ([], t)
  | c :: calls =>
    match (call c).run t with
    | .ok i after => let (results, last) := runAll after calls; (.ok i :: results, last)
    | .error err after => let (results, last) := runAll after calls; (.error err :: results, last)

end TreeM

/-! ## What the statements do -/

namespace TreeM

/-- How statements end: with a new tree and a value or the error of the log, or refused and with the
tree as it was. -/
def outcomeOf {α : Type} (t : CallTree) :
    Except CallError (CallTree × Except Decimal.LengthError α) →
      EStateM.Result StatementError CallTree α
  | .ok (after, .ok a) => .ok a after
  | .ok (after, .error err) => .error (.unlogged err) after
  | .error err => .error (.refused err) t

section
variable (t : CallTree)

theorem run_enter (rule : Text) (location : Location) :
    (enter rule location).run t = outcomeOf t (.ok ((t.enter rule location).map id .ok)) := rfl

theorem run_updateFrontier (i : Nat) :
    (updateFrontier i).run t =
      match t.noteFailure i with
      | .ok noted => .ok () noted
      | .error err => .error (.unlogged err) t := by
  unfold updateFrontier CallTree.noteFailure
  change EStateM.run (if _ then _ else _) t = _
  by_cases hfurther : t.furthest < (t.node i).location.start.offset
  · rw [if_pos hfurther, if_pos hfurther]
    cases hfits : Decimal.fits (t.node i).location.start.offset <;> simp
  · rw [if_neg hfurther, if_neg hfurther]
    by_cases hsame : (t.node i).location.start.offset = t.furthest
    · rw [if_pos hsame]
      cases hany : t.frontier.any fun f => (t.node i).repeats (t.node f) <;> simp [hsame]
    · rw [if_neg hsame, if_neg fun h => hsame h.1]
      rfl

/-- The caller of a call is set for good. -/
theorem caller_modify (i j : Nat) {f : Node → Node} (hf : ∀ n, (f n).parent = n.parent) :
    CallTree.caller { t with nodes := t.nodes.modify i f } j = t.caller j := by
  rcases Nat.lt_or_ge j t.nodes.length with h | h
  · rw [CallTree.caller, CallTree.node, CallTree.getD_modify _ _ _ _ _ h]
    split
    · rw [hf]
      rfl
    · rfl
  · rw [CallTree.caller, CallTree.caller, CallTree.node_of_le h,
      CallTree.node_of_le (by simpa using h)]

/-- The tree in which the innermost call ended and is not listed with its caller yet. -/
def resolved (outcome : Outcome) (location : Location) : CallTree :=
  { t with
    nodes := t.nodes.modify t.cursor (·.resolve outcome location)
    cursor := t.caller t.cursor
    depth := t.depth - 1 }

theorem run_resolve (outcome : Outcome) (rule : Text) (location : Location) :
    (resolve outcome rule location).run t =
      if t.cursor = 0 then .error (.refused (.nothingPending outcome rule)) t
      else if t.current.rule ≠ rule then
        .error (.refused (.otherPending outcome rule t.current.rule)) t
      else .ok t.cursor (resolved t outcome location) := by
  unfold resolve
  by_cases hc : t.cursor = 0
  · simp [hc]
  · by_cases hr : t.current.rule = rule
    · have hnodes : (t.nodes.modify t.cursor fun n => { n with state := .resolved outcome }).modify
          t.cursor (fun n => { n with location }) =
          t.nodes.modify t.cursor (·.resolve outcome location) := by
        rw [List.modify_modify_eq]
        rfl
      have hparent := caller_modify t t.cursor t.cursor (f := (·.resolve outcome location))
        fun _ => rfl
      simp only [modifyNode, EStateM.run_bind, EStateM.run_get, EStateM.run_modify, hc, hr, hnodes,
        hparent, ne_eq, not_true_eq_false, if_false]
      rfl
    · simp [hc, hr]

theorem run_leave (outcome : Outcome) (rule : Text) (location : Location) :
    (leave outcome rule location).run t = outcomeOf t (t.leave outcome rule location) := by
  unfold leave
  by_cases hc : t.cursor = 0
  · simp [run_resolve, CallTree.leave, hc, outcomeOf]
  · by_cases hr : t.current.rule = rule
    · have hparent : (resolved t outcome location).caller t.cursor = t.caller t.cursor :=
        caller_modify t t.cursor t.cursor (f := (·.resolve outcome location)) fun _ => rfl
      have hended : { resolved t outcome location with
          nodes := (resolved t outcome location).nodes.modify (t.caller t.cursor)
            (·.addChild outcome t.cursor) } = t.endCurrent outcome location := rfl
      rw [CallTree.leave, if_neg hc, if_neg (not_not_intro hr)]
      simp only [EStateM.run_bind, run_resolve, hc, hr, ne_eq, not_true_eq_false, if_false,
        EStateM.run_get, modifyNode, EStateM.run_modify, hparent, hended]
      cases outcome with
      | matched => rfl
      | failed =>
        rw [if_pos rfl]
        simp only [EStateM.run_bind, run_updateFrontier, CallTree.finish]
        cases (t.endCurrent .failed location).noteFailure t.cursor <;> rfl
    · simp [run_resolve, CallTree.leave, hc, hr, outcomeOf]

theorem run_apply (kind : RawKind) (rule : Text) (location : Location) :
    (apply kind rule location).run t = outcomeOf t (t.applyKind kind rule location) := by
  match kind with
  | .kind .enter => exact run_enter t rule location
  | .kind (.leave outcome) => exact run_leave t outcome rule location
  | .plain _ => rfl

end

end TreeM

namespace CallTree

/-- The tree after a call, and the number of the call of a rule that it is about. -/
def take (t : CallTree) :
    TreeCall → Except CallError (CallTree × Except Decimal.LengthError (Option Nat))
  | .enter rule location => .ok ((t.enter rule location).map id (.ok ∘ some))
  | .leave outcome rule location =>
    (t.leave outcome rule location).map (·.map id (·.map some))
  | .apply kind rule location => (t.applyKind kind rule location).map (·.map id (·.map some))
  | .reset => .ok (.empty, .ok none)
  | .noteStyles styles => .ok (t.noteStyles styles, .ok none)

end CallTree

/-- The statements of a call do what the tree does, and the refusal of an event comes before every
change. -/
theorem TreeM.run_call (t : CallTree) (c : TreeCall) :
    (call c).run t = outcomeOf t (t.take c) := by
  have hsome : ∀ (x : TreeM Nat) (r : Except CallError (CallTree × Except Decimal.LengthError Nat)),
      x.run t = outcomeOf t r →
        (some <$> x).run t = outcomeOf t (r.map (·.map id (·.map some))) := by
    intro x r h
    rw [map_eq_pure_bind, EStateM.run_bind, h]
    rcases r with err | ⟨after, err | i⟩ <;> rfl
  cases c with
  | enter rule location => exact hsome _ _ (run_enter t rule location)
  | leave outcome rule location => exact hsome _ _ (run_leave t outcome rule location)
  | apply kind rule location => exact hsome _ _ (run_apply t kind rule location)
  | reset => rfl
  | noteStyles styles => rfl

theorem Session.tree_step (s : Session) (c : TreeCall) :
    (s.step c).tree = match s.tree.take c with
      | .ok (after, _) => after
      | .error _ => s.tree := by
  have htake : ∀ kind rule location
      (r : Except CallError (CallTree × Except Decimal.LengthError Nat)),
      (s.take kind rule location r).tree =
        match r.map (·.map id (·.map some)) with
        | .ok (after, _) => after
        | .error _ => s.tree := by
    intro kind rule location r
    cases r <;> rfl
  cases c with
  | enter rule location => rfl
  | leave outcome rule location => exact htake _ _ _ _
  | apply kind rule location => exact htake _ _ _ _
  | reset => rfl
  | noteStyles styles => rfl

/-! ## The stack of a tree -/

namespace CallTree

/-- The rules of the pending calls, innermost first. -/
def rules (t : CallTree) : RuleStack :=
  t.pending.map fun i => (t.node i).rule

section
variable {t : CallTree}

theorem rules_of_cursor_eq_zero (h : t.cursor = 0) : t.rules = [] := by
  rw [rules, pending, h, chain_zero]
  rfl

theorem rules_noteStyles (t : CallTree) (styles : List (Nat × Option Style)) :
    (t.noteStyles styles).rules = t.rules := by
  simp [rules, pending]

theorem rules_enter (h : t.WellFormed) (rule : Text) (location : Location) :
    (t.enter rule location).1.rules = rule :: t.rules := by
  have hold : ∀ i ∈ t.pending, ((t.enter rule location).1.node i).rule = (t.node i).rule := by
    intro i hi
    have hle := (pos_le_of_mem_chain hi).2
    have hlt := h.cursor
    rw [node_enter_of_lt t rule location (by omega)]
  rw [rules, h.pending_enter, List.map_cons, node_enter_length, List.map_congr_left hold]
  rfl

theorem rules_close (h : t.WellFormed) (hc : t.cursor ≠ 0) (outcome : Outcome)
    (location : Location) : t.rules = t.current.rule :: (t.close outcome location).rules := by
  simp only [rules, close_rule]
  rw [h.pending_close hc outcome location]
  rfl

/-- A rule ends in a tree as it does in the stack. -/
theorem leave_rules (h : t.WellFormed) (outcome : Outcome) (rule : Text) (location : Location) :
    t.rules.leave outcome rule =
      ((t.leave outcome rule location).map (·.1.rules)).mapError CallError.refusal := by
  by_cases hc : t.cursor = 0
  · rw [rules_of_cursor_eq_zero hc, leave, if_pos hc]
    rfl
  · rw [rules_close h hc outcome location, leave, if_neg hc, RuleStack.leave]
    by_cases hr : t.current.rule = rule
    · rw [List.head?_cons, if_pos (congrArg some hr), if_neg (not_not_intro hr)]
      rfl
    · rw [List.head?_cons, if_neg fun h => hr (Option.some.inj h), if_pos hr]
      exact congrArg (fun message => Except.error (Refusal.unbalanced message))
        (List.append_assoc _ _ _).symm

/-- A call does to the rules of a tree what it does to the stack. -/
theorem rules_take (h : t.WellFormed) (c : TreeCall) :
    t.rules.call c = ((t.take c).map (·.1.rules)).mapError CallError.refusal := by
  have hleave : ∀ outcome rule location, t.rules.leave outcome rule =
      (((t.leave outcome rule location).map (·.map id (·.map some))).map
        fun r => r.1.rules).mapError CallError.refusal := by
    intro outcome rule location
    rw [leave_rules h outcome rule location]
    cases t.leave outcome rule location <;> rfl
  cases c with
  | enter rule location => exact congrArg Except.ok (rules_enter h rule location).symm
  | leave outcome rule location => exact hleave outcome rule location
  | apply kind rule location =>
    match kind with
    | .kind .enter => exact congrArg Except.ok (rules_enter h rule location).symm
    | .kind (.leave outcome) => exact hleave outcome rule location
    | .plain _ => rfl
  | reset => exact congrArg Except.ok (rules_of_cursor_eq_zero rfl).symm
  | noteStyles styles => exact congrArg Except.ok (rules_noteStyles t styles).symm

/-- A rule that ends comes to its call, unless it failed and the log cannot be told of it. -/
theorem leave_result (h : t.WellFormed) (hlog : t.Logged) {outcome : Outcome} {rule : Text}
    {location : Location} {after : CallTree} {r : Except Decimal.LengthError Nat}
    (hleave : t.leave outcome rule location = .ok (after, r)) :
    if (TreeCall.leave outcome rule location).isLoggable then r = .ok t.cursor
    else r = .error .longNumber := by
  unfold leave at hleave
  split at hleave
  · cases hleave
  · split at hleave
    · cases hleave
    · obtain rfl : (t.finish outcome location).2 = r := congrArg Prod.snd (Except.ok.inj hleave)
      cases outcome with
      | matched => rfl
      | failed =>
        rw [hlog.finish_failed h.cursor, TreeCall.isLoggable]
        cases location.isLoggable <;> rfl

theorem take_result (h : t.WellFormed) (hlog : t.Logged) {c : TreeCall} {after : CallTree}
    {r : Except Decimal.LengthError (Option Nat)} (htake : t.take c = .ok (after, r)) :
    if c.isLoggable then ∃ i, r = .ok i else r = .error .longNumber := by
  have hleave : ∀ outcome rule location,
      (t.leave outcome rule location).map (·.map id (·.map some)) = .ok (after, r) →
        if (TreeCall.leave outcome rule location).isLoggable then ∃ i, r = .ok i
        else r = .error .longNumber := by
    intro outcome rule location htake
    cases hresult : t.leave outcome rule location with
    | error err =>
      rw [hresult] at htake
      cases htake
    | ok u =>
      rw [hresult] at htake
      obtain rfl : u.2.map some = r := congrArg Prod.snd (Except.ok.inj htake)
      have hu := leave_result h hlog hresult
      split at hu
      · next hloggable =>
        rw [if_pos hloggable, hu]
        exact ⟨_, rfl⟩
      · next hlong =>
        rw [if_neg hlong, hu]
        rfl
  cases c with
  | enter rule location => exact ⟨_, (congrArg Prod.snd (Except.ok.inj htake)).symm⟩
  | leave outcome rule location => exact hleave outcome rule location htake
  | apply kind rule location =>
    match kind with
    | .kind .enter => exact ⟨_, (congrArg Prod.snd (Except.ok.inj htake)).symm⟩
    | .kind (.leave outcome) => cases outcome <;> exact hleave _ rule location htake
    | .plain _ => cases htake
  | reset => exact ⟨_, (congrArg Prod.snd (Except.ok.inj htake)).symm⟩
  | noteStyles styles => exact ⟨_, (congrArg Prod.snd (Except.ok.inj htake)).symm⟩

end

end CallTree

/-! ## Runs -/

/-- Whether an event was not refused. -/
def isTaken {α : Type} : Except StatementError α → Bool
  | .error (.refused _) => false
  | _ => true

/-- The calls of a list that were not refused. -/
def takenOf {α : Type} (calls : List TreeCall) (results : List (Except StatementError α)) :
    List TreeCall :=
  ((calls.zip results).filter fun r => isTaken r.2).map (·.1)

theorem takenOf_cons {α : Type} (c : TreeCall) (calls : List TreeCall)
    {r : Except StatementError α} (h : isTaken r = true)
    (results : List (Except StatementError α)) :
    takenOf (c :: calls) (r :: results) = c :: takenOf calls results := by
  rw [takenOf, List.zip_cons_cons, List.filter_cons, if_pos h]
  rfl

theorem Session.inv_step {s : Session} (h : s.tree.Inv) (c : TreeCall) : (s.step c).tree.Inv := by
  rcases s.step_cases c with hs | ⟨-, hs⟩ | ⟨styles, hs⟩ | ⟨rule, location, hs⟩ |
    ⟨outcome, location, hc, hs⟩
  · rw [hs]; exact h
  · rw [hs]; exact CallTree.inv_empty
  · rw [hs]; exact h.noteStyles styles
  · rw [hs]; exact h.enter rule location
  · rw [hs]; exact h.close hc outcome location

theorem Session.logged_step {s : Session} (h : s.tree.Logged) (c : TreeCall) :
    (s.step c).tree.Logged := by
  rcases s.step_cases c with hs | ⟨-, hs⟩ | ⟨styles, hs⟩ | ⟨rule, location, hs⟩ |
    ⟨outcome, location, -, hs⟩
  · rw [hs]; exact h
  · rw [hs]; exact CallTree.logged_empty
  · rw [hs]; exact ⟨h.nonneg, h.fits⟩
  · rw [hs]; exact ⟨h.nonneg, h.fits⟩
  · rw [hs]; exact h.close _ location outcome

namespace TreeM

theorem runAll_tree (s : Session) (calls : List TreeCall) :
    (runAll s.tree calls).2 = (calls.foldl Session.step s).tree := by
  induction calls generalizing s with
  | nil => rfl
  | cons c calls ih =>
    have hstep := s.tree_step c
    rw [runAll, run_call, List.foldl_cons, ← ih, hstep]
    rcases s.tree.take c with err | ⟨after, err | i⟩ <;> rfl

/-- What a call does to a tree as the stack has it: either it leaves the rules on the next stack,
and succeeds if the log can be told of it, or it is refused and the tree stays as it was. -/
def Follows (t : CallTree) (c : TreeCall) : Except Refusal RuleStack → Prop
  | .ok next => ∃ after, after.rules = next ∧
      if c.isLoggable then ∃ i, (call c).run t = .ok i after
      else (call c).run t = .error (.unlogged .longNumber) after
  | .error refusal => ∃ err, (call c).run t = .error (.refused err) t ∧ err.refusal = refusal

theorem follows_call {t : CallTree} (h : t.WellFormed) (hlog : t.Logged) (c : TreeCall) :
    Follows t c (t.rules.call c) := by
  rw [CallTree.rules_take h]
  have hcall := run_call t c
  rcases ht : t.take c with err | ⟨after, r⟩
  · exact ⟨err, by rw [hcall, ht]; rfl, rfl⟩
  · have hresult := CallTree.take_result h hlog ht
    refine ⟨after, rfl, ?_⟩
    split at hresult
    · next hloggable =>
      obtain ⟨i, rfl⟩ := hresult
      rw [if_pos hloggable]
      exact ⟨i, by rw [hcall, ht]; rfl⟩
    · next hlong =>
      subst hresult
      rw [if_neg hlong, hcall, ht]
      rfl

/-- A run of calls does to the rules of a tree what it does to the stack. -/
theorem runAll_rules {t : CallTree} (h : t.Inv) (hlog : t.Logged) (calls : List TreeCall) :
    RuleStack.runAll t.rules calls =
      ((runAll t calls).1.map fun r => (r.map fun _ => ()).mapError StatementError.refusal,
        (runAll t calls).2.rules) := by
  induction calls generalizing t with
  | nil => rfl
  | cons c calls ih =>
    have hinv := Session.inv_step (s := ⟨t, []⟩) h c
    have hlogged := Session.logged_step (s := ⟨t, []⟩) hlog c
    have hrules := CallTree.rules_take h.toWellFormed c
    rw [Session.tree_step] at hinv hlogged
    rw [runAll, run_call, RuleStack.runAll, RuleStack.result, hrules]
    rcases ht : t.take c with err | ⟨after, r⟩
    · exact congrArg (fun run => (.error err.refusal :: run.1, run.2)) (ih h hlog)
    · rw [ht] at hinv hlogged
      have hresult := CallTree.take_result h.toWellFormed hlog ht
      split at hresult
      · next hloggable =>
        obtain ⟨i, rfl⟩ := hresult
        simp only [Except.map, Except.mapError, hloggable, if_true]
        exact congrArg (fun run => (.ok () :: run.1, run.2)) (ih hinv hlogged)
      · next hlong =>
        subst hresult
        simp only [Except.map, Except.mapError, hlong]
        exact congrArg (fun run => (_ :: run.1, run.2)) (ih hinv hlogged)

/-- The calls that are not refused come to the same without those that are. -/
theorem runAll_takenOf (t : CallTree) (calls : List TreeCall) :
    runAll t (takenOf calls (runAll t calls).1) =
      ((runAll t calls).1.filter isTaken, (runAll t calls).2) := by
  induction calls generalizing t with
  | nil => rfl
  | cons c calls ih =>
    have hcall := run_call t c
    rcases ht : t.take c with err | ⟨after, err | i⟩
    · rw [ht] at hcall
      simp only [runAll, hcall, outcomeOf]
      exact ih t
    · have htaken :
          isTaken (.error (.unlogged err) : Except StatementError (Option Nat)) = true := rfl
      rw [ht] at hcall
      simp only [runAll, hcall, outcomeOf, takenOf_cons c calls htaken, ih after]
      rfl
    · have htaken : isTaken (.ok i) = true := rfl
      rw [ht] at hcall
      simp only [runAll, hcall, outcomeOf, takenOf_cons c calls htaken, ih after]
      rfl

/-- After every run of calls the rules of the pending calls are the stack, and each call came to
what the stack says. The next call goes on or is refused as the stack says, and an event that is
refused leaves the tree as it was; `apply` is the method of the kind. Without the calls that were
refused the others come to the same. A call that is not refused succeeds, unless it fails a rule and
the log cannot be told of that: then it is an error, and the rule is off the stack all the same. -/
theorem stack_run (calls : List TreeCall) :
    let (results, t) := runAll .empty calls
    let (expected, stack) := RuleStack.runAll [] calls
    t = (Session.run calls).tree ∧
    t.pending.map (fun i => (t.node i).rule) = stack ∧
    results.map (fun r => (r.map fun _ => ()).mapError StatementError.refusal) = expected ∧
    (∀ c, Follows t c (stack.call c)) ∧
    (∀ rule location,
      call (.apply (.kind .enter) rule location) = call (.enter rule location)) ∧
    (∀ outcome rule location, call (.apply (.kind (.leave outcome)) rule location) =
      call (.leave outcome rule location)) ∧
    runAll .empty (takenOf calls results) = (results.filter isTaken, t) := by
  have htree : (runAll .empty calls).2 = (Session.run calls).tree := runAll_tree .empty calls
  have hinv : (runAll .empty calls).2.Inv := by
    rw [htree]
    exact (Session.run_inv calls).1
  have hlog : (runAll .empty calls).2.Logged := by
    rw [htree]
    exact (Session.tracks_run calls).logged
  have hrules := runAll_rules CallTree.inv_empty CallTree.logged_empty calls
  rw [CallTree.rules_of_cursor_eq_zero rfl] at hrules
  refine ⟨htree, ?_, ?_, fun c => ?_, fun _ _ => rfl, fun _ _ _ => rfl,
    runAll_takenOf .empty calls⟩
  · rw [hrules]
    rfl
  · rw [hrules]
  · rw [hrules]
    exact follows_call hinv.toWellFormed hlog c

/-- The rule on top of the stack fails at an offset that the log cannot be told of: that is an
error, and still the rule is not pending any more. -/
theorem stack_run_longOffset :
    let far : Int := (10 ^ Decimal.maxDigits : Nat)
    let long : Location := ⟨⟨far, 1, 1⟩, ⟨far, 1, 1⟩⟩
    let t := (runAll .empty [.enter ['a'] .origin]).2
    t.rules = [['a']] ∧ ∃ after, after.rules = [] ∧
      (call (.leave .failed ['a'] long)).run t = .error (.unlogged .longNumber) after := by
  intro far long t
  have hinv : t.Inv := CallTree.inv_empty.enter ['a'] .origin
  have hlogged : t.Logged := ⟨Int.le_refl 0, by decide⟩
  have hrules : t.rules = [['a']] := by
    show (CallTree.empty.enter ['a'] .origin).1.rules = _
    rw [CallTree.rules_enter CallTree.inv_empty.toWellFormed, CallTree.rules_of_cursor_eq_zero rfl]
  have hlong : (TreeCall.leave .failed ['a'] long).isLoggable = false :=
    Location.isLoggable_tenPow 1 1 ⟨far, 1, 1⟩
  clear_value far
  have hfollows := follows_call hinv.toWellFormed hlogged (.leave .failed ['a'] long)
  rw [hrules] at hfollows
  obtain ⟨after, hafter, herror⟩ := hfollows
  rw [hlong] at herror
  exact ⟨hrules, after, hafter, herror⟩

end TreeM

end RuleTrace
