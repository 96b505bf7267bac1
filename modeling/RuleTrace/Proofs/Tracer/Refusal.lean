import RuleTrace.Proofs.Call.Stack
import RuleTrace.Proofs.Tracer.Chain

/-!
# Errors in a chain of tracers

Every tracer of a chain hands an event to the older ones before it takes the event itself. So an
error keeps the event from the tracer that has it and from all younger ones, but the older ones have
taken it (`Tracer.recordChain_objection`). The tracers of a chain get out of step this way, and when
the youngest one alone is reset. Its pending rules are still a prefix of those of the others
(`ChainRun.Prefixed`), so that they take all that it would take.

* `Tracer.fits_of_furthestMoved`: the log is told only of offsets that are short enough.
* `ChainRun.errors_run`: what an error leaves behind, and that the rules stay a prefix.
-/

namespace RuleTrace

/-! ## One event -/

namespace Tracer

/-- What keeps a tracer from an event: its call tree refuses the event, or a number is too long for
the log or for the live trace. -/
def objection? (t : Tracer) (e : Event) : Option RecordError :=
  match t.tree.apply e with
  | .error err => some (.refused err)
  | .ok (_, .error err) => some (.unwritten err)
  | .ok (tree, .ok i) =>
    if t.options.showTrace && !(tree.node i).isHidden t.hidden &&
        !(tree.node i).location.isWritable then
      some (.unwritten .longNumber)
    else none

/-- A tracer takes an event about the call `i`: its call tree does, and if the call is shown, its
block is written; the live trace is turned off if the sink refuses the block. -/
def Takes (t : Tracer) (e : Event) (i : Nat) (r : Tracer × Activity) : Prop :=
  ∃ tree, t.tree.apply e = .ok (tree, .ok i) ∧
    let after := { t with tree }
    if t.options.showTrace = true ∧ (tree.node i).isHidden t.hidden = false then
      match t.sink.write? (after.liveBlock e.kind (tree.node i)) with
      | some text => r.1 = after ∧ r.2.written = text
      | none => r.1 = after.silence ∧ r.2.written = []
    else r.1 = after ∧ r.2.written = []

/-- A tracer that nothing happened to. -/
def untouched (t : Tracer) : Tracer × Activity :=
  (t, {})

/-- What an error leaves of the tracer that has it: all as it was if the call tree refuses the
event, and only the call tree new if a number is too long. A number that is too long for the log
leaves the frontier of the tree as it was. -/
def StopsAt (t : Tracer) (e : Event) : RecordError → Tracer × Activity → Prop
  | .refused _, r => r = t.untouched
  | .unwritten _, r =>
    ∃ tree result, t.tree.apply e = .ok (tree, result) ∧ r.1 = { t with tree } ∧ r.2.written = []

/-- A tracer after an event, and what else happened. -/
def recorded (t : Tracer) (e : Event) : Tracer × Activity :=
  ((t.record e).tracer, (t.record e).activity)

section
variable {t : Tracer} {e : Event}

theorem record_of_refused {err : CallError} (h : t.tree.apply e = .error err) :
    t.record e = { tracer := t, result := .error (.refused err) } := by
  simp only [record, h]

theorem record_of_objection {err : RecordError} (h : t.objection? e = some err) :
    (t.record e).result = .error err ∧ t.StopsAt e err (t.recorded e) := by
  unfold objection? at h
  unfold recorded record
  cases happly : t.tree.apply e with
  | error err' =>
    simp only [happly] at h
    cases h
    exact ⟨rfl, rfl⟩
  | ok after =>
    obtain ⟨tree, err' | i⟩ := after
    · simp only [happly] at h
      cases h
      exact ⟨rfl, tree, _, happly, rfl, rfl⟩
    simp only [happly] at h
    split at h
    · next hlong =>
      cases h
      have hwrite : writeLive { t with tree } e.kind (tree.node i) = .error .longNumber := by
        simp only [Bool.and_eq_true, Bool.not_eq_true'] at hlong
        simp [writeLive, hlong]
      simp only [hwrite, true_and]
      exact ⟨tree, _, happly, rfl, rfl⟩
    · cases h

theorem record_of_no_objection (h : t.objection? e = none) :
    ∃ i, (t.record e).result = .ok i ∧ t.Takes e i (t.recorded e) := by
  unfold objection? at h
  unfold recorded record Takes
  cases happly : t.tree.apply e with
  | error err => simp [happly] at h
  | ok after =>
    obtain ⟨tree, err | i⟩ := after
    · simp [happly] at h
    simp only [happly] at h
    split at h
    · cases h
    · next hshort =>
      refine ⟨i, ?_⟩
      by_cases hshown : t.options.showTrace = true ∧ (tree.node i).isHidden t.hidden = false
      · have hfits : (tree.node i).location.isWritable = true := by
          simpa [hshown] using hshort
        have hnothidden : ¬(!t.options.showTrace || (tree.node i).isHidden t.hidden) := by
          simp [hshown]
        have hwrite := @writeLive_of_shown { t with tree } e.kind (tree.node i) hnothidden
          (by simp [hfits])
        simp only [hwrite]
        cases hsink : t.sink.write? (liveBlock { t with tree } e.kind (tree.node i)) with
        | some text => exact ⟨rfl, tree, rfl, by simp [hshown, hsink]⟩
        | none => exact ⟨rfl, tree, rfl, by simp [hshown, hsink]⟩
      · have hwrite : writeLive { t with tree } e.kind (tree.node i) = .ok ({ t with tree }, {}) :=
          if_pos (by simpa [Bool.or_eq_true, Classical.or_iff_not_imp_left] using hshown)
        simp only [hwrite, true_and]
        exact ⟨tree, rfl, by simp [hshown]⟩

end

/-- An event that no tracer has an objection to is taken by all. -/
theorem recordChain_no_objection {chain : List Tracer} {e : Event}
    (h : ∀ u ∈ chain, u.objection? e = none) :
    (recordChain chain e).1 = chain.map (·.recorded e) ∧
      ∃ i, (recordChain chain e).2 = .ok i ∧ ∀ t ∈ chain.head?, t.Takes e i (t.recorded e) := by
  induction chain with
  | nil => exact ⟨rfl, 0, rfl, nofun⟩
  | cons t older ih =>
    rw [List.forall_mem_cons] at h
    obtain ⟨hafter, j, hj, -⟩ := ih h.2
    obtain ⟨i, hi, htakes⟩ := record_of_no_objection h.1
    rw [recordChain_cons_ok t hj, hafter]
    refine ⟨rfl, i, hi, fun u hu => ?_⟩
    cases hu
    exact htakes

/-- **An event stops at the oldest tracer that has an objection.** The older ones have taken it, and
the younger ones are as they were. -/
theorem recordChain_objection {older : List Tracer} {t : Tracer} {e : Event} {err : RecordError}
    (holder : ∀ u ∈ older, u.objection? e = none) (ht : t.objection? e = some err)
    (younger : List Tracer) :
    recordChain (younger ++ t :: older) e =
      (younger.map untouched ++ t.recorded e :: older.map (·.recorded e), .error err) := by
  induction younger with
  | nil =>
    obtain ⟨hafter, i, hi, -⟩ := recordChain_no_objection holder
    rw [List.nil_append, recordChain_cons_ok t hi, hafter, (record_of_objection ht).1]
    rfl
  | cons u younger ih =>
    have herror : (recordChain (younger ++ t :: older) e).2 = .error err := congrArg Prod.snd ih
    rw [List.cons_append, recordChain_cons_error u herror, ih]
    rfl

theorem length_traceChain (chain : List Tracer) (raw : RawEvent) :
    (traceChain chain raw).1.length = chain.length := by
  induction chain generalizing raw with
  | nil => rfl
  | cons t older ih =>
    rw [traceChain]
    split
    · exact List.length_map _
    · next e _ =>
      have hlength := ih e.toRaw
      generalize traceChain older e.toRaw = r at hlength
      obtain ⟨above, _ | _⟩ := r <;> exact congrArg (· + 1) hlength

theorem forall₂_takes {chain : List Tracer} {e : Event} (h : ∀ u ∈ chain, u.objection? e = none) :
    List.Forall₂ (fun u r => ∃ i, u.Takes e i r) chain (chain.map (·.recorded e)) := by
  rw [List.forall₂_map_right_iff, List.forall₂_same]
  intro u hu
  obtain ⟨i, -, htakes⟩ := record_of_no_objection (h u hu)
  exact ⟨i, htakes⟩

end Tracer

/-! ## The rules that are pending -/

/-- The call of a tree that an event makes. -/
def Event.call (e : Event) : TreeCall :=
  .apply (.kind e.kind) e.rule e.location

namespace RuleStack

/-- What may become of a stack and of one that starts with it: the longer one accepts what the other
one does, and starts with it still. -/
def StaysPrefix {ε : Type} (s : RuleStack) : Except ε RuleStack → Except ε RuleStack → Prop
  | .ok s', .ok l' => s' <+: l'
  | .ok _, .error _ => False
  | .error _, .ok l' => s <+: l'
  | .error _, .error _ => True

variable {s l : RuleStack} (h : s <+: l)
include h

theorem staysPrefix_leave (outcome : Outcome) (rule : Text) :
    s.StaysPrefix (s.leave outcome rule) (l.leave outcome rule) := by
  obtain ⟨rest, rfl⟩ := h
  cases s with
  | nil =>
    have hs : leave [] outcome rule = .error (.unbalanced (complaint [] outcome rule)) :=
      if_neg nofun
    rw [hs, List.nil_append]
    cases leave rest outcome rule with
    | ok l' => exact List.nil_prefix
    | error => trivial
  | cons top s =>
    by_cases hr : top = rule
    · have hs : leave (top :: s) outcome rule = .ok s := if_pos (congrArg some hr)
      have hl : leave (top :: s ++ rest) outcome rule = .ok (s ++ rest) :=
        if_pos (congrArg some hr)
      rw [hs, hl]
      exact List.prefix_append s rest
    · have hne : some top ≠ some rule := fun h => hr (Option.some.inj h)
      have hs : leave (top :: s) outcome rule = .error _ := if_neg hne
      have hl : leave (top :: s ++ rest) outcome rule = .error _ := if_neg hne
      rw [hs, hl]
      trivial

theorem staysPrefix_call (e : Event) : s.StaysPrefix (s.call e.call) (l.call e.call) := by
  obtain ⟨_ | outcome, rule, location⟩ := e
  · exact List.cons_prefix_cons.2 ⟨rfl, h⟩
  · exact staysPrefix_leave h outcome rule

end RuleStack

namespace CallTree

variable {t u : CallTree} {e : Event}

/-- An event that a tree accepts does to its rules what it does to the stack. -/
theorem rules_apply (h : t.WellFormed) (e : Event) :
    t.rules.call e.call = ((t.apply e).map (·.1.rules)).mapError CallError.refusal := by
  rw [rules_take h, Event.call, take]
  change (((t.apply e).map (·.map id (·.map some))).map (·.1.rules)).mapError _ = _
  cases t.apply e <;> rfl

theorem Inv.apply (h : t.Inv) {result : Except Decimal.LengthError Nat}
    (happly : t.apply e = .ok (u, result)) : u.Inv := by
  have hstep := Session.inv_step (s := ⟨t, []⟩) h e.call
  have htake : t.take e.call = .ok (u, result.map some) := by
    change (t.apply e).map (·.map id (·.map some)) = _
    rw [happly]
    rfl
  rwa [Session.tree_step, htake] at hstep

theorem Logged.apply (h : t.Logged) {result : Except Decimal.LengthError Nat}
    (happly : t.apply e = .ok (u, result)) : u.Logged := by
  rcases apply_cases happly with ⟨-, rfl, -⟩ | ⟨outcome, -, rfl, -⟩
  · exact ⟨h.nonneg, h.fits⟩
  · exact h.close t e.location outcome

/-- What an event does to two trees, the pending rules of one a prefix of those of the other. -/
theorem staysPrefix_apply (ht : t.WellFormed) (hu : u.WellFormed) (h : t.rules <+: u.rules)
    (e : Event) :
    t.rules.StaysPrefix ((t.apply e).map (·.1.rules)) ((u.apply e).map (·.1.rules)) := by
  have hcall := RuleStack.staysPrefix_call h e
  rw [rules_apply ht, rules_apply hu] at hcall
  cases ht' : t.apply e <;> cases hu' : u.apply e <;> rw [ht', hu'] at hcall <;> exact hcall

end CallTree

/-- The log is told of no offset that is too long to be written. -/
theorem Tracer.fits_of_furthestMoved {t : Tracer} (h : t.tree.Logged) {e : Event} {offset : Int}
    {rule : Text} (hlog : .furthestMoved offset rule ∈ (t.record e).activity.log) :
    Decimal.fits offset = true := by
  have hmoved : ∀ tree : CallTree, LogRecord.furthestMoved offset rule ∈
      (if t.tree.furthest < tree.furthest then
        [LogRecord.furthestMoved tree.furthest e.rule] else []) → offset = tree.furthest := by
    intro tree hmem
    split at hmem
    · obtain ⟨rfl, -⟩ := LogRecord.furthestMoved.inj (List.mem_singleton.1 hmem)
      rfl
    · cases hmem
  unfold record at hlog
  split at hlog
  · cases hlog
  · cases hlog
  · next tree i happly =>
    suffices hoffset : offset = tree.furthest from hoffset ▸ (h.apply happly).fits
    dsimp only at hlog
    split at hlog
    · exact hmoved tree hlog
    · next hwrite =>
      refine hmoved tree ((List.mem_append.1 hlog).resolve_right fun hmem => ?_)
      -- a block has no record, or one about the live trace
      unfold writeLive at hwrite
      split at hwrite
      · cases hwrite
        cases hmem
      · split at hwrite
        · cases hwrite
        · split at hwrite <;> cases hwrite <;> simp at hmem

/-! ## Runs with resets -/

/-- What can be done to a chain at its youngest tracer. -/
inductive ChainCall where
  | send (raw : RawEvent)
  | reset
deriving DecidableEq, Repr

/-- What a call sends. -/
def ChainCall.raw? : ChainCall → Option RawEvent
  | .send raw => some raw
  | .reset => none

namespace ChainRun

/-- All that some calls send. -/
def sent (calls : List ChainCall) : List RawEvent :=
  calls.filterMap ChainCall.raw?

/-- The run after one more call. A reset is of the youngest tracer alone. -/
def call (r : ChainRun) : ChainCall → ChainRun
  | .send raw => r.step raw
  | .reset => { r with tracers := r.tracers.modifyHead .reset }

/-- The run after some calls. -/
def runCalls (r : ChainRun) (calls : List ChainCall) : ChainRun :=
  calls.foldl call r

/-- The older tracers of a chain are in step, and the pending rules of the youngest one, innermost
first, are a prefix of theirs. -/
structure Prefixed (r : ChainRun) (youngest : Tracer) (older : List Tracer) (tree : CallTree) :
    Prop where
  tracers : r.tracers = youngest :: older
  older : ∀ u ∈ older, u.tree = tree
  inv : youngest.tree.Inv
  invOlder : tree.Inv
  rules : youngest.tree.rules <+: tree.rules

section
variable {older : List Tracer} {tree : CallTree} (holder : ∀ u ∈ older, u.tree = tree)

/-- The older tracers of a chain get what is sent, whatever the youngest one makes of it. -/
theorem step_cons {r : ChainRun} {t : Tracer} {raw : RawEvent} {e : Event}
    (hr : r.tracers = t :: older) (hread : raw.read = .ok e) :
    (r.step raw).tracers =
      (match (Tracer.recordChain older e).2 with
        | .error _ => t
        | .ok _ => (t.record e).tracer) :: (step { tracers := older } raw).tracers := by
  rw [r.step_of_read hread, step_of_read _ hread, hr]
  cases hresult : (Tracer.recordChain older e).2 with
  | error err =>
    rw [Tracer.recordChain_cons_error t hresult]
    rfl
  | ok i =>
    rw [Tracer.recordChain_cons_ok t hresult]
    rfl

include holder

/-- What is no event leaves the older tracers as they were, and so does an event that they
refuse. -/
theorem step_older {raw : RawEvent}
    (hstop : ∀ e, raw.read = .ok e → ∃ err, tree.apply e = .error err) :
    (step { tracers := older } raw).tracers = older := by
  by_cases hne : older = []
  · subst hne
    rfl
  · cases hread : raw.read with
    | error err =>
      rw [step, Tracer.traceChain_unread hread hne]
      simp [Function.comp_def]
    | ok e =>
      obtain ⟨err, happly⟩ := hstop e hread
      rw [step_of_read _ hread, Tracer.recordChain_refused holder hne happly]
      simp [Function.comp_def]

/-- The older tracers take an event that their call tree accepts, unless they cannot write it. -/
theorem recordChain_accepted {e : Event} {after : CallTree}
    {result : Except Decimal.LengthError Nat} (happly : tree.apply e = .ok (after, result)) :
    (∃ err, (Tracer.recordChain older e).2 = .error (.unwritten err)) ∨
      ((∃ j, (Tracer.recordChain older e).2 = .ok j) ∧
        ∀ a ∈ (Tracer.recordChain older e).1, a.1.tree = after) := by
  by_cases hwritten : ∃ err, (Tracer.recordChain older e).2 = .error (.unwritten err)
  · exact .inl hwritten
  · obtain ⟨-, hafter, hok⟩ := Tracer.recordChain_taken holder happly
      fun err herr => hwritten ⟨err, herr⟩
    refine .inr ⟨?_, hafter⟩
    rcases hresult : (Tracer.recordChain older e).2 with err | j
    · rw [hresult] at hok
      split at hok
      · cases hok
      · rcases result with err' | i
        · exact absurd ⟨err', hresult.trans (congrArg _ (Except.error.inj hok))⟩ hwritten
        · cases hok
    · exact ⟨j, rfl⟩

end

section
variable {r : ChainRun} {t : Tracer} {older : List Tracer} {tree : CallTree}
  (h : r.Prefixed t older tree)
include h

theorem Prefixed.staysPrefix (e : Event) :
    t.tree.rules.StaysPrefix ((t.tree.apply e).map (·.1.rules)) ((tree.apply e).map (·.1.rules)) :=
  CallTree.staysPrefix_apply h.inv.toWellFormed h.invOlder.toWellFormed h.rules e

/-- What the youngest tracer would take by itself is not refused by any of the chain. -/
theorem Prefixed.accepted {raw : RawEvent} {e : Event} {after : CallTree}
    {result : Except Decimal.LengthError Nat} (hread : raw.read = .ok e)
    (happly : t.tree.apply e = .ok (after, result)) :
    (∃ i, result = .ok i ∧ (Tracer.traceChain (t :: older) raw).2 = .ok i) ∨
      ∃ err, (Tracer.traceChain (t :: older) raw).2 = .error (.record (.unwritten err)) := by
  have hstays := h.staysPrefix e
  rw [happly] at hstays
  rw [Tracer.traceChain_eq hread]
  cases htree : tree.apply e with
  | error err =>
    rw [htree] at hstays
    exact hstays.elim
  | ok later =>
    rcases recordChain_accepted h.older htree with ⟨err, herr⟩ | ⟨⟨j, hj⟩, -⟩
    · rw [Tracer.recordChain_cons_error t herr]
      exact .inr ⟨err, rfl⟩
    · rw [Tracer.recordChain_cons_ok t hj]
      obtain ⟨-, hok | ⟨err, herr⟩⟩ := Tracer.record_taken happly
      · rw [hok]
        rcases result with err | i
        · exact .inr ⟨err, rfl⟩
        · exact .inl ⟨i, rfl, rfl⟩
      · exact .inr ⟨err, by rw [herr]; rfl⟩

/-- What reaches no tracer keeps the rules a prefix. -/
theorem Prefixed.step_unread {raw : RawEvent} {err : EventError} (hread : raw.read = .error err) :
    (r.step raw).Prefixed t (ChainRun.step { tracers := older } raw).tracers tree := by
  have holder : (ChainRun.step { tracers := older } raw).tracers = older :=
    step_older h.older fun e he => by cases hread.symm.trans he
  have hsame : (r.step raw).tracers = t :: older := by
    rw [ChainRun.step, h.tracers, Tracer.traceChain_unread hread (List.cons_ne_nil t older)]
    simp [Function.comp_def]
  rw [holder]
  exact ⟨hsame, h.older, h.inv, h.invOlder, h.rules⟩

/-- So does an event that the older tracers refuse: the youngest one refuses it as well. -/
theorem Prefixed.step_refused {raw : RawEvent} {e : Event} {err : CallError}
    (hread : raw.read = .ok e) (htree : tree.apply e = .error err) :
    (r.step raw).Prefixed t (ChainRun.step { tracers := older } raw).tracers tree := by
  have holder : (ChainRun.step { tracers := older } raw).tracers = older :=
    step_older h.older fun e' he => by
      cases hread.symm.trans he
      exact ⟨err, htree⟩
  have hstays := h.staysPrefix e
  rw [htree] at hstays
  have hsame : (r.step raw).tracers = t :: older := by
    cases happly : t.tree.apply e with
    | ok after =>
      rw [happly] at hstays
      exact hstays.elim
    | error err' =>
      rw [step_cons h.tracers hread, Tracer.record_of_refused happly, holder]
      split <;> rfl
  rw [holder]
  exact ⟨hsame, h.older, h.inv, h.invOlder, h.rules⟩

/-- And so does one that they take, whatever the youngest tracer makes of it. -/
theorem Prefixed.step_taken {raw : RawEvent} {e : Event} {later : CallTree}
    {result : Except Decimal.LengthError Nat} {j : Nat} (hread : raw.read = .ok e)
    (htree : tree.apply e = .ok (later, result))
    (hresult : (Tracer.recordChain older e).2 = .ok j)
    (hafter : ∀ a ∈ (Tracer.recordChain older e).1, a.1.tree = later) :
    (r.step raw).Prefixed (t.record e).tracer (ChainRun.step { tracers := older } raw).tracers
      later := by
  have hstep := step_cons h.tracers hread
  rw [hresult] at hstep
  have holder : ∀ u ∈ (ChainRun.step { tracers := older } raw).tracers, u.tree = later := by
    rw [step_of_read _ hread]
    simpa using hafter
  have hstays := h.staysPrefix e
  rw [htree] at hstays
  cases happly : t.tree.apply e with
  | ok after =>
    rw [happly] at hstays
    have htree' := (Tracer.record_taken happly).1
    exact ⟨hstep, holder, htree' ▸ h.inv.apply happly, h.invOlder.apply htree, htree' ▸ hstays⟩
  | error err =>
    rw [happly] at hstays
    rw [Tracer.record_of_refused happly] at hstep ⊢
    exact ⟨hstep, holder, h.inv, h.invOlder.apply htree, hstays⟩

/-- What is sent keeps the rules of the youngest tracer a prefix, unless an older one cannot write
it. -/
theorem Prefixed.step {raw : RawEvent}
    (hwritten : ∀ err, (Tracer.traceChain older raw).2 ≠ .error (.record (.unwritten err))) :
    ∃ t' tree',
      (r.step raw).Prefixed t' (ChainRun.step { tracers := older } raw).tracers tree' := by
  cases hread : raw.read with
  | error err => exact ⟨t, tree, h.step_unread hread⟩
  | ok e =>
    cases htree : tree.apply e with
    | error err => exact ⟨t, tree, h.step_refused hread htree⟩
    | ok later =>
      rcases recordChain_accepted h.older htree with ⟨err, herr⟩ | ⟨⟨j, hj⟩, hafter⟩
      · refine absurd ?_ (hwritten err)
        rw [Tracer.traceChain_eq hread]
        exact congrArg (Except.mapError TraceError.record) herr
      · exact ⟨_, _, h.step_taken hread htree hj hafter⟩

end

/-- A reset of the youngest tracer leaves it no pending rules. -/
theorem Prefixed.reset {r : ChainRun} {t : Tracer} {older : List Tracer} {tree : CallTree}
    (h : r.Prefixed t older tree) : (r.call .reset).Prefixed t.reset older tree where
  tracers := by
    rw [call, h.tracers]
    rfl
  older := h.older
  inv := CallTree.inv_empty
  invOlder := h.invOlder
  rules := by
    rw [show t.reset.tree.rules = [] from CallTree.rules_of_cursor_eq_zero rfl]
    exact List.nil_prefix

theorem sent_concat_send (calls : List ChainCall) (raw : RawEvent) :
    sent (calls ++ [.send raw]) = sent calls ++ [raw] :=
  List.filterMap_append

theorem sent_concat_reset (calls : List ChainCall) : sent (calls ++ [.reset]) = sent calls := by
  rw [sent, List.filterMap_append]
  exact List.append_nil _

theorem length_run (r : ChainRun) (raws : List RawEvent) :
    (r.run raws).tracers.length = r.tracers.length := by
  induction raws using List.reverseRecOn with
  | nil => rfl
  | append_singleton raws raw ih =>
    rw [run_concat, step, ← ih]
    simp [Tracer.length_traceChain]

/-- After every run the pending rules of the youngest tracer are a prefix of those of the others,
which went through the run as a chain of their own. -/
theorem prefixed_runCalls {t : Tracer} {older : List Tracer} (ht : t.tree = .empty)
    (holder : ∀ u ∈ older, u.tree = .empty) (calls : List ChainCall)
    (hwritten : (run { tracers := older } (sent calls)).IsWritten) :
    ∃ t' tree', (runCalls { tracers := t :: older } calls).Prefixed t'
      (run { tracers := older } (sent calls)).tracers tree' := by
  induction calls using List.reverseRecOn with
  | nil =>
    refine ⟨t, .empty, rfl, holder, ?_, CallTree.inv_empty, ?_⟩
    · rw [ht]
      exact CallTree.inv_empty
    · exact ⟨[], by rw [List.append_nil, ht]⟩
  | append_singleton calls c ih =>
    rw [runCalls, List.foldl_concat, ← runCalls]
    cases c with
    | send raw =>
      rw [sent_concat_send, run_concat] at hwritten ⊢
      obtain ⟨t', tree', h⟩ := ih hwritten.of_step.1
      exact h.step hwritten.of_step.2
    | reset =>
      rw [sent_concat_reset] at hwritten ⊢
      obtain ⟨t', tree', h⟩ := ih hwritten
      exact ⟨_, tree', h.reset⟩

/-- What is no event changes no tracer of a chain. The error of an event is that of the oldest
tracer with an objection, which is as it was if its call tree refused the event, and has the event
in its tree if it could not write a number; the younger ones are as they were, and the older ones
have taken the event. Without an objection all take it. After every run of a fresh chain, with what
is sent and resets at the youngest tracer only, its pending rules are a prefix of those of each
older one, and none refuses what it would take by itself, as long as the older ones can write to the
log and to their live traces. -/
theorem errors_run :
    (∀ (chain : List Tracer), chain ≠ [] → ∀ raw : RawEvent,
      (∀ err, raw.read = .error err →
        Tracer.traceChain chain raw = (chain.map Tracer.untouched, .error (.unread err))) ∧
      ∀ e, raw.read = .ok e →
        (∀ younger t older err, chain = younger ++ t :: older →
          (∀ u ∈ older, u.objection? e = none) → t.objection? e = some err →
            ∃ here above, Tracer.traceChain chain raw =
                (younger.map Tracer.untouched ++ here :: above, .error (.record err)) ∧
              t.StopsAt e err here ∧ List.Forall₂ (fun u r => ∃ i, u.Takes e i r) older above) ∧
        (∀ t older, chain = t :: older → (∀ u ∈ chain, u.objection? e = none) →
          ∃ here above i, Tracer.traceChain chain raw = (here :: above, .ok i) ∧
            t.Takes e i here ∧ List.Forall₂ (fun u r => ∃ i, u.Takes e i r) older above)) ∧
    ∀ (s : TracerSetup) (older : List TracerSetup) (chain : List Tracer) (calls : List ChainCall),
      Tracer.chainOf (s :: older) = .ok chain →
      (run { tracers := chain.tail } (sent calls)).IsWritten →
        ∃ t ancestors, (runCalls { tracers := chain } calls).tracers = t :: ancestors ∧
          ancestors.length = older.length ∧ (∀ u ∈ ancestors, t.tree.rules <+: u.tree.rules) ∧
          ∀ raw e after result, raw.read = .ok e → t.tree.apply e = .ok (after, result) →
            (∃ i, result = .ok i ∧ (Tracer.traceChain (t :: ancestors) raw).2 = .ok i) ∨
              ∃ err, (Tracer.traceChain (t :: ancestors) raw).2 =
                .error (.record (.unwritten err)) := by
  refine ⟨fun chain hne raw => ⟨fun err hread => Tracer.traceChain_unread hread hne, ?_⟩, ?_⟩
  · intro e hread
    rw [Tracer.traceChain_eq hread]
    constructor
    · rintro younger t older err rfl holder ht
      rw [Tracer.recordChain_objection holder ht younger]
      exact ⟨_, _, rfl, (Tracer.record_of_objection ht).2, Tracer.forall₂_takes holder⟩
    · rintro t older rfl hnone
      obtain ⟨hafter, i, hi, htakes⟩ := Tracer.recordChain_no_objection hnone
      rw [hafter, hi]
      exact ⟨_, _, i, rfl, htakes t rfl,
        Tracer.forall₂_takes fun u hu => hnone u (List.mem_cons_of_mem t hu)⟩
  · intro s older chain calls hchain hwritten
    obtain ⟨hlength, htree⟩ := Tracer.tree_chainOf hchain
    obtain ⟨t, above, rfl⟩ : ∃ t above, chain = t :: above :=
      List.exists_cons_of_length_eq_add_one hlength
    obtain ⟨ht, habove⟩ := List.forall_mem_cons.1 htree
    obtain ⟨t', tree', h⟩ := prefixed_runCalls ht habove calls hwritten
    refine ⟨t', _, h.tracers, ?_, fun u hu => h.older u hu ▸ h.rules,
      fun raw e after result hread happly => h.accepted hread happly⟩
    rw [length_run]
    exact Nat.succ.inj hlength

/-- A rule ends that the middle one of three tracers does not know of, and a rule is entered after a
reset of the younger one of two. -/
theorem errors_run_resetYoungest :
    let quiet : TracerSetup := { source := some ['q'], sink := ⟨false, false⟩ }
    let live : TracerSetup := { quiet with options := { showTrace := true } }
    let enter (rule : Text) : RawEvent := .unit (.kind .enter) rule (.location .origin)
    let leave : RawEvent := .unit (.kind (.leave .matched)) ['a'] (.location .origin)
    let idle : Tracer := ⟨{}, ⟨[['q']]⟩, [], ⟨false, false⟩, .empty⟩
    let busy : Tracer := { idle with tree := (CallTree.empty.enter ['a'] .origin).1 }
    (∃ above, Tracer.traceChain [busy, idle, busy] leave =
      (busy.untouched :: idle.untouched :: above,
        .error (.record (.refused (.nothingPending .matched ['a']))))) ∧
    ∃ chain t u, Tracer.chainOf [quiet, live] = .ok chain ∧
      (runCalls { tracers := chain } [.send (enter ['a']), .reset, .send (enter ['b'])]).tracers =
        [t, u] ∧ t.tree.rules <+: u.tree.rules := by
  intro quiet live enter leave idle busy
  obtain ⟨hone, hrun⟩ := errors_run
  constructor
  · obtain ⟨here, above, htrace, rfl, -⟩ := ((hone [busy, idle, busy] (List.cons_ne_nil _ _)
      leave).2 ⟨.leave .matched, ['a'], .origin⟩ rfl).1 [busy] idle [busy] _ rfl
      (by decide) rfl
    exact ⟨above, htrace⟩
  · let parent : Tracer := { idle with options := { showTrace := true } }
    have hchain : Tracer.chainOf [quiet, live] = .ok [idle, parent] := rfl
    let calls : List ChainCall := [.send (enter ['a']), .reset, .send (enter ['b'])]
    have hwritten : (run { tracers := [parent] } (sent calls)).IsWritten := by
      refine isWritten_run (r := { tracers := [parent] }) (fun _ => List.not_mem_nil) ?_
      simp only [sent, calls, ChainCall.raw?, List.filterMap, List.forall_mem_cons]
      refine ⟨?_, ?_, by simp⟩ <;> intro e he <;> cases he <;>
        exact ⟨by decide, fun _ => by decide⟩
    obtain ⟨t, ancestors, htracers, hlength, hrules, -⟩ :=
      hrun quiet [live] _ calls hchain hwritten
    obtain ⟨u, rfl⟩ := List.length_eq_one_iff.1 hlength
    exact ⟨_, t, u, hchain, htracers, hrules u List.mem_cons_self⟩

/-- A column that is too long for the live trace of the older tracer ends a rule for that one only.
The younger tracer cannot end it any more. -/
theorem errors_run_longColumn :
    let quiet : TracerSetup := { source := some ['q'], sink := ⟨false, false⟩ }
    let live : TracerSetup := { quiet with options := { showTrace := true } }
    let far : Int := (10 ^ Decimal.maxDigits - 1 : Nat)
    let enter : RawEvent := .unit (.kind .enter) ['a'] (.location .origin)
    let leave (l : Location) : RawEvent := .unit (.kind (.leave .matched)) ['a'] (.location l)
    let long := locate ['q'] far far
    ∃ chain child parent parent', Tracer.chainOf [quiet, live] = .ok chain ∧
      (runCalls { tracers := chain } [.send enter]).tracers = [child, parent] ∧
      (∃ e, (leave long).read = .ok e ∧ (child.tree.apply e).isOk = true ∧
        (parent.tree.apply e).isOk = true) ∧
      (runCalls { tracers := chain } [.send enter, .send (leave long)]).tracers =
        [child, parent'] ∧
      ¬child.tree.rules <+: parent'.tree.rules ∧
      (∃ e, (leave .origin).read = .ok e ∧ (child.tree.apply e).isOk = true) ∧
      ∃ err, (Tracer.traceChain [child, parent'] (leave .origin)).2 =
        .error (.record (.refused err)) := by
  intro quiet live far enter leave long
  let idle : Tracer := ⟨{}, ⟨[['q']]⟩, [], ⟨false, false⟩, .empty⟩
  let child : Tracer := { idle with tree := (CallTree.empty.enter ['a'] .origin).1 }
  let parent : Tracer := { child with options := { showTrace := true } }
  let parent' : Tracer := { parent with tree := child.tree.close .matched long }
  let e : Event := ⟨.leave .matched, ['a'], long⟩
  have hlong : long.isWritable = false :=
    isWritable_locate_far (Nat.le_add_of_sub_le (Nat.le_refl _))
  have happly : child.tree.apply e = .ok (child.tree.close .matched long, .ok 1) := rfl
  obtain ⟨hafter, hresult⟩ := Tracer.record_unwritten (t := parent) happly rfl rfl hlong
  have hnone : (Tracer.recordChain [] e).2 = .ok 0 := rfl
  have hparent := Tracer.recordChain_cons_ok parent hnone
  have hstopped : (Tracer.recordChain [parent] e).2 = .error (.unwritten .longNumber) := by
    rw [hparent, hresult]
  have hchild := Tracer.recordChain_cons_error child hstopped
  let start : ChainRun := { tracers := [idle, { idle with options := { showTrace := true } }] }
  have henter : (start.runCalls [.send enter]).tracers = [child, parent] := by decide +kernel
  have hleave : (start.runCalls [.send enter, .send (leave long)]).tracers = [child, parent'] := by
    change ((start.runCalls [.send enter]).step (leave long)).tracers = _
    rw [step_of_read _ (show (leave long).read = .ok e from rfl), henter, hchild, hparent, hafter]
    rfl
  have hchildRules : child.tree.rules = [['a']] := by
    rw [CallTree.rules_enter CallTree.inv_empty.toWellFormed,
      CallTree.rules_of_cursor_eq_zero rfl]
  have hparentRules : parent'.tree.rules = [] := CallTree.rules_of_cursor_eq_zero rfl
  have hrefused : parent'.tree.apply ⟨.leave .matched, ['a'], .origin⟩ =
      .error (.nothingPending .matched ['a']) := rfl
  refine ⟨_, child, parent, parent', rfl, henter,
    ⟨e, rfl, by rw [happly]; rfl, by rw [happly]; rfl⟩, hleave, ?_,
    ⟨⟨.leave .matched, ['a'], .origin⟩, rfl, rfl⟩, .nothingPending .matched ['a'], ?_⟩
  · rw [hchildRules, hparentRules]
    decide
  · rw [Tracer.traceChain_eq (show (leave .origin).read =
      .ok ⟨.leave .matched, ['a'], .origin⟩ from rfl), Tracer.recordChain_cons_error child]
    · rfl
    · rw [Tracer.recordChain_cons_ok parent' rfl, Tracer.record_of_refused hrefused]

end ChainRun

end RuleTrace
