import Mathlib.Data.List.Forall2
import RuleTrace.Proofs.Call.WellFormed

/-!
# The tree of nested calls

The events of a parser that leaves every rule that it enters, the innermost one first, are those of
calls with calls nested in them (`Nested`). A call tree takes all of them, and they leave the
pending calls as they were. Each call is in the tree then, and the calls made by it are listed with
it in their order (`CallTree.Represents`).

* `CallTree.Grown.close`: the tree in which a call ended.
* `CallTree.applyAll_call`: what the events of one call do to a tree.
* `Nested.applyAll`: what the events of calls one after the other do.
-/

namespace RuleTrace

/-! ## Calls in calls -/

/-- A call that ended: its rule, where it was entered, and where and how it ended. -/
structure EndedCall where
  rule : Text
  entered : Location
  location : Location
  outcome : Outcome

namespace EndedCall

/-- The event that enters the rule. -/
def enter (c : EndedCall) : Event :=
  ⟨.enter, c.rule, c.entered⟩

/-- The event that leaves the rule. -/
def leave (c : EndedCall) : Event :=
  ⟨.leave c.outcome, c.rule, c.location⟩

/-- The calls of a list that ended with an outcome. -/
def withOutcome (calls : List EndedCall) (o : Outcome) : List EndedCall :=
  calls.filter (·.outcome = o)

end EndedCall

section
variable (P : EndedCall → List EndedCall → Prop)

/-- The events are those of the calls, one after the other, with the events of the calls made by a
call inside its own. Between a call and the calls made by it is the given relation. -/
inductive Nested : List Event → List EndedCall → Prop
  | nil : Nested [] []
  | call {c : EndedCall} {callees calls : List EndedCall} {below after : List Event} :
    P c callees → Nested below callees → Nested after calls →
    Nested (c.enter :: (below ++ c.leave :: after)) (c :: calls)

variable {P} in
theorem Nested.append {es fs : List Event} {calls more : List EndedCall} (h : Nested P es calls)
    (h' : Nested P fs more) : Nested P (es ++ fs) (calls ++ more) := by
  induction h with
  | nil => exact h'
  | call hc hbelow _ _ ih => simpa using Nested.call hc hbelow ih

variable {P} in
/-- Every event enters or leaves a call that is in the relation with the calls made by it. -/
theorem Nested.forall_events {Q : Event → Prop} {es : List Event} {calls : List EndedCall}
    (hQ : ∀ c callees, P c callees → Q c.enter ∧ Q c.leave) (h : Nested P es calls) :
    ∀ e ∈ es, Q e := by
  induction h with
  | nil => simp
  | call hc _ _ ihbelow ihafter =>
    obtain ⟨henter, hleave⟩ := hQ _ _ hc
    rw [List.forall_mem_cons, List.forall_mem_append, List.forall_mem_cons]
    exact ⟨henter, ihbelow, hleave, ihafter⟩

namespace CallTree

/-- Whether the call with a number is the given one. -/
structure Holds (t : CallTree) (i : Nat) (c : EndedCall) : Prop where
  rule : (t.node i).rule = c.rule
  location : (t.node i).location = c.location
  state : (t.node i).state = .resolved c.outcome

/-- The call with a number is one that is in the relation with the calls made by it, and these are
listed with it by outcome and in order. -/
def Represents (t : CallTree) (i : Nat) : Prop :=
  ∃ c callees, t.Holds i c ∧ P c callees ∧
    ∀ o, List.Forall₂ t.Holds ((t.node i).ended o) (EndedCall.withOutcome callees o)

/-- The tree after some events, up to the first one that is refused. -/
def applyAll (t : CallTree) : List Event → Except CallError CallTree
  | [] => .ok t
  | e :: es => do
    let (tree, _) ← t.apply e
    tree.applyAll es

theorem applyAll_append {t t' : CallTree} {es : List Event} (h : t.applyAll es = .ok t')
    (fs : List Event) : t.applyAll (es ++ fs) = t'.applyAll fs := by
  induction es generalizing t with
  | nil =>
    cases h
    rfl
  | cons e es ih =>
    rw [applyAll] at h
    rw [List.cons_append, applyAll]
    cases happly : t.apply e with
    | error err =>
      rw [happly] at h
      cases h
    | ok after =>
      rw [happly] at h
      exact ih h

/-- What the events of calls do to a tree: the calls before stay as they were, but the innermost
pending one lists the new calls, each new call is in the tree, and the same calls are pending. -/
structure Grown (t t' : CallTree) (calls : List EndedCall) : Prop where
  inv : t'.Inv
  cursor : t'.cursor = t.cursor
  depth : t'.depth = t.depth
  length : t.nodes.length ≤ t'.nodes.length
  old : ∀ i < t.nodes.length, i ≠ t.cursor → t'.node i = t.node i
  current : (t'.node t.cursor).origin = (t.node t.cursor).origin
  listed : ∀ o, ∃ numbers, (t'.node t.cursor).ended o = (t.node t.cursor).ended o ++ numbers ∧
    List.Forall₂ t'.Holds numbers (EndedCall.withOutcome calls o) ∧
    ∀ i ∈ numbers, t.nodes.length ≤ i
  new : ∀ i, t.nodes.length ≤ i → i < t'.nodes.length → t'.Represents P i

variable {P}

theorem Grown.refl {t : CallTree} (h : t.Inv) : t.Grown P t [] where
  inv := h
  cursor := rfl
  depth := rfl
  length := Nat.le_refl _
  old _ _ _ := rfl
  current := rfl
  listed o := ⟨[], (List.append_nil _).symm, .nil, by simp⟩
  new i hi hlt := absurd hlt (Nat.not_lt.2 hi)

/-- Calls that are as they were in another tree are those that they were there. -/
theorem forall₂_holds_congr {t t' : CallTree} {numbers : List Nat} {calls : List EndedCall}
    (h : List.Forall₂ t.Holds numbers calls) (hnode : ∀ i ∈ numbers, t'.node i = t.node i) :
    List.Forall₂ t'.Holds numbers calls := by
  induction h with
  | nil => exact .nil
  | cons hc _ ih =>
    rw [List.forall_mem_cons] at hnode
    exact .cons ⟨by rw [hnode.1, hc.rule], by rw [hnode.1, hc.location], by rw [hnode.1, hc.state]⟩
      (ih hnode.2)

/-- A call stays in the tree while it and the calls listed with it stay as they are. -/
theorem Represents.congr {t t' : CallTree} {i : Nat} (h : t.Represents P i)
    (hnode : t'.node i = t.node i)
    (hlisted : ∀ o, ∀ j ∈ (t.node i).ended o, t'.node j = t.node j) : t'.Represents P i := by
  obtain ⟨c, callees, hc, hP, hcallees⟩ := h
  refine ⟨c, callees, ?_, hP, fun o => ?_⟩
  · exact ⟨by rw [hnode, hc.rule], by rw [hnode, hc.location], by rw [hnode, hc.state]⟩
  · rw [hnode]
    exact forall₂_holds_congr (hcallees o) (hlisted o)

/-- New calls stay in the tree while only the calls up to the innermost pending one change. -/
theorem Represents.of_le {t t' : CallTree} (ht : t.Inv) {k i : Nat}
    (hnode : ∀ j, k ≤ j → j < t.nodes.length → t'.node j = t.node j) (hk : k ≤ i)
    (hi : i < t.nodes.length) (h : t.Represents P i) : t'.Represents P i := by
  refine h.congr (hnode i hk hi) fun o j hj => ?_
  obtain ⟨hlt, -, hparent⟩ := ht.only i hi o j hj
  have := ht.lt_of_parent_eq hparent
  exact hnode j (by omega) hlt

theorem Grown.trans {t u v : CallTree} {calls more : List EndedCall} (ht : t.Inv)
    (h : t.Grown P u calls) (h' : u.Grown P v more) : t.Grown P v (calls ++ more) := by
  have hcursor := ht.cursor
  have hkept : ∀ i, t.nodes.length ≤ i → i < u.nodes.length → v.node i = u.node i :=
    fun i hi hlt => h'.old i hlt (by rw [h.cursor]; omega)
  have hcurrent := h'.current
  rw [h.cursor] at hcurrent
  refine
    { inv := h'.inv
      cursor := h'.cursor.trans h.cursor
      depth := h'.depth.trans h.depth
      length := Nat.le_trans h.length h'.length
      old := fun i hi hne => ?_
      current := hcurrent.trans h.current
      listed := fun o => ?_
      new := fun i hi hlt => ?_ }
  · rw [h'.old i (Nat.lt_of_lt_of_le hi h.length) (by rwa [h.cursor]), h.old i hi hne]
  · obtain ⟨numbers, hnumbers, hcalls, hle⟩ := h.listed o
    obtain ⟨later, hlater, hmore, hle'⟩ := h'.listed o
    rw [h.cursor, hnumbers, List.append_assoc] at hlater
    refine ⟨numbers ++ later, hlater, ?_, fun i hi => ?_⟩
    · rw [EndedCall.withOutcome, List.filter_append]
      refine List.rel_append (forall₂_holds_congr hcalls fun i hi => ?_) hmore
      have hlisted : i ∈ (u.node t.cursor).ended o := by
        rw [hnumbers]
        exact List.mem_append_right _ hi
      exact hkept i (hle i hi)
        (h.inv.only t.cursor (Nat.lt_of_lt_of_le hcursor h.length) o i hlisted).1
    · rcases List.mem_append.1 hi with hi | hi
      · exact hle i hi
      · exact Nat.le_trans h.length (hle' i hi)
  · rcases Nat.lt_or_ge i u.nodes.length with hlt' | hge
    · exact (h.new i hi hlt').of_le h.inv hkept hi hlt'
    · exact h'.new i hge hlt

section
variable {t u : CallTree} (ht : t.Inv) {c : EndedCall} {callees : List EndedCall}
  (hu : (t.enter c.rule c.entered).1.Grown P u callees)
include ht hu

/-- When the calls made by a new call have ended, the call itself is as it was entered. -/
theorem Grown.entered :
    u.cursor = t.nodes.length ∧ t.nodes.length < u.nodes.length ∧ u.caller u.cursor = t.cursor ∧
      u.current.rule = c.rule ∧
      (∀ i < t.nodes.length, u.node i = t.node i) ∧
      ∀ o, ∃ numbers, (u.node t.nodes.length).ended o = numbers ∧
        List.Forall₂ u.Holds numbers (EndedCall.withOutcome callees o) ∧
        ∀ i ∈ numbers, t.nodes.length < i := by
  have hcursor : u.cursor = t.nodes.length := hu.cursor
  have hlength := hu.length
  rw [length_enter] at hlength
  have hnew := t.node_enter_length c.rule c.entered
  have horigin : (u.node t.nodes.length).origin =
      (t.nodes.length, t.current.childPath, c.rule, some t.current.number) := by
    rw [show (u.node t.nodes.length).origin = _ from hu.current,
      show (t.enter c.rule c.entered).1.node (t.enter c.rule c.entered).1.cursor = _ from hnew]
    rfl
  have hparent : (u.node t.nodes.length).parent = some t.cursor := by
    rw [show (u.node t.nodes.length).parent = _ from congrArg (·.2.2.2) horigin, CallTree.current,
      ht.number _ ht.cursor]
  refine ⟨hcursor, hlength, ?_, ?_, fun i hi => ?_, fun o => ?_⟩
  · rw [hcursor, caller_of_parent hparent]
  · rw [CallTree.current, hcursor]
    exact congrArg (·.2.2.1) horigin
  · have hne : i ≠ (t.enter c.rule c.entered).1.cursor := Nat.ne_of_lt hi
    rw [hu.old i (by rw [length_enter]; omega) hne, node_enter_of_lt t c.rule c.entered hi]
  · obtain ⟨numbers, hnumbers, hcalls, hle⟩ := hu.listed o
    refine ⟨numbers, ?_, hcalls, fun i hi => ?_⟩
    · rw [show (u.node t.nodes.length).ended o = _ from hnumbers,
        show (t.enter c.rule c.entered).1.node (t.enter c.rule c.entered).1.cursor = _ from hnew]
      cases o <;> rfl
    · have := hle i hi
      rw [length_enter] at this
      exact this

/-- When the new call ends, it is listed by the call that made it. -/
theorem Grown.ended_close (i : Nat) (o : Outcome) :
    ((u.close c.outcome c.location).node i).ended o =
      (u.node i).ended o ++ if i = t.cursor ∧ o = c.outcome then [t.nodes.length] else [] := by
  obtain ⟨hcursor, hlength, hcaller, -⟩ := hu.entered ht
  have hinner := ht.cursor
  rw [u.ended_close c.outcome c.location (by rw [hcaller]; omega), hcaller, hcursor]
  split
  · rfl
  · rw [List.append_nil]

/-- When the new call ends, it comes last in the list of the call that made it. -/
theorem Grown.listed_close (o : Outcome) :
    ((u.close c.outcome c.location).node t.cursor).ended o =
      (t.node t.cursor).ended o ++ if o = c.outcome then [t.nodes.length] else [] := by
  obtain ⟨-, -, -, -, hold, -⟩ := hu.entered ht
  rw [hu.ended_close ht, hold _ ht.cursor]
  simp

/-- When the new call ends, only that call and the one that made it change. -/
theorem Grown.node_close {i : Nat} (hi : i < u.nodes.length) (hcurrent : i ≠ t.cursor)
    (hnew : i ≠ t.nodes.length) : (u.close c.outcome c.location).node i = u.node i := by
  obtain ⟨hcursor, -, hcaller, -⟩ := hu.entered ht
  rw [u.node_close c.outcome c.location hi, hcaller, hcursor, if_neg hcurrent, if_neg hnew]

/-- When the new call ends, it is in the tree. -/
theorem Grown.holds_close : (u.close c.outcome c.location).Holds t.nodes.length c := by
  obtain ⟨hcursor, -, -, hrule, -⟩ := hu.entered ht
  refine ⟨?_, ?_, ?_⟩
  · rw [close_rule, ← hcursor]
    exact hrule
  · rw [u.location_close c.outcome c.location hu.inv.cursor, hcursor, if_pos rfl]
  · rw [u.state_close c.outcome c.location hu.inv.cursor, hcursor, if_pos rfl]

/-- When the new call ends, the calls from its number on tell what was to be told. -/
theorem Grown.represents_close (hc : P c callees) {i : Nat} (hi : t.nodes.length ≤ i)
    (hlt : i < u.nodes.length) : (u.close c.outcome c.location).Represents P i := by
  obtain ⟨-, hlength, -, -, -, hlisted⟩ := hu.entered ht
  have hinner := ht.cursor
  rcases Nat.lt_or_ge t.nodes.length i with hgt | hle
  · -- a call made by the new one, which the end of the new one leaves as it is
    have hafter : ∀ j, t.nodes.length + 1 ≤ j → j < u.nodes.length →
        (u.close c.outcome c.location).node j = u.node j := fun j hj hlt =>
      hu.node_close ht hlt (by omega) (by omega)
    exact (hu.new i (by rw [length_enter]; exact hgt) hlt).of_le hu.inv hafter hgt hlt
  · obtain rfl : i = t.nodes.length := by omega
    refine ⟨c, callees, hu.holds_close ht, hc, fun o => ?_⟩
    obtain ⟨numbers, hnumbers, hcallees, hle'⟩ := hlisted o
    rw [hu.ended_close ht, hnumbers, if_neg (fun h => by omega), List.append_nil]
    refine forall₂_holds_congr hcallees fun j hj => ?_
    have hin : j ∈ (u.node t.nodes.length).ended o := hnumbers ▸ hj
    have := hle' j hj
    exact hu.node_close ht (hu.inv.only _ hlength o j hin).1 (by omega) (by omega)

/-- The tree in which a new call and the calls made by it have ended. -/
theorem Grown.close (hc : P c callees) : t.Grown P (u.close c.outcome c.location) [c] where
  inv := by
    obtain ⟨hcursor, -⟩ := hu.entered ht
    have hpos := ht.nonempty
    exact hu.inv.close (by omega) c.outcome c.location
  cursor := by
    obtain ⟨-, -, hcaller, -⟩ := hu.entered ht
    rw [close_cursor, hcaller]
  depth := by
    rw [close_depth, hu.depth]
    rfl
  length := by
    obtain ⟨-, hlength, -⟩ := hu.entered ht
    rw [length_close]
    omega
  old i hi hne := by
    obtain ⟨-, hlength, -, -, hold, -⟩ := hu.entered ht
    rw [hu.node_close ht (by omega) hne (by omega), hold i hi]
  current := by
    obtain ⟨-, -, -, -, hold, -⟩ := hu.entered ht
    rw [origin_close, hold _ ht.cursor]
  listed o := by
    refine ⟨_, hu.listed_close ht o, ?_, fun i hi => ?_⟩
    · by_cases ho : o = c.outcome
      · subst ho
        simpa [EndedCall.withOutcome] using hu.holds_close ht
      · simp [EndedCall.withOutcome, ho, Ne.symm ho]
    · split at hi
      · exact Nat.le_of_eq (List.mem_singleton.1 hi).symm
      · cases hi
  new i hi hlt := hu.represents_close ht hc hi (by rwa [length_close] at hlt)

/-- The event that leaves the new call ends it. -/
theorem Grown.apply_leave :
    u.apply c.leave = .ok (u.finish c.outcome c.location) := by
  obtain ⟨hcursor, -, -, hrule, -⟩ := hu.entered ht
  have hpos := ht.nonempty
  show u.leave c.outcome c.rule c.location = _
  rw [leave, if_neg (by omega), if_neg (not_not.2 hrule)]

/-- The events of one call, with those of the calls made by it. -/
theorem Grown.applyAll {below : List Event}
    (hbelow : (t.enter c.rule c.entered).1.applyAll below = .ok u) :
    t.applyAll (c.enter :: (below ++ [c.leave])) = .ok (u.close c.outcome c.location) := by
  show (t.enter c.rule c.entered).1.applyAll (below ++ [c.leave]) = _
  rw [applyAll_append hbelow, CallTree.applyAll, hu.apply_leave ht]
  rfl

/-- The tree after the events of one call: the call has the next number, and the innermost pending
call lists it. -/
theorem applyAll_call (hc : P c callees) {below : List Event}
    (hbelow : (t.enter c.rule c.entered).1.applyAll below = .ok u) :
    ∃ v, t.applyAll (c.enter :: (below ++ [c.leave])) = .ok v ∧ t.Grown P v [c] ∧
      v.Holds t.nodes.length c ∧ ∀ o, (v.node t.cursor).ended o =
        (t.node t.cursor).ended o ++ if o = c.outcome then [t.nodes.length] else [] :=
  ⟨_, hu.applyAll ht hbelow, hu.close ht hc, hu.holds_close ht, hu.listed_close ht⟩

end

end CallTree

variable {P} in
/-- A tree takes the events of calls, and has the calls then. -/
theorem Nested.applyAll {es : List Event} {calls : List EndedCall} (h : Nested P es calls)
    {t : CallTree} (ht : t.Inv) : ∃ v, t.applyAll es = .ok v ∧ t.Grown P v calls := by
  induction h generalizing t with
  | nil => exact ⟨t, rfl, .refl ht⟩
  | @call c callees calls below after hc _ _ ihbelow ihafter =>
    obtain ⟨u, hbelow, hu⟩ := ihbelow (ht.enter c.rule c.entered)
    obtain ⟨v, hcall, hv, -, -⟩ := CallTree.applyAll_call ht hu hc hbelow
    obtain ⟨w, hafter, hw⟩ := ihafter hv.inv
    refine ⟨w, ?_, hv.trans ht hw⟩
    have hsplit := CallTree.applyAll_append hcall after
    rw [hafter] at hsplit
    simpa using hsplit

end

end RuleTrace
