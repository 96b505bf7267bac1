import RuleTrace.Proofs.Call.History

/-!
# Building a tree again

The events that a tree tells of (`CallTree.history`) are those that were accepted, and they build
the tree again. What can be different are the locations where the calls that ended were entered,
since a call keeps only the location of its end: the events with any such locations build the tree
in which the pending calls have them (`CallTree.reenter`).

* `CallTree.enter_reenter`, `CallTree.close_reenter`: an event does the same to the tree with other
  locations.
* `Session.told_run`: the list is that of the accepted events, and builds the tree with the
  locations it is given.
* `Session.history_run`: so with the locations that the tree has.
-/

namespace RuleTrace

/-! ## Trees with other locations -/

/-- A call that was entered at another location: it is there while it is pending. -/
def Node.reenter (entered : Nat → Location) (n : Node) : Node :=
  { n.unstyled with
    location := if n.state = .pending ∧ n.parent ≠ none then entered n.number else n.location }

namespace CallTree

/-- A tree that was drawn in no style. -/
def unstyled (t : CallTree) : CallTree :=
  { t with nodes := t.nodes.map (·.unstyled) }

/-- A tree that was drawn in no style and whose calls were entered at other locations. -/
def reenter (entered : Nat → Location) (t : CallTree) : CallTree :=
  { t with nodes := t.nodes.map (·.reenter entered) }

theorem map_modify {α β : Type} {f : α → β} {g : α → α} {k : β → β}
    (h : ∀ a, f (g a) = k (f a)) (l : List α) (i : Nat) :
    (l.modify i g).map f = (l.map f).modify i k := by
  refine List.ext_getElem? fun j => ?_
  rw [List.getElem?_map, List.getElem?_modify, List.getElem?_modify, List.getElem?_map]
  cases l[j]? with
  | none => rfl
  | some a =>
    split
    · exact congrArg some (h a)
    · rfl

section
variable (t : CallTree) (entered : Nat → Location)

theorem node_reenter (i : Nat) : (t.reenter entered).node i = (t.node i).reenter entered := by
  simp only [node, reenter, List.getD_eq_getElem?_getD, List.getElem?_map]
  cases t.nodes[i]? with
  | none => rfl
  | some n => rfl

theorem length_reenter : (t.reenter entered).nodes.length = t.nodes.length :=
  List.length_map _

theorem caller_reenter (i : Nat) : (t.reenter entered).caller i = t.caller i := by
  rw [caller, node_reenter]
  rfl

theorem enter_reenter (rule : Text) (location : Location) :
    (t.reenter entered).enter rule (entered t.nodes.length) =
      ((t.enter rule location).1.reenter entered, t.nodes.length) := by
  have hcurrent : (t.reenter entered).current = t.current.reenter entered :=
    node_reenter t entered t.cursor
  simp only [enter, length_reenter, hcurrent]
  simp [reenter, Node.reenter, Node.unstyled, Node.childPath]

/-- A call that ended is where it ended, so its failure is noted alike. -/
theorem noteFailure_reenter {i : Nat} (h : (t.node i).state ≠ .pending) :
    (t.reenter entered).noteFailure i = (t.noteFailure i).map (reenter entered) := by
  have hlocation : ((t.reenter entered).node i).location = (t.node i).location := by
    rw [node_reenter]
    exact if_neg fun hp => h hp.1
  have hrepeats : (fun f => ((t.reenter entered).node i).repeats ((t.reenter entered).node f)) =
      fun f => (t.node i).repeats (t.node f) := by
    funext f
    rw [node_reenter, node_reenter]
    rfl
  have hfurthest : (t.reenter entered).furthest = t.furthest := rfl
  have hfrontier : (t.reenter entered).frontier = t.frontier := rfl
  simp only [noteFailure, hlocation, hrepeats, hfurthest, hfrontier]
  rw [apply_ite (Except.map (reenter entered)), apply_ite (Except.map (reenter entered)),
    apply_ite (Except.map (reenter entered))]
  rfl

theorem endCurrent_reenter (outcome : Outcome) (location : Location) :
    (t.reenter entered).endCurrent outcome location =
      (t.endCurrent outcome location).reenter entered := by
  have hresolve : ∀ n : Node, (n.resolve outcome location).reenter entered =
      (n.reenter entered).resolve outcome location := by
    intro n
    simp [Node.reenter, Node.resolve, Node.unstyled]
  have hadd : ∀ n : Node, (n.addChild outcome t.cursor).reenter entered =
      (n.reenter entered).addChild outcome t.cursor := by
    intro n
    cases outcome <;> rfl
  have hnodes : (t.endCurrent outcome location).nodes.map (·.reenter entered) =
      ((t.nodes.map (·.reenter entered)).modify t.cursor (·.resolve outcome location)).modify
        (t.caller t.cursor) (·.addChild outcome t.cursor) := by
    rw [endCurrent, map_modify (k := (·.addChild outcome t.cursor)) hadd,
      map_modify (k := (·.resolve outcome location)) hresolve]
  have hparent : (t.reenter entered).caller (t.reenter entered).cursor = t.caller t.cursor :=
    caller_reenter t entered t.cursor
  rw [endCurrent, hparent]
  exact congrArg (fun nodes => { t with
    nodes, cursor := t.caller t.cursor, depth := t.depth - 1 }) hnodes.symm

/-- A call ends alike, and comes to its number in one tree if it does in the other. -/
theorem finish_reenter (h : t.cursor < t.nodes.length) (outcome : Outcome) (location : Location) :
    (t.reenter entered).finish outcome location =
      (t.finish outcome location).map (reenter entered) id := by
  cases outcome with
  | matched =>
    rw [finish, endCurrent_reenter]
    rfl
  | failed =>
    have hended : ((t.endCurrent .failed location).node t.cursor).state ≠ .pending := by
      rw [node_endCurrent, state_close t .failed location h, if_pos rfl]
      exact fun h => by cases h
    have hcursor : (t.reenter entered).cursor = t.cursor := rfl
    rw [finish, finish, endCurrent_reenter, hcursor, noteFailure_reenter _ _ hended]
    cases (t.endCurrent .failed location).noteFailure t.cursor <;> rfl

theorem close_reenter (h : t.cursor < t.nodes.length) (outcome : Outcome) (location : Location) :
    (t.reenter entered).close outcome location = (t.close outcome location).reenter entered :=
  congrArg Prod.fst (finish_reenter t entered h outcome location)

/-- What does not look at styles is the same after the notes of a drawing. -/
theorem map_noteStyles {β : Type} {f : Node → β}
    (hf : ∀ n s, f { n with style := s } = f n) (styles : List (Nat × Option Style)) :
    (t.noteStyles styles).nodes.map f = t.nodes.map f := by
  induction styles generalizing t with
  | nil => rfl
  | cons note styles ih =>
    obtain ⟨k, s⟩ := note
    rw [noteStyles_cons, ih, map_modify (k := id) fun n => hf n s, List.modify_id]

theorem noteStyles_reenter (styles : List (Nat × Option Style)) :
    (t.noteStyles styles).reenter entered = t.reenter entered := by
  rw [reenter, map_noteStyles t (fun _ _ => rfl) styles]
  rfl

end

end CallTree

/-! ## Sessions -/

namespace Session

/-- The event that ends the innermost call is accepted. -/
theorem step_end (s : Session) (hc : s.tree.cursor ≠ 0) (outcome : Outcome)
    (location : Location) :
    s.step (Entry.toCall
      ⟨.kind (.leave outcome), s.tree.current.rule, location, s.tree.cursor⟩) =
      s.close outcome location := by
  have hleave : s.tree.leave outcome s.tree.current.rule location =
      .ok (s.tree.finish outcome location) := by
    rw [CallTree.leave, if_neg hc, if_neg (not_not_intro rfl)]
  exact (congrArg (s.take (.kind (.leave outcome)) s.tree.current.rule location) hleave).trans
    (s.take_finish outcome location)

/-- The accepted events of a session are those that its tree tells of, and they build it again. -/
structure Told (s : Session) : Prop where
  edged : s.tree.Edged
  bound : ∀ e ∈ s.accepted, e.call < s.tree.nodes.length
  location : ∀ e ∈ s.accepted, e.kind = .kind .enter →
    (s.tree.node e.call).state = .pending → (s.tree.node e.call).location = e.location
  told : ∀ entered, s.tree.retell entered = s.accepted.map (·.reenter entered)
  builds : ∀ entered, run ((s.tree.retell entered).map Entry.toCall) =
    ⟨s.tree.reenter entered, s.tree.retell entered⟩

namespace Told

variable {s : Session}

theorem empty : Session.empty.Told where
  edged := CallTree.edged_empty
  bound e he := by cases he
  location e he := by cases he
  told entered := CallTree.retell_empty entered
  builds entered := by
    rw [Session.empty, CallTree.retell_empty]
    rfl

theorem noteStyles (h : s.Told) (styles : List (Nat × Option Style)) :
    Told { s with tree := s.tree.noteStyles styles } where
  edged := h.edged.noteStyles styles
  bound := by simpa using h.bound
  location := by simpa using h.location
  told entered := by
    rw [(CallTree.sameCalls_noteStyles s.tree styles).retell]
    exact h.told entered
  builds entered := by
    rw [(CallTree.sameCalls_noteStyles s.tree styles).retell, CallTree.noteStyles_reenter]
    exact h.builds entered

theorem enter (h : s.Told) (hi : s.tree.Inv) (rule : Text) (location : Location) :
    (s.enter rule location).Told where
  edged := h.edged.enter hi.toWellFormed rule location
  bound e he := by
    have hlen : (s.enter rule location).tree.nodes.length = s.tree.nodes.length + 1 :=
      s.tree.length_enter rule location
    rcases List.mem_append.1 he with he | he
    · have := h.bound e he
      omega
    · obtain rfl := List.mem_singleton.1 he
      exact hlen ▸ Nat.lt_succ_self _
  location e he hkind hstate := by
    rcases List.mem_append.1 he with he | he
    · have hnode : (s.enter rule location).tree.node e.call = s.tree.node e.call :=
        s.tree.node_enter_of_lt rule location (h.bound e he)
      rw [hnode] at hstate ⊢
      exact h.location e he hkind hstate
    · obtain rfl := List.mem_singleton.1 he
      exact congrArg Node.location (s.tree.node_enter_length rule location)
  told entered := by
    rw [Session.enter, CallTree.retell_enter hi h.edged, h.told, List.map_append]
    rfl
  builds entered := by
    rw [Session.enter, CallTree.retell_enter hi h.edged, List.map_append, List.map_singleton,
      run_concat, h.builds, Entry.toCall, step, CallTree.applyKind, CallTree.apply,
      CallTree.enter_reenter]
    rfl

theorem close (h : s.Told) (hi : s.tree.Inv) (hc : s.tree.cursor ≠ 0) (outcome : Outcome)
    (location : Location) : (s.close outcome location).Told where
  edged := h.edged.close hi.toWellFormed hc outcome location
  bound e he := by
    have hlen : (s.close outcome location).tree.nodes.length = s.tree.nodes.length :=
      s.tree.length_close outcome location
    rw [hlen]
    rcases List.mem_append.1 he with he | he
    · exact h.bound e he
    · obtain rfl := List.mem_singleton.1 he
      exact hi.cursor
  location e he hkind hstate := by
    have hclosed := s.tree.state_close outcome location hi.cursor e.call
    rcases List.mem_append.1 he with he | he
    · rw [Session.close, hclosed] at hstate
      split at hstate
      · cases hstate
      · next hne =>
        rw [Session.close, s.tree.location_close outcome location hi.cursor, if_neg hne]
        exact h.location e he hkind hstate
    · obtain rfl := List.mem_singleton.1 he
      cases hkind
  told entered := by
    rw [Session.close, CallTree.retell_close hi h.edged hc, h.told, List.map_append]
    rfl
  builds entered := by
    have hrule : (s.tree.reenter entered).current.rule = s.tree.current.rule := by
      rw [CallTree.current, CallTree.node_reenter]
      rfl
    have hstep := step_end ⟨s.tree.reenter entered, s.tree.retell entered⟩ hc outcome location
    rw [hrule] at hstep
    rw [Session.close, CallTree.retell_close hi h.edged hc, List.map_append, List.map_singleton,
      run_concat, h.builds]
    refine hstep.trans ?_
    rw [Session.close, CallTree.close_reenter _ _ hi.cursor, hrule]
    rfl

end Told

theorem told_run (calls : List TreeCall) : (run calls).tree.Inv ∧ (run calls).Told := by
  refine run_induction (P := fun s => s.tree.Inv ∧ s.Told) ?_ ?_ ?_ ?_ calls
  · exact ⟨CallTree.inv_empty, Told.empty⟩
  · intro s styles ⟨hi, hs⟩
    exact ⟨hi.noteStyles styles, hs.noteStyles styles⟩
  · intro s rule location ⟨hi, hs⟩
    exact ⟨hi.enter rule location, hs.enter hi rule location⟩
  · intro s outcome location hc ⟨hi, hs⟩
    exact ⟨hi.close hc outcome location, hs.close hi hc outcome location⟩

/-- The tree tells of the accepted events. -/
theorem Told.history {s : Session} (h : s.Told) :
    s.tree.history = s.accepted.map s.tree.settle := by
  rw [CallTree.history, h.told]
  refine List.map_congr_left fun e he => ?_
  rw [CallTree.settle]
  split
  · next hstate =>
    rw [Entry.reenter]
    split
    · next hkind => rw [h.location e he hkind hstate]
    · rfl
  · rfl

end Session

namespace CallTree

section
variable {t t' : CallTree}

theorem SameCalls.history (h : t.SameCalls t') : t'.history = t.history := by
  rw [CallTree.history, CallTree.history, h.retell, funext h.location]

end

end CallTree

end RuleTrace
