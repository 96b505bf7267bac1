import RuleTrace.Proofs.Call.Frontier
import RuleTrace.Proofs.Call.Nested

/-!
# Where calls start

A call tells where it was entered until it ends, and where the event that ended it starts from then
on. When every rule is left at the place where it was entered, this is one place.

* `CallTree.starts`: where the calls of a tree start, by number. `starts_enter` and `starts_close`
  say what an event does to them.
* `Nested.started`: after the events of calls these are the places of the enter events, in their
  order, and the furthest failure is at one of them.
-/

namespace RuleTrace

/-- The offsets where the enter events among some events start. -/
def enterOffsets (es : List Event) : List Int :=
  (es.filter (·.kind = .enter)).map (·.location.start.offset)

theorem enterOffsets_append (es fs : List Event) :
    enterOffsets (es ++ fs) = enterOffsets es ++ enterOffsets fs := by
  rw [enterOffsets, List.filter_append, List.map_append, enterOffsets, enterOffsets]

namespace CallTree

/-- The offsets where the calls of a tree start, by number. -/
def starts (t : CallTree) : List Int :=
  (List.range t.nodes.length).map fun i => (t.node i).location.start.offset

theorem mem_starts {t : CallTree} {o : Int} :
    o ∈ t.starts ↔ ∃ i < t.nodes.length, (t.node i).location.start.offset = o := by
  simp only [starts, List.mem_map, List.mem_range]

theorem length_starts (t : CallTree) : t.starts.length = t.nodes.length := by
  rw [starts, List.length_map, List.length_range]

theorem pairwise_starts {t : CallTree} (h : t.starts.Pairwise (· ≤ ·)) {i j : Nat} (hij : i ≤ j)
    (hj : j < t.nodes.length) :
    (t.node i).location.start.offset ≤ (t.node j).location.start.offset := by
  rcases Nat.eq_or_lt_of_le hij with rfl | hlt
  · exact Int.le_refl _
  · have hlength := t.length_starts
    have hle := List.pairwise_iff_getElem.1 h i j (by omega) (by omega) hlt
    simpa only [starts, List.getElem_map, List.getElem_range] using hle

theorem starts_empty : empty.starts = [0] := rfl

theorem starts_enter (t : CallTree) (rule : Text) (location : Location) :
    (t.enter rule location).1.starts = t.starts ++ [location.start.offset] := by
  rw [starts, length_enter, List.range_succ, List.map_append, List.map_singleton,
    node_enter_length, starts]
  congr 1
  refine List.map_congr_left fun i hi => ?_
  rw [node_enter_of_lt _ _ _ (List.mem_range.1 hi)]

/-- A call that ends where it was entered starts where it did. -/
theorem starts_close {t : CallTree} (h : t.cursor < t.nodes.length) {location : Location}
    (hstart : t.current.location.start.offset = location.start.offset) (outcome : Outcome) :
    (t.close outcome location).starts = t.starts := by
  rw [starts, length_close, starts]
  refine List.map_congr_left fun i _ => ?_
  rw [location_close _ _ _ h]
  split
  · next hi => rw [← hstart, hi, current]
  · rfl

/-- What events do to where the calls of a tree start, and to the furthest failure. -/
structure Started (t v : CallTree) (es : List Event) : Prop where
  starts : v.starts = t.starts ++ enterOffsets es
  furthest : v.furthest = t.furthest ∨ v.furthest ∈ enterOffsets es

theorem Started.refl (t : CallTree) : t.Started t [] where
  starts := (List.append_nil _).symm
  furthest := .inl rfl

theorem Started.trans {t u v : CallTree} {es fs : List Event} (h : t.Started u es)
    (h' : u.Started v fs) : t.Started v (es ++ fs) where
  starts := by rw [h'.starts, h.starts, enterOffsets_append, List.append_assoc]
  furthest := by
    rw [enterOffsets_append, List.mem_append]
    rcases h'.furthest with heq | hmem
    · rw [heq]
      exact h.furthest.imp_right .inl
    · exact .inr (.inr hmem)

theorem started_enter (t : CallTree) (rule : Text) (location : Location) :
    t.Started (t.enter rule location).1 [⟨.enter, rule, location⟩] where
  starts := t.starts_enter rule location
  furthest := .inl rfl

theorem furthest_close {t : CallTree} (h : t.cursor < t.nodes.length) (outcome : Outcome)
    (location : Location) : (t.close outcome location).furthest = t.furthest ∨
      (t.close outcome location).furthest = location.start.offset := by
  cases outcome with
  | matched => exact .inl rfl
  | failed =>
    rw [furthest_close_failed _ _ h]
    omega

/-- The events of one call that ends where it was entered. -/
theorem Grown.started {P : EndedCall → List EndedCall → Prop} {t u : CallTree} {c : EndedCall}
    {callees : List EndedCall} {below : List Event} (ht : t.Inv)
    (hu : (t.enter c.rule c.entered).1.Grown P u callees)
    (hstart : c.entered.start.offset = c.location.start.offset)
    (h : (t.enter c.rule c.entered).1.Started u below) :
    t.Started (u.close c.outcome c.location) (c.enter :: (below ++ [c.leave])) := by
  obtain ⟨hcursor, hlength, -⟩ := hu.entered ht
  have hlt : u.cursor < u.nodes.length := by omega
  obtain ⟨hstarts, hfurthest⟩ := (t.started_enter c.rule c.entered).trans h
  have hcurrent : u.current.location.start.offset = c.location.start.offset := by
    -- the innermost pending call is the new one, which comes next after the calls before it
    have hget : u.starts[t.nodes.length]? = some u.current.location.start.offset := by
      rw [CallTree.current, hcursor, CallTree.starts, List.getElem?_map,
        List.getElem?_range hlength]
      rfl
    rw [hstarts, List.getElem?_append_right (Nat.le_of_eq t.length_starts), length_starts,
      Nat.sub_self] at hget
    exact (Option.some.inj hget).symm.trans hstart
  have hoffsets : enterOffsets (c.enter :: (below ++ [c.leave])) =
      enterOffsets ([c.enter] ++ below) := by
    simp [enterOffsets, EndedCall.enter, EndedCall.leave]
  refine ⟨?_, ?_⟩
  · rw [starts_close hlt hcurrent, hoffsets]
    exact hstarts
  · rw [hoffsets]
    rcases furthest_close hlt c.outcome c.location with heq | heq
    · rw [heq]
      exact hfurthest
    · rw [heq, ← hstart]
      exact .inr List.mem_cons_self

end CallTree

/-- After the events of calls that end where they were entered, the calls start where the enter
events say, and the furthest failure is where it was or at one of these places. -/
theorem Nested.started {P : EndedCall → List EndedCall → Prop}
    (hP : ∀ c callees, P c callees → c.entered.start.offset = c.location.start.offset)
    {es : List Event} {calls : List EndedCall} (h : Nested P es calls) {t v : CallTree} (ht : t.Inv)
    (hv : t.applyAll es = .ok v) : t.Started v es := by
  induction h generalizing t v with
  | nil =>
    obtain rfl := Except.ok.inj hv
    exact .refl t
  | @call c callees calls below after hc hbelow _ ihbelow ihafter =>
    have henter := ht.enter c.rule c.entered
    obtain ⟨u, hu, hgrown⟩ := hbelow.applyAll henter
    have hcall := hgrown.applyAll ht hu
    have hsplit : c.enter :: (below ++ c.leave :: after) =
        (c.enter :: (below ++ [c.leave])) ++ after := by simp
    rw [hsplit, CallTree.applyAll_append hcall] at hv
    rw [hsplit]
    have hstarted := hgrown.started ht (hP _ _ hc) (ihbelow henter hu)
    exact hstarted.trans (ihafter (hgrown.close ht hc).inv hv)

/-- So it is for a tree that was empty: its root is at the start. -/
theorem CallTree.Started.furthest_mem {v : CallTree} {es : List Event}
    (h : CallTree.empty.Started v es) : v.furthest ∈ v.starts := by
  rw [h.starts]
  rcases h.furthest with heq | hmem
  · rw [heq]
    exact List.mem_cons_self
  · exact List.mem_append_right _ hmem

end RuleTrace
