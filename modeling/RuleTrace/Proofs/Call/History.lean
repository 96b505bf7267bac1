import Mathlib.Data.List.Forall2
import RuleTrace.Proofs.Call.WellFormed

/-!
# The events of a tree

A call tree keeps no list of the events that built it, but nothing of them is lost save where the
calls that ended were entered. `CallTree.history` makes the list from the calls and the cursor: each
call is entered after the calls on the way from the one before it up to its caller have ended, and
after the last call those on the way up to the cursor ended. It works since the calls that are
pending are all on the way up from the last call (`CallTree.Edged`).

* `CallTree.retell_enter`, `CallTree.retell_close`: what an accepted event adds to the list.
* `CallTree.SameCalls.retell`: styles have no part in it.
-/

namespace RuleTrace

/-- An event as it is put to a tree. -/
def Entry.toCall (e : Entry) : TreeCall :=
  .apply e.kind e.rule e.location

/-- An entry with another location if it is that of an enter event. -/
def Entry.reenter (entered : Nat → Location) (e : Entry) : Entry :=
  if e.kind = .kind .enter then { e with location := entered e.call } else e

namespace CallTree

/-! ## The list of events -/

section
variable (t : CallTree) (entered : Nat → Location)

/-- The enter event of a call at a location. -/
def enterEntry (i : Nat) : Entry :=
  ⟨.kind .enter, (t.node i).rule, entered i, i⟩

/-- The event that ended a call, if one did. -/
def endEvent? (i : Nat) : Option Entry :=
  match (t.node i).state with
  | .pending => none
  | .resolved o => some ⟨.kind (.leave o), (t.node i).rule, (t.node i).location, i⟩

/-- The ends of the calls from one up to another one, which is left out. -/
def ends (i above : Nat) : List Entry :=
  ((t.chain i).takeWhile (· ≠ above)).filterMap t.endEvent?

/-- The events up to the one that enters the call with a number. -/
def retellTo : Nat → List Entry
  | 0 => []
  | i + 1 => retellTo i ++ t.ends i (t.caller (i + 1)) ++ [t.enterEntry entered (i + 1)]

/-- All events, with the given locations of those that enter a call. -/
def retell : List Entry :=
  t.retellTo entered t.callCount ++ t.ends t.callCount t.cursor

/-- All events that the tree tells of. A call is entered where it was last known to be. -/
def history : List Entry :=
  t.retell fun i => (t.node i).location

/-- An event as the tree tells of it: a call that ended was entered where it ended. -/
def settle (e : Entry) : Entry :=
  if (t.node e.call).state = .pending then e
  else e.reenter fun i => (t.node i).location

end

/-! ## The last call and the cursor -/

/-- Every call was entered by one that was pending then: one on the way up from the call before it.
Those that are pending are not among the ones that ended on this way. -/
structure Edged (t : CallTree) : Prop where
  last : ∃ ended, t.chain t.callCount = ended ++ t.pending
  between : ∀ i < t.callCount, ∃ ended, t.chain i = ended ++ t.chain (t.caller (i + 1)) ∧
    ∀ j ∈ ended, j ∉ t.pending

section
variable {t : CallTree}

/-- A chain goes down. -/
theorem pairwise_chain (t : CallTree) (i : Nat) : (t.chain i).Pairwise (· > ·) := by
  induction i using Nat.strongRecOn with
  | _ i ih =>
    rw [chain]
    split
    · exact .nil
    · refine .cons (fun j hj => ?_) ?_
      · split at hj
        · next hlt => exact Nat.lt_of_le_of_lt (pos_le_of_mem_chain hj).2 hlt
        · cases hj
      · split
        · next hlt => exact ih _ hlt
        · exact .nil

/-- What comes before the chain of a call in a longer chain is not in it. -/
theorem notMem_of_chain_eq {i k : Nat} {ended : List Nat}
    (h : t.chain i = ended ++ t.chain k) {j : Nat} (hj : j ∈ ended) : j ∉ t.chain k := by
  have hpair := t.pairwise_chain i
  rw [h] at hpair
  exact fun hk => Nat.lt_irrefl j ((List.pairwise_append.1 hpair).2.2 j hj j hk)

theorem ends_eq (h : t.WellFormed) {i above : Nat} {ended : List Nat}
    (hi : t.chain i = ended ++ t.chain above) :
    t.ends i above = ended.filterMap t.endEvent? := by
  have hended : ∀ j ∈ ended, decide (j ≠ above) = true := by
    intro j hj
    rw [decide_eq_true_eq]
    rintro rfl
    have hpos : 0 < j := (pos_le_of_mem_chain (hi ▸ List.mem_append_left _ hj)).1
    refine notMem_of_chain_eq hi hj ?_
    rw [h.chain_of_ne_zero (Nat.ne_of_gt hpos)]
    exact List.mem_cons_self
  have hstop : (t.chain above).takeWhile (decide <| · ≠ above) = [] := by
    by_cases h0 : above = 0
    · rw [h0, chain_zero]
      rfl
    · rw [h.chain_of_ne_zero h0]
      simp
  rw [ends, hi, List.takeWhile_append_of_pos hended, hstop, List.append_nil]

theorem edged_empty : empty.Edged where
  last := ⟨[], rfl⟩
  between _ hi := absurd hi (by simp [empty, callCount])

theorem Edged.noteStyles (h : t.Edged) (styles : List (Nat × Option Style)) :
    (t.noteStyles styles).Edged := by
  have hcount : (t.noteStyles styles).callCount = t.callCount := by
    rw [callCount, length_noteStyles]
    rfl
  refine ⟨?_, ?_⟩
  · simpa [hcount, pending] using h.last
  · simpa [hcount, pending] using h.between

theorem callCount_enter (h : t.WellFormed) (rule : Text) (location : Location) :
    (t.enter rule location).1.callCount = t.callCount + 1 := by
  have := h.nonempty
  rw [callCount, length_enter, callCount]
  omega

theorem length_eq_callCount (h : t.WellFormed) : t.nodes.length = t.callCount + 1 := by
  have := h.nonempty
  rw [callCount]
  omega

theorem Edged.enter (h : t.Edged) (ht : t.WellFormed) (rule : Text) (location : Location) :
    (t.enter rule location).1.Edged := by
  have hlen := length_eq_callCount ht
  have hcount := callCount_enter ht rule location
  have hpend := ht.pending_enter rule location
  have hchain : ∀ i ≤ t.callCount, (t.enter rule location).1.chain i = t.chain i := fun i hi =>
    chain_enter_of_lt t rule location (by omega)
  refine ⟨⟨[], ?_⟩, fun i hi => ?_⟩
  · rw [hcount, ← hlen]
    rfl
  · rw [hcount] at hi
    -- the new call is pending, and its number is above those of the calls before it
    have hnew : ∀ ended above, t.chain i = ended ++ above → (∀ j ∈ ended, j ∉ t.pending) →
        ∀ j ∈ ended, j ∉ (t.enter rule location).1.pending := by
      intro ended above heq hnot j hj hm
      rw [hpend, List.mem_cons] at hm
      rcases hm with rfl | hm
      · have := (pos_le_of_mem_chain (heq ▸ List.mem_append_left above hj)).2
        omega
      · exact hnot j hj hm
    rcases Nat.lt_or_ge i t.callCount with hlt | hge
    · obtain ⟨ended, heq, hnot⟩ := h.between i hlt
      have hcaller : t.caller (i + 1) < i + 1 := ht.caller_lt (Nat.succ_ne_zero i)
      refine ⟨ended, ?_, hnew ended _ heq hnot⟩
      rw [hchain i (by omega), heq, caller_enter_of_lt t rule location (by omega),
        hchain _ (by omega)]
    · obtain rfl : i = t.callCount := by omega
      obtain ⟨ended, heq⟩ := h.last
      refine ⟨ended, ?_, hnew ended _ heq fun j hj => notMem_of_chain_eq heq hj⟩
      rw [hchain _ (Nat.le_refl _), heq, ← hlen, ht.caller_enter_length,
        chain_enter_of_lt t rule location ht.cursor, pending]

theorem callCount_close (t : CallTree) (outcome : Outcome) (location : Location) :
    (t.close outcome location).callCount = t.callCount := by
  rw [callCount, length_close]
  rfl

theorem Edged.close (h : t.Edged) (ht : t.WellFormed) (hc : t.cursor ≠ 0) (outcome : Outcome)
    (location : Location) : (t.close outcome location).Edged := by
  have hpend := ht.pending_close hc outcome location
  refine ⟨?_, fun i hi => ?_⟩
  · obtain ⟨ended, heq⟩ := h.last
    refine ⟨ended ++ [t.cursor], ?_⟩
    rw [callCount_close, close_chain, heq, hpend, List.append_assoc]
    rfl
  · rw [callCount_close] at hi
    obtain ⟨ended, heq, hnot⟩ := h.between i hi
    refine ⟨ended, by simpa using heq, fun j hj hm => hnot j hj ?_⟩
    rw [hpend]
    exact List.mem_cons_of_mem _ hm

end

/-! ## What a call adds to the list -/

section
variable {t t' : CallTree} {entered : Nat → Location}

theorem endEvent?_congr {i : Nat} (hrule : (t'.node i).rule = (t.node i).rule)
    (hlocation : (t'.node i).location = (t.node i).location)
    (hstate : (t'.node i).state = (t.node i).state) : t'.endEvent? i = t.endEvent? i := by
  rw [endEvent?, endEvent?, hrule, hlocation, hstate]

/-- The list up to a call depends only on the rules and callers up to it, and on the ends of the
calls that ended before it was entered. -/
theorem retellTo_congr (h : t.WellFormed) (h' : t'.WellFormed) {n : Nat}
    (hrule : ∀ i ≤ n, (t'.node i).rule = (t.node i).rule)
    (hcaller : ∀ i ≤ n, t'.caller i = t.caller i)
    (hbetween : ∀ i < n, ∃ ended, t.chain i = ended ++ t.chain (t.caller (i + 1)) ∧
      ∀ j ∈ ended, t'.endEvent? j = t.endEvent? j) :
    t'.retellTo entered n = t.retellTo entered n := by
  induction n with
  | zero => rfl
  | succ n ih =>
    have ih := ih (fun i hi => hrule i (by omega)) (fun i hi => hcaller i (by omega))
      fun i hi => hbetween i (by omega)
    obtain ⟨ended, heq, hended⟩ := hbetween n (Nat.lt_succ_self n)
    have hlt : t.caller (n + 1) < n + 1 := h.caller_lt (Nat.succ_ne_zero n)
    have hchain : ∀ i ≤ n, t'.chain i = t.chain i := fun i hi =>
      chain_congr fun j hj => hcaller j (by omega)
    have heq' : t'.chain n = ended ++ t'.chain (t'.caller (n + 1)) := by
      rw [hcaller _ (Nat.le_refl _), hchain n (Nat.le_refl n), hchain _ (by omega), heq]
    rw [retellTo, retellTo, ih, ends_eq h' heq', ends_eq h heq, List.filterMap_congr hended,
      enterEntry, enterEntry, hrule _ (Nat.le_refl _)]

theorem retell_empty (entered : Nat → Location) : empty.retell entered = [] := by
  have hends : empty.ends 0 0 = [] := by
    rw [ends, chain_zero]
    rfl
  exact hends

/-- An accepted enter event comes last. -/
theorem retell_enter (h : t.Inv) (he : t.Edged) (rule : Text) (location : Location) :
    (t.enter rule location).1.retell entered =
      t.retell entered ++ [⟨.kind .enter, rule, entered t.nodes.length, t.nodes.length⟩] := by
  have hlen := length_eq_callCount h.toWellFormed
  have hwf' := (h.enter rule location).toWellFormed
  have hold : ∀ i ≤ t.callCount, (t.enter rule location).1.node i = t.node i := fun i hi =>
    node_enter_of_lt t rule location (by omega)
  have hcaller : ∀ i ≤ t.callCount, (t.enter rule location).1.caller i = t.caller i := fun i hi =>
    caller_enter_of_lt t rule location (by omega)
  have hend : ∀ i ≤ t.callCount, (t.enter rule location).1.endEvent? i = t.endEvent? i :=
    fun i hi => by rw [endEvent?, endEvent?, hold i hi]
  have hbefore : (t.enter rule location).1.retellTo entered t.callCount =
      t.retellTo entered t.callCount := by
    refine retellTo_congr h.toWellFormed hwf' (fun i hi => by rw [hold i hi]) hcaller
      fun i hi => ?_
    obtain ⟨ended, heq, -⟩ := he.between i hi
    refine ⟨ended, heq, fun j hj => hend j ?_⟩
    have := (pos_le_of_mem_chain (heq ▸ List.mem_append_left _ hj)).2
    omega
  -- what ended since the last call was entered comes before the new one
  obtain ⟨ended, heq⟩ := he.last
  have hlast : (t.enter rule location).1.chain t.callCount =
      ended ++ (t.enter rule location).1.chain t.cursor := by
    rw [chain_enter_of_lt t rule location (by omega), heq,
      chain_enter_of_lt t rule location h.cursor, pending]
  have hends : ended.filterMap (t.enter rule location).1.endEvent? =
      ended.filterMap t.endEvent? :=
    List.filterMap_congr fun j hj =>
      hend j (pos_le_of_mem_chain (heq ▸ List.mem_append_left _ hj)).2
  have hnone : (t.enter rule location).1.ends (t.callCount + 1) (t.callCount + 1) = [] :=
    ends_eq hwf' (List.nil_append _).symm
  have hnew : (t.enter rule location).1.cursor = t.callCount + 1 := hlen
  rw [retell, callCount_enter h.toWellFormed, hnew, hnone, List.append_nil, retellTo, hbefore,
    ← hlen, h.caller_enter_length, ends_eq hwf' hlast, hends, enterEntry, node_enter_length,
    retell, ends_eq h.toWellFormed heq]

/-- An event that ends the innermost call comes last. -/
theorem retell_close (h : t.Inv) (he : t.Edged) (hc : t.cursor ≠ 0) (outcome : Outcome)
    (location : Location) :
    (t.close outcome location).retell entered =
      t.retell entered ++
        [⟨.kind (.leave outcome), t.current.rule, location, t.cursor⟩] := by
  have hwf' := (h.close hc outcome location).toWellFormed
  have hcursor : t.cursor ∈ t.pending := by
    rw [pending, h.chain_of_ne_zero hc]
    exact List.mem_cons_self
  have hend : ∀ i, i ∉ t.pending → (t.close outcome location).endEvent? i = t.endEvent? i := by
    intro i hi
    have hne : i ≠ t.cursor := fun heq => hi (heq ▸ hcursor)
    refine endEvent?_congr (close_rule t outcome location i) ?_ ?_
    · rw [location_close t outcome location h.cursor, if_neg hne]
    · rw [state_close t outcome location h.cursor, if_neg hne]
  have hbefore : (t.close outcome location).retellTo entered t.callCount =
      t.retellTo entered t.callCount := by
    refine retellTo_congr h.toWellFormed hwf' (fun i _ => close_rule t outcome location i)
      (fun i _ => close_caller t outcome location i) fun i hi => ?_
    obtain ⟨ended, heq, hnot⟩ := he.between i hi
    exact ⟨ended, heq, fun j hj => hend j (hnot j hj)⟩
  -- the call that ends is the last one on the way up to the new cursor
  obtain ⟨ended, heq⟩ := he.last
  have hlast : (t.close outcome location).chain t.callCount =
      (ended ++ [t.cursor]) ++ (t.close outcome location).chain (t.caller t.cursor) := by
    rw [close_chain, close_chain, heq, pending, h.chain_of_ne_zero hc, List.append_assoc]
    rfl
  have hends : ended.filterMap (t.close outcome location).endEvent? =
      ended.filterMap t.endEvent? :=
    List.filterMap_congr fun j hj => hend j (notMem_of_chain_eq heq hj)
  have hclosed : (t.close outcome location).endEvent? t.cursor =
      some ⟨.kind (.leave outcome), t.current.rule, location, t.cursor⟩ := by
    rw [endEvent?, state_close t outcome location h.cursor, if_pos rfl,
      location_close t outcome location h.cursor, if_pos rfl, close_rule]
    rfl
  rw [retell, callCount_close, close_cursor, hbefore, ends_eq hwf' hlast, List.filterMap_append,
    hends, List.filterMap_cons_some hclosed, List.filterMap_nil, ← List.append_assoc, retell,
    ends_eq h.toWellFormed heq]

/-- Two trees are the same but for styles. -/
structure SameCalls (t t' : CallTree) : Prop where
  length : t'.nodes.length = t.nodes.length
  cursor : t'.cursor = t.cursor
  node : ∀ i, (t'.node i).unstyled = (t.node i).unstyled

namespace SameCalls

variable (h : t.SameCalls t')
include h

theorem rule (i : Nat) : (t'.node i).rule = (t.node i).rule :=
  (congrArg Node.rule (h.node i) :)

theorem location (i : Nat) : (t'.node i).location = (t.node i).location :=
  (congrArg Node.location (h.node i) :)

theorem state (i : Nat) : (t'.node i).state = (t.node i).state :=
  (congrArg Node.state (h.node i) :)

theorem caller (i : Nat) : t'.caller i = t.caller i :=
  (congrArg (fun n => n.parent.getD 0) (h.node i) :)

theorem ends (i above : Nat) : t'.ends i above = t.ends i above := by
  have hend : t'.endEvent? = t.endEvent? :=
    funext fun j => endEvent?_congr (h.rule j) (h.location j) (h.state j)
  rw [CallTree.ends, CallTree.ends, hend, chain_congr fun j _ => h.caller j]

/-- Styles have no part in the list. -/
theorem retell : t'.retell entered = t.retell entered := by
  have hcount : t'.callCount = t.callCount := by rw [callCount, h.length, callCount]
  have hto : ∀ n, t'.retellTo entered n = t.retellTo entered n := by
    intro n
    induction n with
    | zero => rfl
    | succ n ih =>
      rw [retellTo, retellTo, ih, h.caller, h.ends, enterEntry, enterEntry, h.rule]
  rw [CallTree.retell, CallTree.retell, hcount, hto, h.cursor, h.ends]

theorem settle : t'.settle = t.settle := by
  have hlocation : (fun i => (t'.node i).location) = fun i => (t.node i).location :=
    funext h.location
  funext e
  rw [CallTree.settle, CallTree.settle, h.state, hlocation]

end SameCalls

theorem sameCalls_noteStyles (t : CallTree) (styles : List (Nat × Option Style)) :
    t.SameCalls (t.noteStyles styles) :=
  ⟨t.length_noteStyles styles, rfl, t.unstyled_noteStyles styles⟩

end

end CallTree

end RuleTrace
