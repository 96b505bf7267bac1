import RuleTrace.Call.Tree
import RuleTrace.Proofs.Text.Decimal

/-!
# How the calls of a tree change

What an enter event, the end of the innermost call and the notes of a drawing do to each field of
a call. The path, rule, number and caller of a call are set for good when it is entered; only the
end of a call changes its state and its location, and lists it with its caller.
-/

namespace RuleTrace

/-- Whether the log can be told of a failure there: its offset is negative, so that it is never
further than all others, or short enough to be written. -/
def Location.isLoggable (l : Location) : Bool :=
  l.start.offset < 0 || Decimal.fits l.start.offset

/-- The smallest offset that the log cannot be told of. -/
theorem Location.isLoggable_tenPow (line column : Int) (stop : Position) :
    (⟨⟨(10 ^ Decimal.maxDigits : Nat), line, column⟩, stop⟩ : Location).isLoggable = false := by
  rw [isLoggable, Decimal.fits_tenPow, Bool.or_false]
  exact decide_eq_false (Int.not_lt.2 (Int.natCast_nonneg _))

namespace Node

/-- The calls made by a call that ended with an outcome. -/
def ended (n : Node) : Outcome → List Nat
  | .matched => n.matched
  | .failed => n.failed

theorem mem_children {n : Node} {i : Nat} : i ∈ n.children ↔ ∃ o, i ∈ n.ended o := by
  rw [children, List.mem_append]
  refine ⟨fun h => ?_, fun ⟨o, h⟩ => ?_⟩
  · rcases h with h | h
    · exact ⟨.matched, h⟩
    · exact ⟨.failed, h⟩
  · cases o with
    | matched => exact .inl h
    | failed => exact .inr h

section
variable (n : Node) (o : Outcome) (l : Location) (i : Nat)

@[simp] theorem addChild_number : (n.addChild o i).number = n.number := by cases o <;> rfl

@[simp] theorem addChild_path : (n.addChild o i).path = n.path := by cases o <;> rfl

@[simp] theorem addChild_rule : (n.addChild o i).rule = n.rule := by cases o <;> rfl

@[simp] theorem addChild_location : (n.addChild o i).location = n.location := by cases o <;> rfl

@[simp] theorem addChild_state : (n.addChild o i).state = n.state := by cases o <;> rfl

@[simp] theorem addChild_parent : (n.addChild o i).parent = n.parent := by cases o <;> rfl

theorem ended_addChild (o' : Outcome) :
    (n.addChild o i).ended o' = if o' = o then n.ended o' ++ [i] else n.ended o' := by
  cases o <;> cases o' <;> rfl

@[simp] theorem ended_resolve : (n.resolve o l).ended = n.ended := by
  funext o'; cases o' <;> rfl

end

/-- What is set when the rule is entered, and never again. -/
def origin (n : Node) : Nat × Text × Text × Option Nat :=
  (n.number, n.path, n.rule, n.parent)

/-- A call without its style. -/
def unstyled (n : Node) : Node :=
  { n with style := none }

end Node

namespace CallTree

theorem node_of_le {t : CallTree} {i : Nat} (h : t.nodes.length ≤ i) : t.node i = .root := by
  rw [node, List.getD_eq_getElem?_getD, List.getElem?_eq_none h, Option.getD_none]

/-- Only the root and the numbers of no call have no parent. -/
theorem lt_of_parent {t : CallTree} {i p : Nat} (h : (t.node i).parent = some p) :
    i < t.nodes.length := by
  refine Nat.lt_of_not_le fun hle => ?_
  rw [node_of_le hle] at h
  cases h

theorem lt_of_state_ne {t : CallTree} {i : Nat} (h : (t.node i).state ≠ .pending) :
    i < t.nodes.length := by
  refine Nat.lt_of_not_le fun hle => h ?_
  rw [node_of_le hle]
  rfl

theorem caller_of_parent {t : CallTree} {i p : Nat} (h : (t.node i).parent = some p) :
    t.caller i = p := by
  rw [caller, h, Option.getD_some]

/-! ## The chain of callers -/

theorem chain_zero (t : CallTree) : t.chain 0 = [] := by
  rw [chain, if_pos rfl]

theorem chain_of_lt {t : CallTree} {i : Nat} (h : t.caller i < i) :
    t.chain i = i :: t.chain (t.caller i) := by
  rw [chain, if_neg (by omega), if_pos h]

theorem chain_congr {t t' : CallTree} {i : Nat} (h : ∀ j ≤ i, t'.caller j = t.caller j) :
    t'.chain i = t.chain i := by
  induction i using Nat.strongRecOn with
  | _ i ih =>
    rw [chain]
    conv => rhs; rw [chain]
    rw [h i (Nat.le_refl i)]
    split
    · rfl
    · split
      · next hlt => rw [ih _ hlt fun j hj => h j (by omega)]
      · rfl

/-- A chain has calls up to its first one, and not the root. -/
theorem pos_le_of_mem_chain {t : CallTree} {i j : Nat} (h : j ∈ t.chain i) : 0 < j ∧ j ≤ i := by
  induction i using Nat.strongRecOn with
  | _ i ih =>
    rw [chain] at h
    split at h
    · simp at h
    · next hi =>
      rcases List.mem_cons.1 h with rfl | h
      · omega
      · split at h
        · next hlt =>
          have := ih _ hlt h
          omega
        · simp at h

/-! ## Entering a rule -/

section
variable (t : CallTree) (rule : Text) (location : Location)

@[simp] theorem length_enter : (t.enter rule location).1.nodes.length = t.nodes.length + 1 := by
  simp [enter]

theorem node_enter_of_lt {i : Nat} (h : i < t.nodes.length) :
    (t.enter rule location).1.node i = t.node i := by
  simp only [node, enter, List.getD_eq_getElem?_getD, List.getElem?_append_left h]

theorem node_enter_length :
    (t.enter rule location).1.node t.nodes.length =
      { number := t.nodes.length, path := t.current.childPath, rule, location
        parent := some t.current.number } := by
  simp [node, enter]

/-- What holds of every call and of the new one holds of every call after the event. -/
theorem forall_enter {P : Nat → Node → Prop} (hold : ∀ i < t.nodes.length, P i (t.node i))
    (hnew : P t.nodes.length
      { number := t.nodes.length, path := t.current.childPath, rule, location
        parent := some t.current.number }) :
    ∀ i < (t.enter rule location).1.nodes.length, P i ((t.enter rule location).1.node i) := by
  intro i hi
  rw [length_enter] at hi
  rcases Nat.lt_or_ge i t.nodes.length with hlt | hge
  · rw [node_enter_of_lt t rule location hlt]
    exact hold i hlt
  · obtain rfl : i = t.nodes.length := by omega
    rw [node_enter_length]
    exact hnew

theorem caller_enter_of_lt {i : Nat} (h : i < t.nodes.length) :
    (t.enter rule location).1.caller i = t.caller i := by
  rw [caller, caller, node_enter_of_lt t rule location h]

theorem chain_enter_of_lt {i : Nat} (h : i < t.nodes.length) :
    (t.enter rule location).1.chain i = t.chain i :=
  chain_congr fun _ hj => caller_enter_of_lt t rule location (by omega)

end

/-! ## The end of the innermost call -/

theorem getD_modify {α : Type} (l : List α) (f : α → α) (k i : Nat) (d : α) (h : i < l.length) :
    (l.modify k f).getD i d = if i = k then f (l.getD i d) else l.getD i d := by
  rw [List.getD_eq_getElem?_getD, List.getD_eq_getElem?_getD, List.getElem?_modify,
    List.getElem?_eq_getElem h]
  split <;> split <;> first | rfl | omega

/-- The log cannot be told of a failure: it is further than any before, and its offset is too long
to be written. -/
def exceedsLog (t : CallTree) (offset : Int) : Bool :=
  t.furthest < offset && !Decimal.fits offset

/-- The furthest offset is one that the log was told of. -/
structure Logged (t : CallTree) : Prop where
  nonneg : 0 ≤ t.furthest
  fits : Decimal.fits t.furthest = true

theorem logged_empty : empty.Logged :=
  ⟨Int.le_refl 0, by decide⟩

/-- The tree after a failure was noted, or could not be. -/
def noted (t : CallTree) (i : Nat) : CallTree :=
  (t.noteFailure i).toOption.getD t

/-- The tree after the innermost call ends. -/
def close (t : CallTree) (outcome : Outcome) (location : Location) : CallTree :=
  (t.finish outcome location).1

section
variable (t : CallTree) (outcome : Outcome) (location : Location)

@[simp] theorem noted_nodes (i : Nat) : (t.noted i).nodes = t.nodes := by
  simp only [noted, noteFailure]
  split
  · split <;> rfl
  · split <;> rfl

@[simp] theorem noted_cursor (i : Nat) : (t.noted i).cursor = t.cursor := by
  simp only [noted, noteFailure]
  split
  · split <;> rfl
  · split <;> rfl

@[simp] theorem noted_depth (i : Nat) : (t.noted i).depth = t.depth := by
  simp only [noted, noteFailure]
  split
  · split <;> rfl
  · split <;> rfl

/-- The end of a call that failed is a note of its failure in the tree in which it ended. -/
theorem close_failed :
    t.close .failed location = (t.endCurrent .failed location).noted t.cursor := by
  rw [close, finish, noted]
  cases (t.endCurrent .failed location).noteFailure t.cursor <;> rfl

@[simp] theorem close_nodes :
    (t.close outcome location).nodes =
      (t.nodes.modify t.cursor (·.resolve outcome location)).modify (t.caller t.cursor)
        (·.addChild outcome t.cursor) := by
  cases outcome with
  | matched => rfl
  | failed => rw [close_failed, noted_nodes]; rfl

@[simp] theorem close_cursor : (t.close outcome location).cursor = t.caller t.cursor := by
  cases outcome with
  | matched => rfl
  | failed => rw [close_failed, noted_cursor]; rfl

@[simp] theorem close_depth : (t.close outcome location).depth = t.depth - 1 := by
  cases outcome with
  | matched => rfl
  | failed => rw [close_failed, noted_depth]; rfl

/-- While the furthest offset is one that was written, the length of an offset decides. -/
theorem Logged.exceedsLog_iff {t : CallTree} (h : t.Logged) (location : Location) :
    t.exceedsLog location.start.offset = true ↔ location.isLoggable = false := by
  have hpos := h.nonneg
  rw [exceedsLog, Location.isLoggable, Bool.and_eq_true, Bool.not_eq_true', Bool.or_eq_false_iff,
    decide_eq_true_iff, decide_eq_false_iff_not, and_congr_left_iff]
  intro hlong
  refine ⟨fun hlt => by omega, fun hneg => Int.not_le.1 fun hle => ?_⟩
  rw [Decimal.fits_of_le (by omega) h.fits] at hlong
  cases hlong

/-- A failure is noted, unless the log cannot be told of it. -/
theorem noteFailure_eq (i : Nat) :
    t.noteFailure i =
      if t.exceedsLog (t.node i).location.start.offset then .error .longNumber
      else .ok (t.noted i) := by
  simp only [noted, noteFailure, exceedsLog]
  split
  · next hlt =>
    cases hfits : Decimal.fits (t.node i).location.start.offset <;> simp [hlt, Except.toOption]
  · next hle => split <;> simp [hle, Except.toOption]

theorem noted_of_exceedsLog {i : Nat}
    (h : t.exceedsLog (t.node i).location.start.offset = true) : t.noted i = t := by
  rw [noted, noteFailure_eq, if_pos h]
  rfl

theorem finish_failed :
    let ended := t.endCurrent .failed location
    t.finish .failed location =
      if ended.exceedsLog (ended.node t.cursor).location.start.offset then
        (ended, .error .longNumber)
      else (ended.noted t.cursor, .ok t.cursor) := by
  intro ended
  simp only [finish, noteFailure_eq]
  by_cases h : ended.exceedsLog (ended.node t.cursor).location.start.offset
  · rw [if_pos h, if_pos h]
  · rw [if_neg h, if_neg h]

/-- The end of a call is about the call, or the log cannot be told of it. -/
theorem finish_snd_cases :
    (t.finish outcome location).2 = .ok t.cursor ∨
      outcome = .failed ∧ (t.finish outcome location).2 = .error .longNumber := by
  cases outcome with
  | matched => exact .inl rfl
  | failed =>
    rw [finish_failed]
    split
    · exact .inr ⟨rfl, rfl⟩
    · exact .inl rfl

theorem length_close : (t.close outcome location).nodes.length = t.nodes.length := by
  simp

theorem node_close {i : Nat} (h : i < t.nodes.length) :
    (t.close outcome location).node i =
      if i = t.caller t.cursor then
        (if i = t.cursor then (t.node i).resolve outcome location else t.node i).addChild outcome
          t.cursor
      else if i = t.cursor then (t.node i).resolve outcome location else t.node i := by
  rw [node, close_nodes, getD_modify _ _ _ _ _ (by simpa using h), getD_modify _ _ _ _ _ h]
  rfl

theorem origin_close (i : Nat) :
    ((t.close outcome location).node i).origin = (t.node i).origin := by
  rcases Nat.lt_or_ge i t.nodes.length with h | h
  · rw [node_close t outcome location h]
    split <;> split <;> simp [Node.origin, Node.resolve]
  · rw [node_of_le h, node_of_le (by simpa using h)]

@[simp] theorem close_number (i : Nat) :
    ((t.close outcome location).node i).number = (t.node i).number :=
  congrArg (·.1) (t.origin_close outcome location i)

@[simp] theorem close_path (i : Nat) :
    ((t.close outcome location).node i).path = (t.node i).path :=
  congrArg (·.2.1) (t.origin_close outcome location i)

@[simp] theorem close_rule (i : Nat) :
    ((t.close outcome location).node i).rule = (t.node i).rule :=
  congrArg (·.2.2.1) (t.origin_close outcome location i)

@[simp] theorem close_parent (i : Nat) :
    ((t.close outcome location).node i).parent = (t.node i).parent :=
  congrArg (·.2.2.2) (t.origin_close outcome location i)

@[simp] theorem close_caller (i : Nat) : (t.close outcome location).caller i = t.caller i := by
  rw [caller, caller, close_parent]

@[simp] theorem close_chain (i : Nat) : (t.close outcome location).chain i = t.chain i :=
  chain_congr fun _ _ => close_caller t outcome location _

theorem state_close (h : t.cursor < t.nodes.length) (i : Nat) :
    ((t.close outcome location).node i).state =
      if i = t.cursor then .resolved outcome else (t.node i).state := by
  rcases Nat.lt_or_ge i t.nodes.length with hi | hi
  · rw [node_close t outcome location hi]
    split <;> split <;> simp [Node.resolve]
  · rw [node_of_le hi, node_of_le (by simpa using hi), if_neg (by omega)]

theorem location_close (h : t.cursor < t.nodes.length) (i : Nat) :
    ((t.close outcome location).node i).location =
      if i = t.cursor then location else (t.node i).location := by
  rcases Nat.lt_or_ge i t.nodes.length with hi | hi
  · rw [node_close t outcome location hi]
    split <;> split <;> simp [Node.resolve]
  · rw [node_of_le hi, node_of_le (by simpa using hi), if_neg (by omega)]

theorem node_endCurrent (i : Nat) :
    (t.endCurrent outcome location).node i = (t.close outcome location).node i := by
  rw [node, node, close_nodes]
  rfl

theorem location_endCurrent (h : t.cursor < t.nodes.length) :
    ((t.endCurrent outcome location).node t.cursor).location = location := by
  rw [node_endCurrent, location_close t outcome location h, if_pos rfl]

/-- A call that failed has ended, and its failure is noted unless the log cannot be told of it. -/
theorem finish_failed_of_lt (h : t.cursor < t.nodes.length) :
    t.finish .failed location =
      if t.exceedsLog location.start.offset then (t.endCurrent .failed location, .error .longNumber)
      else (t.close .failed location, .ok t.cursor) := by
  have hexceeds : (t.endCurrent .failed location).exceedsLog location.start.offset =
      t.exceedsLog location.start.offset := rfl
  rw [close_failed, finish_failed, location_endCurrent t .failed location h, hexceeds]

/-- A call at an offset that is short enough comes to its number. -/
theorem finish_snd_of_fits (h : Decimal.fits location.start.offset = true) :
    (t.finish outcome location).2 = .ok t.cursor := by
  have hfits : Decimal.fits
      ((t.endCurrent outcome location).node t.cursor).location.start.offset = true := by
    rcases Nat.lt_or_ge t.cursor t.nodes.length with hlt | hle
    · rwa [location_endCurrent t outcome location hlt]
    · rw [node_endCurrent, node_of_le (by rwa [length_close])]
      decide
  cases outcome with
  | matched => rfl
  | failed =>
    simp only [finish_failed, exceedsLog, hfits, Bool.not_true, Bool.and_false,
      Bool.false_eq_true, if_false]

theorem Logged.finish_failed {t : CallTree} (hlog : t.Logged) (h : t.cursor < t.nodes.length)
    (location : Location) :
    t.finish .failed location =
      if location.isLoggable then (t.close .failed location, .ok t.cursor)
      else (t.endCurrent .failed location, .error .longNumber) := by
  have hexceeds := hlog.exceedsLog_iff location
  rw [t.finish_failed_of_lt location h]
  cases hloggable : location.isLoggable with
  | true =>
    rw [hloggable] at hexceeds
    rw [if_neg fun hlong => Bool.noConfusion (hexceeds.1 hlong), if_pos rfl]
  | false => rw [if_pos (hexceeds.2 hloggable), if_neg Bool.false_ne_true]

theorem ended_close (h : t.caller t.cursor < t.nodes.length) (i : Nat) (o : Outcome) :
    ((t.close outcome location).node i).ended o =
      if i = t.caller t.cursor ∧ o = outcome then (t.node i).ended o ++ [t.cursor]
      else (t.node i).ended o := by
  rcases Nat.lt_or_ge i t.nodes.length with hi | hi
  · rw [node_close t outcome location hi]
    have hres : (if i = t.cursor then (t.node i).resolve outcome location else t.node i).ended o =
        (t.node i).ended o := by
      split
      · rw [Node.ended_resolve]
      · rfl
    by_cases hc : i = t.caller t.cursor
    · rw [if_pos hc, Node.ended_addChild, hres]
      simp only [hc, true_and]
    · rw [if_neg hc, hres, if_neg fun h => hc h.1]
  · rw [node_of_le hi, node_of_le (by simpa using hi), if_neg (by omega)]

end

/-! ## Events -/

/-- All that an event does that is taken: it enters a rule, or it ends the innermost call. -/
theorem apply_cases {t u : CallTree} {e : Event} {r : Except Decimal.LengthError Nat}
    (h : t.apply e = .ok (u, r)) :
    (e.kind = .enter ∧ u = (t.enter e.rule e.location).1 ∧ r = .ok t.nodes.length) ∨
      ∃ outcome, e.kind = .leave outcome ∧ u = t.close outcome e.location ∧
        r = (t.finish outcome e.location).2 := by
  obtain ⟨_ | outcome, rule, location⟩ := e
  · obtain ⟨rfl, rfl⟩ := Prod.mk.inj (Except.ok.inj h)
    exact .inl ⟨rfl, rfl, rfl⟩
  · simp only [apply, leave] at h
    split at h
    · cases h
    · split at h
      · cases h
      · obtain ⟨rfl, rfl⟩ := Prod.mk.inj (Except.ok.inj h)
        exact .inr ⟨outcome, rfl, rfl, rfl⟩

/-- An event at an offset that is short enough comes to the number of a call. -/
theorem apply_ok_of_fits {t u : CallTree} {e : Event} {r : Except Decimal.LengthError Nat}
    (h : t.apply e = .ok (u, r)) (hfits : Decimal.fits e.location.start.offset = true) :
    ∃ i, r = .ok i := by
  rcases apply_cases h with ⟨-, -, hr⟩ | ⟨outcome, -, -, hr⟩
  · exact ⟨_, hr⟩
  · exact ⟨_, hr.trans (t.finish_snd_of_fits outcome e.location hfits)⟩

/-- All that an event does that comes to the number of a call. -/
theorem apply_ok_cases {t u : CallTree} {e : Event} {i : Nat} (h : t.apply e = .ok (u, .ok i)) :
    (e.kind = .enter ∧ u = (t.enter e.rule e.location).1 ∧ i = t.nodes.length) ∨
      ∃ outcome, e.kind = .leave outcome ∧ u = t.close outcome e.location ∧ i = t.cursor := by
  rcases apply_cases h with ⟨hkind, hu, hi⟩ | ⟨outcome, hkind, hu, hi⟩
  · exact .inl ⟨hkind, hu, Except.ok.inj hi⟩
  · refine .inr ⟨outcome, hkind, hu, ?_⟩
    rcases t.finish_snd_cases outcome e.location with hr | ⟨-, hr⟩
    · exact Except.ok.inj (hi.trans hr)
    · cases hi.trans hr

/-! ## Notes of styles -/

section
variable (t : CallTree) (styles : List (Nat × Option Style))

@[simp] theorem noteStyles_cursor : (t.noteStyles styles).cursor = t.cursor := rfl

@[simp] theorem noteStyles_depth : (t.noteStyles styles).depth = t.depth := rfl

theorem noteStyles_cons (i : Nat) (s : Option Style) :
    t.noteStyles ((i, s) :: styles) =
      { t with nodes := t.nodes.modify i ({ · with style := s }) }.noteStyles styles := rfl

/-- Notes of styles change nothing but styles. -/
theorem unstyled_noteStyles (i : Nat) :
    ((t.noteStyles styles).node i).unstyled = (t.node i).unstyled := by
  induction styles generalizing t with
  | nil => rfl
  | cons note styles ih =>
    obtain ⟨k, s⟩ := note
    rw [noteStyles_cons, ih]
    rcases Nat.lt_or_ge i t.nodes.length with h | h
    · rw [node, getD_modify _ _ _ _ _ h]
      split <;> rfl
    · rw [node_of_le h, node_of_le (by simpa using h)]

@[simp] theorem length_noteStyles : (t.noteStyles styles).nodes.length = t.nodes.length := by
  induction styles generalizing t with
  | nil => rfl
  | cons note styles ih => rw [noteStyles_cons, ih]; simp

/-- A call without a note stays as it is. -/
theorem node_noteStyles_of_notMem {i : Nat} (h : i ∉ styles.map (·.1)) :
    (t.noteStyles styles).node i = t.node i := by
  induction styles generalizing t with
  | nil => rfl
  | cons note styles ih =>
    rw [List.map_cons, List.mem_cons, not_or] at h
    rw [noteStyles_cons, ih _ h.2]
    rcases Nat.lt_or_ge i t.nodes.length with hi | hi
    · rw [node, getD_modify _ _ _ _ _ hi, if_neg h.1]
      rfl
    · rw [node_of_le hi, node_of_le (by simpa using hi)]

/-- A call with one note has its style. -/
theorem style_noteStyles {i : Nat} {s : Option Style} (hi : i < t.nodes.length)
    (hnodup : (styles.map (·.1)).Nodup) (hmem : (i, s) ∈ styles) :
    ((t.noteStyles styles).node i).style = s := by
  induction styles generalizing t with
  | nil => cases hmem
  | cons note styles ih =>
    rw [List.map_cons, List.nodup_cons] at hnodup
    rw [noteStyles_cons]
    rcases List.mem_cons.1 hmem with rfl | hmem
    · rw [node_noteStyles_of_notMem _ _ hnodup.1, node, getD_modify _ _ _ _ _ hi, if_pos rfl]
    · exact ih _ (by simpa using hi) hnodup.2 hmem

@[simp] theorem noteStyles_number (i : Nat) :
    ((t.noteStyles styles).node i).number = (t.node i).number :=
  (congrArg Node.number (t.unstyled_noteStyles styles i) :)

@[simp] theorem noteStyles_path (i : Nat) :
    ((t.noteStyles styles).node i).path = (t.node i).path :=
  (congrArg Node.path (t.unstyled_noteStyles styles i) :)

@[simp] theorem noteStyles_rule (i : Nat) :
    ((t.noteStyles styles).node i).rule = (t.node i).rule :=
  (congrArg Node.rule (t.unstyled_noteStyles styles i) :)

@[simp] theorem noteStyles_location (i : Nat) :
    ((t.noteStyles styles).node i).location = (t.node i).location :=
  (congrArg Node.location (t.unstyled_noteStyles styles i) :)

@[simp] theorem noteStyles_state (i : Nat) :
    ((t.noteStyles styles).node i).state = (t.node i).state :=
  (congrArg Node.state (t.unstyled_noteStyles styles i) :)

@[simp] theorem noteStyles_parent (i : Nat) :
    ((t.noteStyles styles).node i).parent = (t.node i).parent :=
  (congrArg Node.parent (t.unstyled_noteStyles styles i) :)

@[simp] theorem noteStyles_ended (i : Nat) (o : Outcome) :
    ((t.noteStyles styles).node i).ended o = (t.node i).ended o :=
  (congrArg (Node.ended · o) (t.unstyled_noteStyles styles i) :)

@[simp] theorem noteStyles_caller (i : Nat) : (t.noteStyles styles).caller i = t.caller i := by
  rw [caller, caller, noteStyles_parent]

@[simp] theorem noteStyles_chain (i : Nat) : (t.noteStyles styles).chain i = t.chain i :=
  chain_congr fun _ _ => noteStyles_caller t styles _

end

end CallTree

end RuleTrace
