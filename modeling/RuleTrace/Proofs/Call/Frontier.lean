import RuleTrace.Proofs.Call.WellFormed

/-!
# The frontier of furthest failures

The frontier is kept up to date by one failure at a time. `CallTree.distill` says at once what it
comes to: of the calls that failed furthest, in the order of their failures, those that add
something to the ones kept before them.

* `CallTree.frontier_close_failed`: a failure restarts, extends or keeps the frontier.
* `Session.Tracks`: the furthest offset and the frontier are those of the accepted fail events; kept
  by every call (`Tracks.enter`, `Tracks.close`).
* `Session.frontier_run`: so they are after every run, with what this says about the members.
-/

namespace RuleTrace

namespace CallTree

/-- Whether the failure of `f` says what that of `n` does: `n` called the rule that `f` is a call
of, or both are calls of one rule from one path. -/
def Covers (t : CallTree) (f n : Nat) : Prop :=
  (t.node n).childPath = (t.node f).path ∨
    (t.node n).path = (t.node f).path ∧ (t.node n).rule = (t.node f).rule

instance (t : CallTree) (f n : Nat) : Decidable (t.Covers f n) :=
  inferInstanceAs (Decidable (_ ∨ _))

/-- Some calls with one more, unless one of them covers it. -/
def keep (t : CallTree) (kept : List Nat) (n : Nat) : List Nat :=
  if ∃ f ∈ kept, t.Covers f n then kept else kept ++ [n]

/-- The calls of a list that no call kept before them covers. -/
def distill (t : CallTree) (calls : List Nat) : List Nat :=
  calls.foldl t.keep []

/-! ## Distilled calls -/

section
variable {t t' : CallTree}

theorem distill_concat (t : CallTree) (calls : List Nat) (n : Nat) :
    t.distill (calls ++ [n]) = t.keep (t.distill calls) n := by
  simp [distill]

theorem mem_keep {kept : List Nat} {n i : Nat} (h : i ∈ t.keep kept n) : i ∈ kept ∨ i = n := by
  unfold keep at h
  split at h
  · exact .inl h
  · simpa using h

theorem keep_ne_nil (kept : List Nat) (n : Nat) : t.keep kept n ≠ [] := by
  unfold keep
  split
  · next h =>
    obtain ⟨f, hf, -⟩ := h
    exact List.ne_nil_of_mem hf
  · simp

theorem mem_of_mem_distill {calls : List Nat} {i : Nat} (h : i ∈ t.distill calls) : i ∈ calls := by
  induction calls using List.reverseRecOn with
  | nil => exact h
  | append_singleton calls n ih =>
    rw [distill_concat] at h
    rcases mem_keep h with h | rfl
    · exact List.mem_append_left _ (ih h)
    · simp

/-- No distilled call is covered by an earlier one. -/
theorem pairwise_distill (t : CallTree) (calls : List Nat) :
    (t.distill calls).Pairwise fun f n => ¬t.Covers f n := by
  induction calls using List.reverseRecOn with
  | nil => exact .nil
  | append_singleton calls n ih =>
    rw [distill_concat, keep]
    split
    · exact ih
    · next h =>
      refine List.pairwise_append.2 ⟨ih, List.pairwise_singleton _ _, fun f hf n' hn hc => ?_⟩
      rw [List.mem_singleton.1 hn] at hc
      exact h ⟨f, hf, hc⟩

theorem distill_eq_nil_iff {calls : List Nat} : t.distill calls = [] ↔ calls = [] := by
  refine ⟨fun h => ?_, fun h => by rw [h]; rfl⟩
  rcases List.eq_nil_or_concat calls with rfl | ⟨calls, n, rfl⟩
  · rfl
  · rw [List.concat_eq_append, distill_concat] at h
    exact absurd h (keep_ne_nil _ n)

theorem covers_congr {f n : Nat}
    (hf : (t'.node f).path = (t.node f).path ∧ (t'.node f).rule = (t.node f).rule)
    (hn : (t'.node n).path = (t.node n).path ∧ (t'.node n).rule = (t.node n).rule) :
    t'.Covers f n ↔ t.Covers f n := by
  simp only [Covers, Node.childPath, hn, hf]

theorem keep_congr {kept : List Nat} {n : Nat} (h : ∀ f ∈ kept, t'.Covers f n ↔ t.Covers f n) :
    t'.keep kept n = t.keep kept n := by
  have hex : (∃ f ∈ kept, t'.Covers f n) ↔ ∃ f ∈ kept, t.Covers f n :=
    exists_congr fun f => and_congr_right (h f)
  simp only [keep, hex]

/-- Only the paths and rules of the listed calls matter. -/
theorem distill_congr {calls : List Nat}
    (h : ∀ i ∈ calls, (t'.node i).path = (t.node i).path ∧ (t'.node i).rule = (t.node i).rule) :
    t'.distill calls = t.distill calls := by
  induction calls using List.reverseRecOn with
  | nil => rfl
  | append_singleton calls n ih =>
    have ih := ih fun i hi => h i (List.mem_append_left _ hi)
    have hn := h n (by simp)
    have hcov : ∀ f ∈ t.distill calls, t'.Covers f n ↔ t.Covers f n := fun f hf =>
      covers_congr (h f (List.mem_append_left _ (mem_of_mem_distill hf))) hn
    rw [distill_concat, distill_concat, ih, keep_congr hcov]

end

/-! ## One failure -/

section
variable (t : CallTree) (location : Location)

theorem furthest_close_matched : (t.close .matched location).furthest = t.furthest := rfl

theorem frontier_close_matched : (t.close .matched location).frontier = t.frontier := rfl

theorem furthest_noted (i : Nat) :
    (t.noted i).furthest =
      if t.exceedsLog (t.node i).location.start.offset then t.furthest
      else max t.furthest (t.node i).location.start.offset := by
  by_cases hlog : t.exceedsLog (t.node i).location.start.offset = true
  · rw [noted_of_exceedsLog t hlog, if_pos hlog]
  · rw [if_neg hlog]
    simp only [noted, noteFailure]
    split
    · next h =>
      have hfits : Decimal.fits (t.node i).location.start.offset = true := by
        simpa [exceedsLog, h] using hlog
      rw [if_pos hfits, Int.max_eq_right (Int.le_of_lt h)]
      rfl
    · next h =>
      have := Int.max_eq_left (Int.not_lt.1 h)
      split <;> rw [this] <;> rfl

theorem Logged.noted (h : t.Logged) (i : Nat) : (t.noted i).Logged := by
  have hpos := h.nonneg
  have hfar := t.furthest_noted i
  split at hfar
  · exact ⟨hfar ▸ h.nonneg, hfar ▸ h.fits⟩
  · next hlog =>
    refine ⟨by omega, ?_⟩
    rcases Int.lt_or_le t.furthest (t.node i).location.start.offset with hlt | hle
    · rw [hfar, Int.max_eq_right (Int.le_of_lt hlt)]
      simpa [exceedsLog, hlt] using hlog
    · rw [hfar, Int.max_eq_left hle, h.fits]

theorem Logged.close (h : t.Logged) (outcome : Outcome) : (t.close outcome location).Logged := by
  cases outcome with
  | matched => exact ⟨h.nonneg, h.fits⟩
  | failed =>
    have hended : (t.endCurrent .failed location).Logged := ⟨h.nonneg, h.fits⟩
    rw [close_failed]
    exact hended.noted _ t.cursor

theorem frontier_noted (i : Nat) :
    (t.noted i).frontier =
      if t.exceedsLog (t.node i).location.start.offset then t.frontier
      else if t.furthest < (t.node i).location.start.offset then [i]
      else if (t.node i).location.start.offset = t.furthest then t.keep t.frontier i
      else t.frontier := by
  have hany : t.frontier.any (fun f => (t.node i).repeats (t.node f)) = true ↔
      ∃ f ∈ t.frontier, t.Covers f i := by
    simp [Node.repeats, Covers]
  by_cases hlog : t.exceedsLog (t.node i).location.start.offset = true
  · rw [noted_of_exceedsLog t hlog, if_pos hlog]
  · rw [if_neg hlog]
    simp only [noted, noteFailure, hany, keep]
    split
    · next h =>
      have hfits : Decimal.fits (t.node i).location.start.offset = true := by
        simpa [exceedsLog, h] using hlog
      rw [if_pos hfits]
      rfl
    · by_cases ho : (t.node i).location.start.offset = t.furthest
      · simp only [ho, true_and, if_true]
        by_cases hc : ∃ f ∈ t.frontier, t.Covers f i
        · rw [if_neg (not_not_intro hc), if_pos hc]
          rfl
        · rw [if_pos hc, if_neg hc]
          rfl
      · simp only [ho, false_and, if_false]
        rfl

theorem furthest_close_failed (hc : t.cursor < t.nodes.length) :
    (t.close .failed location).furthest =
      if t.exceedsLog location.start.offset then t.furthest
      else max t.furthest location.start.offset := by
  rw [close_failed, furthest_noted, location_endCurrent t .failed location hc]
  rfl

theorem frontier_close_failed (hc : t.cursor < t.nodes.length) :
    (t.close .failed location).frontier =
      if t.exceedsLog location.start.offset then t.frontier
      else if t.furthest < location.start.offset then [t.cursor]
      else if location.start.offset = t.furthest then t.keep t.frontier t.cursor
      else t.frontier := by
  have hsame : ∀ i, ((t.endCurrent .failed location).node i).path = (t.node i).path ∧
      ((t.endCurrent .failed location).node i).rule = (t.node i).rule := by
    intro i
    rw [node_endCurrent, close_path, close_rule]
    exact ⟨rfl, rfl⟩
  rw [close_failed, frontier_noted, location_endCurrent t .failed location hc,
    keep_congr fun f _ => covers_congr (hsame f) (hsame t.cursor)]
  rfl

end

end CallTree

namespace Session

/-- The failures that the log can be told of. -/
def loggable (s : Session) : List Entry :=
  s.failures.filter (·.location.isLoggable)

/-- The greatest of 0 and the offsets of those failures. -/
def furthest (s : Session) : Int :=
  (0 :: s.loggable.map (·.location.start.offset)).max (List.cons_ne_nil _ _)

/-- The calls whose failures are there, in their order. -/
def furthestFailures (s : Session) : List Nat :=
  (s.loggable.filter (·.location.start.offset = s.furthest)).map (·.call)

section
variable {s s' : Session}

theorem furthest_nonneg (s : Session) : 0 ≤ s.furthest :=
  List.le_max_of_mem List.mem_cons_self

theorem le_furthest {e : Entry} (he : e ∈ s.loggable) : e.location.start.offset ≤ s.furthest :=
  List.le_max_of_mem
    (List.mem_cons_of_mem _ (List.mem_map_of_mem (f := (·.location.start.offset)) he))

/-- The furthest offset is short enough to be written. -/
theorem fits_furthest (s : Session) : Decimal.fits s.furthest = true := by
  have hpos := s.furthest_nonneg
  rcases List.mem_cons.1 (List.max_mem (List.cons_ne_nil 0
    (s.loggable.map (·.location.start.offset)))) with h0 | hm
  · rw [show s.furthest = 0 from h0]
    rfl
  · obtain ⟨e, he, heq⟩ := List.mem_map.1 hm
    have hlog := (List.mem_filter.1 he).2
    rw [Location.isLoggable, heq, Bool.or_eq_true, decide_eq_true_iff] at hlog
    exact hlog.resolve_left (Int.not_lt.2 hpos)

theorem loggable_congr (h : s'.failures = s.failures) : s'.loggable = s.loggable := by
  rw [loggable, h, loggable]

/-- One more failure. -/
theorem loggable_concat {e : Entry} (h : s'.failures = s.failures ++ [e]) :
    s'.loggable =
      if e.location.isLoggable = true then s.loggable ++ [e] else s.loggable := by
  rw [loggable, h, List.filter_append, loggable, List.filter_cons, List.filter_nil]
  split
  · rfl
  · rw [List.append_nil]

/-- Some call failed at the furthest offset, unless none failed at an offset of 0 or more. -/
theorem furthestFailures_eq_nil_iff :
    s.furthestFailures = [] ↔ ∀ e ∈ s.loggable, e.location.start.offset < 0 := by
  simp only [furthestFailures, List.map_eq_nil_iff, List.filter_eq_nil_iff, decide_eq_true_eq]
  refine ⟨fun h e he => ?_, fun h e he heq => ?_⟩
  · rcases List.mem_cons.1 (List.max_mem (List.cons_ne_nil 0
      (s.loggable.map (·.location.start.offset)))) with h0 | hm
    · have h0 : s.furthest = 0 := h0
      have := h e he
      have := le_furthest he
      omega
    · obtain ⟨e', he', heq⟩ := List.mem_map.1 hm
      exact absurd heq (h e' he')
  · have := h e he
    have := s.furthest_nonneg
    omega

theorem furthest_congr (h : s'.loggable = s.loggable) : s'.furthest = s.furthest := by
  simp only [furthest, h]

theorem furthestFailures_congr (h : s'.loggable = s.loggable) :
    s'.furthestFailures = s.furthestFailures := by
  simp only [furthestFailures, furthest_congr h, h]

theorem furthest_concat {e : Entry} (h : s'.loggable = s.loggable ++ [e]) :
    s'.furthest = max s.furthest e.location.start.offset := by
  simp [furthest, h, List.max]

theorem furthestFailures_concat {e : Entry} (h : s'.loggable = s.loggable ++ [e]) :
    s'.furthestFailures =
      if s.furthest < e.location.start.offset then [e.call]
      else if e.location.start.offset = s.furthest then s.furthestFailures ++ [e.call]
      else s.furthestFailures := by
  rw [furthestFailures, furthest_concat h, h, List.filter_append, List.map_append]
  split
  · next hlt =>
    rw [Int.max_eq_right (Int.le_of_lt hlt), List.filter_eq_nil_iff.2 fun e' he' => ?_]
    · simp
    · have := le_furthest he'
      simp only [decide_eq_true_eq]
      omega
  · next hle =>
    rw [Int.max_eq_left (Int.not_lt.1 hle)]
    split
    · next heq => simp [furthestFailures, heq]
    · next hne => simp [furthestFailures, hne]

end

/-! ## The frontier of a run -/

/-- The failures of a session, its furthest offset and its frontier are those of its events. -/
structure Tracks (s : Session) : Prop where
  nodup : (s.failures.map (·.call)).Nodup
  failed : ∀ i, (s.tree.node i).state = .resolved .failed ↔ i ∈ s.failures.map (·.call)
  location : ∀ e ∈ s.failures, (s.tree.node e.call).location = e.location
  furthest : s.tree.furthest = s.furthest
  frontier : s.tree.frontier = s.tree.distill s.furthestFailures

theorem mem_failures_of_mem_furthestFailures {s : Session} {i : Nat}
    (h : i ∈ s.furthestFailures) :
    ∃ e ∈ s.failures, e.location.start.offset = s.furthest ∧ e.call = i := by
  obtain ⟨e, he, rfl⟩ := List.mem_map.1 h
  rw [List.mem_filter, decide_eq_true_eq] at he
  exact ⟨e, (List.mem_filter.1 he.1).1, he.2, rfl⟩

namespace Tracks

variable {s : Session}

theorem lt_of_mem (h : s.Tracks) {i : Nat} (hi : i ∈ s.failures.map (·.call)) :
    i < s.tree.nodes.length := by
  have hs := (h.failed i).2 hi
  exact CallTree.lt_of_state_ne (by simp [hs])

theorem empty : Session.empty.Tracks where
  nodup := List.nodup_nil
  failed i := by
    have : (CallTree.empty.node i).state = .pending := by
      cases i <;> rfl
    simp [Session.empty, failures, this]
  location e he := by cases he
  furthest := rfl
  frontier := rfl

theorem noteStyles (h : s.Tracks) (styles : List (Nat × Option Style)) :
    Tracks { s with tree := s.tree.noteStyles styles } where
  nodup := h.nodup
  failed i := by
    rw [CallTree.noteStyles_state]
    exact h.failed i
  location e he := by
    rw [CallTree.noteStyles_location]
    exact h.location e he
  furthest := h.furthest
  frontier := by
    have hdist : (s.tree.noteStyles styles).distill s.furthestFailures =
        s.tree.distill s.furthestFailures := CallTree.distill_congr (by simp)
    exact h.frontier.trans hdist.symm

theorem enter (h : s.Tracks) (rule : Text) (location : Location) :
    (s.enter rule location).Tracks := by
  have hold : ∀ i ∈ s.failures.map (·.call),
      (s.enter rule location).tree.node i = s.tree.node i := fun i hi =>
    CallTree.node_enter_of_lt _ _ _ (h.lt_of_mem hi)
  have hfail := s.failures_enter rule location
  refine
    { nodup := by rw [hfail]; exact h.nodup
      failed := fun i => ?_
      location := fun e he => ?_
      furthest := by rw [furthest_congr (loggable_congr hfail)]; exact h.furthest
      frontier := ?_ }
  · rw [hfail, ← h.failed]
    rcases Nat.lt_trichotomy i s.tree.nodes.length with hi | rfl | hi
    · rw [Session.enter, CallTree.node_enter_of_lt _ _ _ hi]
    · rw [Session.enter, CallTree.node_enter_length, CallTree.node_of_le (Nat.le_refl _)]
      rfl
    · rw [CallTree.node_of_le (by simp [Session.enter]; omega), CallTree.node_of_le (by omega)]
  · rw [hfail] at he
    rw [hold _ (List.mem_map_of_mem he), h.location e he]
  · rw [furthestFailures_congr (loggable_congr hfail), CallTree.distill_congr (t := s.tree)]
    · exact h.frontier
    · intro i hi
      obtain ⟨e, he, -, rfl⟩ := mem_failures_of_mem_furthestFailures hi
      rw [hold _ (List.mem_map_of_mem he)]
      exact ⟨rfl, rfl⟩

theorem logged (h : s.Tracks) : s.tree.Logged where
  nonneg := h.furthest ▸ s.furthest_nonneg
  fits := h.furthest ▸ s.fits_furthest

/-- The innermost pending call has not failed yet. -/
theorem cursor_notMem (h : s.Tracks) (hi : s.tree.Inv) (hc : s.tree.cursor ≠ 0) :
    s.tree.cursor ∉ s.failures.map (·.call) := by
  rw [← h.failed, hi.state_cursor hc]
  simp

theorem distill_close (s : Session) (outcome : Outcome) (location : Location) (calls : List Nat) :
    (s.close outcome location).tree.distill calls = s.tree.distill calls :=
  CallTree.distill_congr fun i _ => by simp [Session.close]

theorem close_matched (h : s.Tracks) (hi : s.tree.Inv) (hc : s.tree.cursor ≠ 0)
    (location : Location) : (s.close .matched location).Tracks := by
  have hnot := h.cursor_notMem hi hc
  have hfail := s.failures_close_matched location
  refine
    { nodup := by rw [hfail]; exact h.nodup
      failed := fun i => ?_
      location := fun e he => ?_
      furthest := ?_
      frontier := ?_ }
  · rw [hfail, ← h.failed, Session.close, s.tree.state_close .matched location hi.cursor]
    split
    · next hic => simp [hic, hi.state_cursor hc]
    · rfl
  · rw [hfail] at he
    rw [Session.close, s.tree.location_close .matched location hi.cursor, if_neg, h.location e he]
    exact fun heq => hnot (heq ▸ List.mem_map_of_mem he)
  · rw [furthest_congr (loggable_congr hfail), Session.close, CallTree.furthest_close_matched,
      h.furthest]
  · rw [distill_close, furthestFailures_congr (loggable_congr hfail), Session.close,
      CallTree.frontier_close_matched, h.frontier]

theorem close_failed (h : s.Tracks) (hi : s.tree.Inv) (hc : s.tree.cursor ≠ 0)
    (location : Location) : (s.close .failed location).Tracks := by
  have hnot := h.cursor_notMem hi hc
  have hfail := s.failures_close_failed location
  have htree : (s.close .failed location).tree = s.tree.close .failed location := rfl
  have hlog := loggable_concat hfail
  have hkept : s.tree.exceedsLog location.start.offset = true →
      (s.close .failed location).loggable = s.loggable := fun hexceeds => by
    rw [hlog, if_neg (by rw [(h.logged.exceedsLog_iff location).1 hexceeds]; decide)]
  have hmore : ¬s.tree.exceedsLog location.start.offset = true →
      (s.close .failed location).loggable = s.loggable ++
        [⟨.kind (.leave .failed), s.tree.current.rule, location, s.tree.cursor⟩] := by
    intro hwithin
    rw [h.logged.exceedsLog_iff, Bool.not_eq_false] at hwithin
    rw [hlog, if_pos hwithin]
  refine
    { nodup := ?_
      failed := fun i => ?_
      location := fun e he => ?_
      furthest := ?_
      frontier := ?_ }
  · rw [hfail, List.map_append]
    exact List.nodup_append.2 ⟨h.nodup, by simp, by simpa using hnot⟩
  · rw [hfail, List.map_append, List.mem_append, ← h.failed, Session.close,
      s.tree.state_close .failed location hi.cursor]
    split
    · next hic => simp [hic]
    · next hic => simp [hic]
  · rw [Session.close, s.tree.location_close .failed location hi.cursor]
    rw [hfail, List.mem_append, List.mem_singleton] at he
    rcases he with he | rfl
    · rw [if_neg, h.location e he]
      exact fun heq => hnot (heq ▸ List.mem_map_of_mem he)
    · rw [if_pos rfl]
  · rw [htree, CallTree.furthest_close_failed _ _ hi.cursor, h.furthest]
    split
    · next hexceeds => rw [furthest_congr (hkept hexceeds)]
    · next hwithin => rw [furthest_concat (hmore hwithin)]
  · rw [distill_close, htree, CallTree.frontier_close_failed _ _ hi.cursor, h.furthest, h.frontier]
    split
    · next hexceeds => rw [furthestFailures_congr (hkept hexceeds)]
    · next hwithin =>
      rw [furthestFailures_concat (hmore hwithin)]
      split
      · simp [CallTree.distill, CallTree.keep]
      · split
        · rw [CallTree.distill_concat]
        · rfl

theorem close (h : s.Tracks) (hi : s.tree.Inv) (hc : s.tree.cursor ≠ 0) (outcome : Outcome)
    (location : Location) : (s.close outcome location).Tracks := by
  cases outcome with
  | matched => exact h.close_matched hi hc location
  | failed => exact h.close_failed hi hc location

end Tracks

theorem tracks_run (calls : List TreeCall) : (run calls).Tracks := by
  refine (run_induction (P := fun s => s.tree.Inv ∧ s.Tracks) ?_ ?_ ?_ ?_ calls).2
  · exact ⟨CallTree.inv_empty, Tracks.empty⟩
  · intro s styles ⟨hi, hs⟩
    exact ⟨hi.noteStyles styles, hs.noteStyles styles⟩
  · intro s rule location ⟨hi, hs⟩
    exact ⟨hi.enter rule location, hs.enter rule location⟩
  · intro s outcome location hc ⟨hi, hs⟩
    exact ⟨hi.close hc outcome location, hs.close hi hc outcome location⟩

/-- The members of the frontier are the furthest failures that no earlier one covers. -/
theorem mem_frontier_run {calls : List TreeCall} {f : Nat} (hf : f ∈ (run calls).tree.frontier) :
    ((run calls).tree.node f).state = .resolved .failed ∧
      ((run calls).tree.node f).location.start.offset = (run calls).furthest := by
  have h := tracks_run calls
  rw [h.frontier] at hf
  obtain ⟨e, he, hoff, rfl⟩ :=
    mem_failures_of_mem_furthestFailures (CallTree.mem_of_mem_distill hf)
  exact ⟨(h.failed _).2 (List.mem_map_of_mem he), by rw [h.location e he, hoff]⟩

/-- After every run, the furthest offset is the greatest of 0 and the offsets of the failures that
the log can be told of, and the frontier is what is distilled from the calls of those that are
there. Its members failed there, no two of them are calls of one rule from one path, and none has
the path of an earlier one below it; there are none exactly when all those failures are at negative
offsets. A failure that the log cannot be told of is an error, and leaves a call that failed and
nothing else. -/
theorem frontier_run (calls : List TreeCall) :
    let s := run calls
    ((s.failures.map (·.call)).Nodup ∧
      (∀ i, (s.tree.node i).state = .resolved .failed ↔ i ∈ s.failures.map (·.call)) ∧
      ∀ e ∈ s.failures, (s.tree.node e.call).location = e.location) ∧
    s.tree.furthest = s.furthest ∧
    s.tree.frontier = s.tree.distill s.furthestFailures ∧
    (∀ f ∈ s.tree.frontier, (s.tree.node f).state = .resolved .failed ∧
      (s.tree.node f).location.start.offset = s.furthest) ∧
    (s.tree.frontier.Pairwise fun f n =>
      ¬((s.tree.node n).path = (s.tree.node f).path ∧ (s.tree.node n).rule = (s.tree.node f).rule) ∧
        (s.tree.node n).childPath ≠ (s.tree.node f).path) ∧
    (s.tree.frontier = [] ↔ ∀ e ∈ s.loggable, e.location.start.offset < 0) ∧
    ∀ location, s.tree.finish .failed location =
      if location.isLoggable then (s.tree.close .failed location, .ok s.tree.cursor)
      else (s.tree.endCurrent .failed location, .error .longNumber) := by
  intro s
  have h : s.Tracks := tracks_run calls
  refine ⟨⟨h.nodup, h.failed, h.location⟩, h.furthest, h.frontier, fun f => mem_frontier_run,
    ?_, ?_, fun location => ?_⟩
  · rw [h.frontier]
    refine (s.tree.pairwise_distill s.furthestFailures).imp fun hnot => ?_
    exact ⟨fun hsame => hnot (.inr hsame), fun hpath => hnot (.inl hpath)⟩
  · rw [h.frontier, CallTree.distill_eq_nil_iff]
    exact furthestFailures_eq_nil_iff
  · exact h.logged.finish_failed (run_inv calls).1.cursor location

/-- A failure at an offset beyond all others, which the log cannot be told of: its call failed
there, and still the furthest offset is 0 and the frontier is empty. -/
theorem frontier_run_longOffset :
    let far : Int := (10 ^ Decimal.maxDigits : Nat)
    let long : Location := ⟨⟨far, 1, 1⟩, ⟨far, 1, 1⟩⟩
    let s := run [.enter ['a'] .origin, .leave .failed ['a'] long]
    (s.tree.node 1).state = .resolved .failed ∧ (s.tree.node 1).location.start.offset = far ∧
      0 < far ∧ s.tree.furthest = 0 ∧ s.tree.frontier = [] := by
  intro far long s
  let t : CallTree := (CallTree.empty.enter ['a'] .origin).1
  have hpos : 0 < far := Int.natCast_pos.2 (Nat.pow_pos (by decide))
  have hlong : long.isLoggable = false := Location.isLoggable_tenPow 1 1 ⟨far, 1, 1⟩
  clear_value far
  have hfinish : t.finish .failed long = (t.endCurrent .failed long, .error .longNumber) := by
    have hlogged : t.Logged := ⟨Int.le_refl 0, by decide⟩
    rw [hlogged.finish_failed (by decide), hlong]
    rfl
  have htree : s.tree = t.endCurrent .failed long := by
    change (Session.take _ _ _ _ (.ok (t.finish .failed long))).tree = _
    rw [hfinish]
    rfl
  rw [htree]
  exact ⟨rfl, rfl, hpos, rfl, rfl⟩

end Session

end RuleTrace
