import Mathlib.Algebra.GroupWithZero.Nat
import Mathlib.Data.List.Induction
import RuleTrace.Proofs.Call.Update
import RuleTrace.Proofs.Tracer.Run

/-!
# Chains of tracers in step

A parser sends what it reports to the youngest tracer of a chain. Every tracer reads it and hands
the event to the older ones before it takes the event itself (`Tracer.traceChain`). The tracers of a
chain are in step when they have the same call tree. An event keeps them in step, whatever their
options, patterns and sinks are, unless one of them cannot write a number to the log or to its live
trace: the older ones have taken the event then, and the younger ones never see it.

* `Tracer.traceChain_eq`: reading an event again at every level changes nothing.
* `Tracer.recordChain_taken`, `Tracer.recordChain_refused`: what an event does to tracers in step.
* `ChainRun.lockstep_run`: tracers stay in step, and with a tracer that has no older ones.
* `ChainRun.isWritten_run`: numbers that are short enough are always written.
-/

namespace RuleTrace

/-! ## Events of a parser -/

/-- Why what a parser sends does not lead to the number of a call. -/
inductive TraceError where
  /-- It is no event. -/
  | unread (e : EventError)
  /-- A tracer does not take it. -/
  | record (e : RecordError)
deriving DecidableEq, Repr

/-- What is sent to a call tree: the tree after it, and the number of the call or the error. -/
def CallTree.trace (t : CallTree) (raw : RawEvent) : CallTree × Except TraceError Nat :=
  match raw.read with
  | .error err => (t, .error (.unread err))
  | .ok e =>
    match t.apply e with
    | .error err => (t, .error (.record (.refused err)))
    | .ok (tree, result) => (tree, result.mapError fun err => .record (.unwritten err))

namespace Tracer

/-- Takes what a parser sends into a chain of tracers, the youngest first. Each one reads it and
hands the event to the older ones before it takes the event itself. -/
def traceChain : List Tracer → RawEvent → List (Tracer × Activity) × Except TraceError Nat
  | [], _ => ([], .ok 0)
  | t :: older, raw =>
    match raw.read with
    | .error err => ((t :: older).map (·, {}), .error (.unread err))
    | .ok e =>
      match traceChain older e.toRaw with
      | (above, .error err) => ((t, {}) :: above, .error err)
      | (above, .ok _) =>
        let r := t.record e
        ((r.tracer, r.activity) :: above, r.result.mapError .record)

/-- What is no event reaches no tracer. -/
theorem traceChain_unread {raw : RawEvent} {err : EventError} (h : raw.read = .error err)
    {chain : List Tracer} (hne : chain ≠ []) :
    traceChain chain raw = (chain.map (·, {}), .error (.unread err)) := by
  obtain ⟨t, older, rfl⟩ := List.exists_cons_of_ne_nil hne
  rw [traceChain, h]

/-- Every tracer of a chain reads the same event. -/
theorem traceChain_eq {raw : RawEvent} {e : Event} (h : raw.read = .ok e) (chain : List Tracer) :
    traceChain chain raw =
      ((recordChain chain e).1, (recordChain chain e).2.mapError .record) := by
  induction chain generalizing raw with
  | nil => rfl
  | cons t older ih =>
    rw [traceChain, h]
    simp only [ih (RawEvent.read_toRaw e), recordChain]
    rcases recordChain older e with ⟨above, _ | _⟩ <;> rfl

/-- An error of an older tracer stops an event. -/
theorem recordChain_cons_error {chain : List Tracer} {e : Event} (t : Tracer) {err : RecordError}
    (h : (recordChain chain e).2 = .error err) :
    recordChain (t :: chain) e = ((t, {}) :: (recordChain chain e).1, .error err) := by
  rw [recordChain]
  generalize recordChain chain e = r at h
  obtain ⟨above, _⟩ := r
  subst h
  rfl

/-- An event that the older tracers take goes to the youngest one. -/
theorem recordChain_cons_ok {chain : List Tracer} {e : Event} (t : Tracer) {i : Nat}
    (h : (recordChain chain e).2 = .ok i) :
    recordChain (t :: chain) e =
      (((t.record e).tracer, (t.record e).activity) :: (recordChain chain e).1,
        (t.record e).result) := by
  rw [recordChain]
  generalize recordChain chain e = r at h
  obtain ⟨above, _⟩ := r
  subst h
  rfl

/-! ## Tracers in step -/

section
variable {chain : List Tracer} {tree : CallTree} (hstep : ∀ t ∈ chain, t.tree = tree) {e : Event}

/-- An event that the call tree takes is taken, even if a number cannot be written. -/
theorem record_taken {t : Tracer} {after : CallTree} {r : Except Decimal.LengthError Nat}
    (h : t.tree.apply e = .ok (after, r)) :
    (t.record e).tracer.tree = after ∧
      ((t.record e).result = r.mapError .unwritten ∨
        ∃ err, (t.record e).result = .error (.unwritten err)) := by
  unfold record
  simp only [h]
  rcases r with err | i
  · exact ⟨rfl, .inl rfl⟩
  · dsimp only
    split
    · next err _ => exact ⟨rfl, .inr ⟨err, rfl⟩⟩
    · next hwrite =>
      refine ⟨?_, .inl rfl⟩
      obtain ⟨rfl | rfl, -⟩ := writeLive_cases hwrite <;> rfl

include hstep

/-- An event that the call tree refuses stops at the oldest tracer and changes none. -/
theorem recordChain_refused (hne : chain ≠ []) {err : CallError} (h : tree.apply e = .error err) :
    recordChain chain e = (chain.map (·, {}), .error (.refused err)) := by
  induction chain with
  | nil => exact absurd rfl hne
  | cons t older ih =>
    rw [List.forall_mem_cons] at hstep
    rw [recordChain]
    by_cases hlast : older = []
    · subst hlast
      simp [recordChain, record, hstep.1, h]
    · rw [ih hstep.2 hlast]
      rfl

/-- An event that the call tree takes is taken by every tracer, as long as the older ones can write
its numbers. -/
theorem recordChain_taken {after : CallTree} {result : Except Decimal.LengthError Nat}
    (h : tree.apply e = .ok (after, result))
    (hwritten : ∀ err, (recordChain chain e).2 ≠ .error (.unwritten err)) :
    (recordChain chain e).1.length = chain.length ∧
      (∀ r ∈ (recordChain chain e).1, r.1.tree = after) ∧
      (recordChain chain e).2 = if chain = [] then .ok 0 else result.mapError .unwritten := by
  induction chain with
  | nil => simp [recordChain]
  | cons t older ih =>
    rw [List.forall_mem_cons] at hstep
    cases hresult : (recordChain older e).2 with
    | error err =>
      rw [recordChain_cons_error t hresult] at hwritten
      obtain ⟨-, -, holder⟩ := ih hstep.2 fun err' herr => hwritten err' (hresult.symm.trans herr)
      rw [hresult] at holder
      split at holder
      · cases holder
      · rcases result with err' | i
        · exact absurd holder (by simpa [Except.mapError] using hwritten err')
        · cases holder
    | ok j =>
      obtain ⟨hlength, hafter, -⟩ := ih hstep.2 fun err herr => by cases hresult.symm.trans herr
      rw [recordChain_cons_ok t hresult] at hwritten ⊢
      obtain ⟨htree, hok⟩ := record_taken (hstep.1 ▸ h)
      refine ⟨by rw [List.length_cons, hlength, List.length_cons],
        List.forall_mem_cons.2 ⟨htree, hafter⟩, ?_⟩
      obtain hok | ⟨err, herr⟩ := hok
      · rw [hok, if_neg (List.cons_ne_nil t older)]
      · exact absurd herr (hwritten err)

end

/-- As long as the numbers can be written, everything that is sent does to each tracer what it does
to a call tree. -/
theorem traceChain_trace {chain : List Tracer} (hne : chain ≠ []) {tree : CallTree}
    (hstep : ∀ t ∈ chain, t.tree = tree) (raw : RawEvent)
    (hwritten : ∀ err, (traceChain chain raw).2 ≠ .error (.record (.unwritten err))) :
    (traceChain chain raw).1.length = chain.length ∧
      (∀ r ∈ (traceChain chain raw).1, r.1.tree = (tree.trace raw).1) ∧
      (traceChain chain raw).2 = (tree.trace raw).2 := by
  have hsame : ∀ r ∈ chain.map fun t => (t, ({} : Activity)), r.1.tree = tree := by
    simpa using hstep
  unfold CallTree.trace
  cases hread : raw.read with
  | error err =>
    rw [traceChain_unread hread hne]
    exact ⟨List.length_map _, hsame, rfl⟩
  | ok e =>
    rw [traceChain_eq hread] at hwritten ⊢
    cases happly : tree.apply e with
    | error err =>
      rw [recordChain_refused hstep hne happly]
      simp only [happly]
      exact ⟨List.length_map _, hsame, rfl⟩
    | ok after =>
      obtain ⟨hlength, hafter, hok⟩ := recordChain_taken hstep happly fun err herr =>
        hwritten err (by rw [herr]; rfl)
      simp only [happly]
      refine ⟨hlength, hafter, ?_⟩
      rw [hok, if_neg hne]
      cases after.2 <;> rfl

end Tracer

/-! ## Writable numbers -/

/-- A column that is too long is in the location of a far offset. -/
theorem isWritable_locate_far {far : Nat} (h : 10 ^ Decimal.maxDigits ≤ far + 1) :
    (locate ['q'] far far).isWritable = false := by
  have hpos : 10 ^ 1 ≤ 10 ^ Decimal.maxDigits := Nat.pow_le_pow_right (by decide) (by decide)
  have hcut : Text.cut 1 (far : Int) = 1 := by
    unfold Text.cut
    split <;> omega
  have hcolumn : (Position.ofOffset ['q'] far).column = (far + 1 : Nat) := by
    simp [Position.ofOffset, Text.upto, hcut, Text.lastLineLength]
  have hlong : Decimal.fits (Position.ofOffset ['q'] far).column = false := by
    rw [hcolumn, ← Bool.not_eq_true, Decimal.fits_iff, Int.natAbs_natCast]
    exact Nat.not_lt.2 h
  simp [Location.isWritable, locate, hlong]

namespace CallTree

/-- The call that an event is about is at its location, unless the tree has no such call. -/
theorem location_apply {t tree : CallTree} {e : Event} {i : Nat}
    (h : t.apply e = .ok (tree, .ok i)) :
    (tree.node i).location = e.location ∨ (tree.node i).location = .origin := by
  rcases apply_ok_cases h with ⟨-, rfl, rfl⟩ | ⟨outcome, -, rfl, rfl⟩
  · exact .inl (congrArg Node.location (t.node_enter_length e.rule e.location))
  · rcases Nat.lt_or_ge t.cursor t.nodes.length with hlt | hle
    · rw [location_close t outcome e.location hlt, if_pos rfl]
      exact .inl rfl
    · rw [node_of_le (by rwa [length_close])]
      exact .inr rfl

end CallTree

namespace Tracer

/-- The numbers of an event are written if they are short enough, those of its block also if the
live trace is off. -/
theorem record_written {t : Tracer} {e : Event}
    (hoffset : Decimal.fits e.location.start.offset = true)
    (h : t.options.showTrace = true → e.location.isWritable = true) (err : Decimal.LengthError) :
    (t.record e).result ≠ .error (.unwritten err) := by
  unfold record
  split
  · simp
  · next happly =>
    obtain ⟨i, hi⟩ := CallTree.apply_ok_of_fits happly hoffset
    cases hi
  · next tree i happly =>
    dsimp only
    split
    · next hwrite =>
      unfold writeLive at hwrite
      split_ifs at hwrite with hshown hfits
      · have hshow : t.options.showTrace = true := by
          rw [Bool.or_eq_true, not_or] at hshown
          simpa using hshown.1
        obtain hlocation | hlocation := CallTree.location_apply happly
        · rw [hlocation, h hshow] at hfits
          cases hfits
        · rw [hlocation] at hfits
          exact absurd hfits (by decide)
      · split at hwrite <;> cases hwrite
    · simp

/-- A call that is shown and has a number that is too long is in the tree, and still an error. -/
theorem record_unwritten {t : Tracer} {e : Event} {tree : CallTree} {i : Nat}
    (h : t.tree.apply e = .ok (tree, .ok i)) (hshow : t.options.showTrace = true)
    (hshown : (tree.node i).isHidden t.hidden = false)
    (hlong : (tree.node i).location.isWritable = false) :
    (t.record e).tracer = { t with tree } ∧
      (t.record e).result = .error (.unwritten .longNumber) := by
  have hwrite : writeLive { t with tree } e.kind (tree.node i) = .error .longNumber := by
    simp [writeLive, hshow, hshown, hlong]
  unfold record
  simp only [h, hwrite, and_self]

/-- An event turns no live trace on. -/
theorem record_showTrace {t : Tracer} {e : Event}
    (h : (t.record e).tracer.options.showTrace = true) : t.options.showTrace = true := by
  obtain hsame | ⟨tree, i, -, hsame | hsame⟩ := record_cases t e
  · rwa [hsame] at h
  · rwa [hsame] at h
  · rw [hsame] at h
    cases h

/-- The tracers of a chain whose live traces are on had them on before. -/
theorem recordChain_showTrace {chain : List Tracer} {e : Event}
    (h : ∃ r ∈ (recordChain chain e).1, r.1.options.showTrace = true) :
    ∃ t ∈ chain, t.options.showTrace = true := by
  induction chain with
  | nil => simp [recordChain] at h
  | cons t older ih =>
    simp only [List.mem_cons, exists_eq_or_imp]
    cases hresult : (recordChain older e).2 with
    | error err =>
      simp only [recordChain_cons_error t hresult, List.mem_cons, exists_eq_or_imp] at h
      exact h.imp id ih
    | ok j =>
      simp only [recordChain_cons_ok t hresult, List.mem_cons, exists_eq_or_imp] at h
      exact h.imp record_showTrace ih

/-- The numbers of an event are written if they are short enough, those of its blocks also if no
live trace is on. -/
theorem recordChain_written {chain : List Tracer} {e : Event}
    (hoffset : Decimal.fits e.location.start.offset = true)
    (h : (∃ t ∈ chain, t.options.showTrace = true) → e.location.isWritable = true)
    (err : Decimal.LengthError) : (recordChain chain e).2 ≠ .error (.unwritten err) := by
  induction chain with
  | nil => simp [recordChain]
  | cons t older ih =>
    simp only [List.mem_cons, exists_eq_or_imp] at h
    cases hresult : (recordChain older e).2 with
    | error err' =>
      rw [recordChain_cons_error t hresult, ← hresult]
      exact ih fun hshow => h (.inr hshow)
    | ok j =>
      rw [recordChain_cons_ok t hresult]
      exact record_written hoffset (fun hshow => h (.inl hshow)) err

/-- The tracers of a chain whose live traces are on after something is sent had them on before. -/
theorem traceChain_showTrace {chain : List Tracer} {raw : RawEvent}
    (h : ∃ r ∈ (traceChain chain raw).1, r.1.options.showTrace = true) :
    ∃ t ∈ chain, t.options.showTrace = true := by
  by_cases hne : chain = []
  · subst hne
    simp [traceChain] at h
  · cases hread : raw.read with
    | error err =>
      rw [traceChain_unread hread hne] at h
      simpa using h
    | ok e =>
      rw [traceChain_eq hread] at h
      exact recordChain_showTrace h

/-- What is sent is written if its numbers are short enough, those of the blocks also if no live
trace is on. -/
theorem traceChain_written {chain : List Tracer} {raw : RawEvent}
    (h : ∀ e, raw.read = .ok e → Decimal.fits e.location.start.offset = true ∧
      ((∃ t ∈ chain, t.options.showTrace = true) → e.location.isWritable = true))
    (err : Decimal.LengthError) :
    (traceChain chain raw).2 ≠ .error (.record (.unwritten err)) := by
  by_cases hne : chain = []
  · subst hne
    simp [traceChain]
  · cases hread : raw.read with
    | error err' =>
      rw [traceChain_unread hread hne]
      simp
    | ok e =>
      have hrecord := recordChain_written (h e hread).1 (h e hread).2 err
      rw [traceChain_eq hread]
      revert hrecord
      cases (recordChain chain e).2 <;> simp [Except.mapError]

end Tracer

/-! ## Runs -/

/-- A chain of tracers, the youngest first, and what everything sent to it came to. -/
structure ChainRun where
  tracers : List Tracer
  results : List (Except TraceError Nat) := []

namespace ChainRun

/-- The run after something more is sent. -/
def step (r : ChainRun) (raw : RawEvent) : ChainRun :=
  let (after, result) := Tracer.traceChain r.tracers raw
  { tracers := after.map (·.1), results := r.results ++ [result] }

/-- The run after all that is sent. -/
def run (r : ChainRun) (raws : List RawEvent) : ChainRun :=
  raws.foldl step r

theorem run_concat (r : ChainRun) (raws : List RawEvent) (raw : RawEvent) :
    r.run (raws ++ [raw]) = (r.run raws).step raw := by
  simp [run]

theorem step_of_read (r : ChainRun) {raw : RawEvent} {e : Event} (h : raw.read = .ok e) :
    r.step raw =
      { tracers := (Tracer.recordChain r.tracers e).1.map (·.1)
        results := r.results ++ [(Tracer.recordChain r.tracers e).2.mapError .record] } := by
  rw [step, Tracer.traceChain_eq h]

/-- Every number could be written that the logs and the live traces have to tell. -/
def IsWritten (r : ChainRun) : Prop :=
  ∀ err, .error (.record (.unwritten err)) ∉ r.results

/-- The tracers of two chains have one call tree, and what was sent came to the same. -/
structure InStep (r l : ChainRun) (tree : CallTree) : Prop where
  left : ∀ t ∈ r.tracers, t.tree = tree
  right : ∀ t ∈ l.tracers, t.tree = tree
  results : r.results = l.results

theorem IsWritten.of_step {r : ChainRun} {raw : RawEvent} (h : (r.step raw).IsWritten) :
    r.IsWritten ∧
      ∀ err, (Tracer.traceChain r.tracers raw).2 ≠ .error (.record (.unwritten err)) := by
  refine ⟨fun err hmem => h err (List.mem_append_left _ hmem), fun err herr => h err ?_⟩
  rw [← herr]
  exact List.mem_append_right _ List.mem_cons_self

/-- A written step does to a chain what it does to its call tree. -/
theorem step_trace {r : ChainRun} {raw : RawEvent} {tree : CallTree} (hne : r.tracers ≠ [])
    (htree : ∀ t ∈ r.tracers, t.tree = tree) (hwritten : (r.step raw).IsWritten) :
    (r.step raw).tracers.length = r.tracers.length ∧
      (∀ t ∈ (r.step raw).tracers, t.tree = (tree.trace raw).1) ∧
      (r.step raw).results = r.results ++ [(tree.trace raw).2] := by
  obtain ⟨hlength, hafter, hresult⟩ := Tracer.traceChain_trace hne htree raw hwritten.of_step.2
  refine ⟨by simpa [step] using hlength, fun t ht => ?_, by simp [step, hresult]⟩
  obtain ⟨a, ha, rfl⟩ := List.mem_map.1 ht
  exact hafter a ha

/-- What is sent keeps two chains in step, and their lengths. -/
theorem InStep.run {r l : ChainRun} {tree : CallTree} (h : InStep r l tree) (hr : r.tracers ≠ [])
    (hl : l.tracers ≠ []) {raws : List RawEvent} (hrw : (r.run raws).IsWritten)
    (hlw : (l.run raws).IsWritten) :
    (r.run raws).tracers.length = r.tracers.length ∧
      (l.run raws).tracers.length = l.tracers.length ∧
      ∃ after, InStep (r.run raws) (l.run raws) after := by
  induction raws using List.reverseRecOn with
  | nil => exact ⟨rfl, rfl, tree, h⟩
  | append_singleton raws raw ih =>
    rw [run_concat] at hrw hlw ⊢
    rw [run_concat]
    obtain ⟨hrlength, hllength, before, hbefore⟩ := ih hrw.of_step.1 hlw.of_step.1
    have hrne : (r.run raws).tracers ≠ [] := by
      rw [← List.length_pos_iff, hrlength]
      exact List.length_pos_iff.2 hr
    have hlne : (l.run raws).tracers ≠ [] := by
      rw [← List.length_pos_iff, hllength]
      exact List.length_pos_iff.2 hl
    obtain ⟨hrstep, hrtree, hrresults⟩ := step_trace hrne hbefore.left hrw
    obtain ⟨hlstep, hltree, hlresults⟩ := step_trace hlne hbefore.right hlw
    exact ⟨hrstep.trans hrlength, hlstep.trans hllength, _, hrtree, hltree,
      by rw [hrresults, hlresults, hbefore.results]⟩

/-- What is sent keeps a chain written, if its numbers are short enough. -/
theorem IsWritten.step {r : ChainRun} (hr : r.IsWritten) {raw : RawEvent}
    (h : ∀ e, raw.read = .ok e → Decimal.fits e.location.start.offset = true ∧
      ((∃ t ∈ r.tracers, t.options.showTrace = true) → e.location.isWritable = true)) :
    (r.step raw).IsWritten := by
  intro err hmem
  rcases List.mem_append.1 hmem with hmem | hmem
  · exact hr err hmem
  · exact Tracer.traceChain_written h err (List.mem_singleton.1 hmem).symm

/-- What is sent turns no live trace on. -/
theorem showTrace_run {r : ChainRun} {raws : List RawEvent}
    (h : ∃ t ∈ (r.run raws).tracers, t.options.showTrace = true) :
    ∃ t ∈ r.tracers, t.options.showTrace = true := by
  induction raws using List.reverseRecOn with
  | nil => exact h
  | append_singleton raws raw ih =>
    rw [run_concat] at h
    obtain ⟨t, ht, hon⟩ := h
    obtain ⟨a, ha, rfl⟩ := List.mem_map.1 ht
    exact ih (Tracer.traceChain_showTrace ⟨a, ha, hon⟩)

/-- Short numbers can be written, and those of live traces that are off need not be. -/
theorem isWritten_run {r : ChainRun} (hr : r.IsWritten) {raws : List RawEvent}
    (h : ∀ raw ∈ raws, ∀ e, raw.read = .ok e → Decimal.fits e.location.start.offset = true ∧
      ((∃ t ∈ r.tracers, t.options.showTrace = true) → e.location.isWritable = true)) :
    (r.run raws).IsWritten := by
  induction raws using List.reverseRecOn with
  | nil => exact hr
  | append_singleton raws raw ih =>
    rw [List.forall_mem_append, List.forall_mem_singleton] at h
    rw [run_concat]
    exact (ih h.1).step fun e hread =>
      ⟨(h.2 e hread).1, fun hshow => (h.2 e hread).2 (showTrace_run hshow)⟩

end ChainRun

/-! ## Fresh chains -/

namespace Tracer

theorem ofSetup_eq_ok {s : TracerSetup} {t : Tracer} (h : ofSetup s = .ok t) :
    ∃ source hidden, Source.ofText? s.source = .ok source ∧ patternsOf s.hidden = .ok hidden ∧
      t = {
        options := { s.options with maxSourceLines := max s.options.maxSourceLines 3 }
        source, hidden, sink := s.sink } := by
  unfold ofSetup at h
  cases hsource : Source.ofText? s.source with
  | error err =>
    rw [hsource] at h
    cases h
  | ok source =>
    cases hhidden : patternsOf s.hidden with
    | error err =>
      rw [hsource, hhidden] at h
      cases h
    | ok hidden =>
      rw [hsource, hhidden] at h
      exact ⟨source, hidden, rfl, rfl, (Except.ok.inj h).symm⟩

theorem tree_ofSetup {s : TracerSetup} {t : Tracer} (h : ofSetup s = .ok t) :
    t.tree = .empty ∧ t.options.showTrace = s.options.showTrace := by
  obtain ⟨source, hidden, -, -, rfl⟩ := ofSetup_eq_ok h
  exact ⟨rfl, rfl⟩

theorem tree_chainOf {setups : List TracerSetup} {chain : List Tracer}
    (h : chainOf setups = .ok chain) :
    chain.length = setups.length ∧ ∀ t ∈ chain, t.tree = .empty := by
  induction setups generalizing chain with
  | nil =>
    cases h
    simp
  | cons s older ih =>
    unfold chainOf at h
    cases holder : chainOf older with
    | error err =>
      rw [holder] at h
      cases h
    | ok above =>
      cases hs : ofSetup s with
      | error err =>
        rw [holder, hs] at h
        cases h
      | ok t =>
        rw [holder, hs] at h
        cases h
        obtain ⟨hlength, htree⟩ := ih holder
        exact ⟨congrArg (· + 1) hlength, List.forall_mem_cons.2 ⟨(tree_ofSetup hs).1, htree⟩⟩

end Tracer

namespace ChainRun

/-- Tracers of one chain, made from anything, stay in step with each other and with a tracer that
has no older ones, as long as the logs and the live traces can be written: after everything that was
sent they have the same call tree, and it came to the same. -/
theorem lockstep_run {s lone : TracerSetup} {older : List TracerSetup} {chain : List Tracer}
    {t : Tracer} (hchain : Tracer.chainOf (s :: older) = .ok chain)
    (hlone : Tracer.ofSetup lone = .ok t) (raws : List RawEvent)
    (hwritten : (run { tracers := chain } raws).IsWritten)
    (hlonewritten : (run { tracers := [t] } raws).IsWritten) :
    let r := run { tracers := chain } raws
    let l := run { tracers := [t] } raws
    r.tracers.length = older.length + 1 ∧ l.tracers.length = 1 ∧
      (∃ tree, (∀ u ∈ r.tracers, u.tree = tree) ∧ ∀ v ∈ l.tracers, v.tree = tree) ∧
      r.results = l.results := by
  intro r l
  obtain ⟨hlength, htree⟩ := Tracer.tree_chainOf hchain
  have hne : chain ≠ [] := by
    rw [← List.length_pos_iff, hlength]
    exact Nat.succ_pos _
  have hstart : InStep { tracers := chain } { tracers := [t] } .empty :=
    ⟨htree, by simpa using (Tracer.tree_ofSetup hlone).1, rfl⟩
  obtain ⟨hr, hl, tree, hrun⟩ := hstart.run hne (List.cons_ne_nil t []) hwritten hlonewritten
  exact ⟨hr.trans hlength, hl, ⟨tree, hrun.left, hrun.right⟩, hrun.results⟩

/-- A refused call and a call that failed, in a chain whose oldest tracer cannot write its live
trace. -/
theorem lockstep_run_brokenSink :
    let quiet : TracerSetup := { source := some "ab".toList, sink := ⟨false, false⟩ }
    let live : TracerSetup := { quiet with options := { showTrace := true }, sink := ⟨false, true⟩ }
    let l := locate "ab".toList 0 1
    let raws : List RawEvent := [.unit (.kind .enter) "start".toList (.location l),
      .unit (.kind (.leave .matched)) "list".toList (.location l), .fields none none none none,
      .unit (.plain (.text "fail".toList)) "start".toList (.location l)]
    ∃ child parent lone, Tracer.chainOf [quiet, live] = .ok [child, parent] ∧
      Tracer.ofSetup quiet = .ok lone ∧
      (run { tracers := [child, parent] } raws).results =
        (run { tracers := [lone] } raws).results := by
  intro quiet live l raws
  let lone : Tracer := ⟨{}, ⟨["ab".toList]⟩, [], ⟨false, false⟩, .empty⟩
  let parent : Tracer := { lone with options := { showTrace := true }, sink := ⟨false, true⟩ }
  have hchain : Tracer.chainOf [quiet, live] = .ok [lone, parent] := rfl
  have hlone : Tracer.ofSetup quiet = .ok lone := rfl
  have hwritable : ∀ raw ∈ raws, ∀ e, raw.read = .ok e →
      Decimal.fits e.location.start.offset = true ∧ e.location.isWritable = true := by
    simp only [raws, List.forall_mem_cons]
    refine ⟨?_, ?_, ?_, ?_, by simp⟩ <;> intro e he <;> cases he <;> decide
  have hwritten : ∀ tracers, (run { tracers } raws).IsWritten := fun tracers =>
    isWritten_run (r := { tracers }) (fun err => List.not_mem_nil) fun raw hraw e he =>
      ⟨(hwritable raw hraw e he).1, fun _ => (hwritable raw hraw e he).2⟩
  obtain ⟨-, -, -, hresults⟩ := lockstep_run hchain hlone raws (hwritten _) (hwritten _)
  exact ⟨lone, parent, lone, hchain, hlone, hresults⟩

/-- A column that is too long for the live trace of the older tracer keeps a call from the younger
one. -/
theorem lockstep_run_longColumn :
    let quiet : TracerSetup := { source := some ['q'], sink := ⟨false, false⟩ }
    let live : TracerSetup := { quiet with options := { showTrace := true } }
    let far : Int := (10 ^ Decimal.maxDigits - 1 : Nat)
    let raws : List RawEvent := [.unit (.kind .enter) ['a'] (.location (locate ['q'] far far))]
    ∃ child parent lone, Tracer.chainOf [quiet, live] = .ok [child, parent] ∧
      Tracer.ofSetup quiet = .ok lone ∧
      (∃ child' parent', (run { tracers := [child, parent] } raws).tracers = [child', parent'] ∧
        child'.tree ≠ parent'.tree) ∧
      (run { tracers := [child, parent] } raws).results ≠
        (run { tracers := [lone] } raws).results := by
  intro quiet live far raws
  let lone : Tracer := ⟨{}, ⟨[['q']]⟩, [], ⟨false, false⟩, .empty⟩
  let parent : Tracer := { lone with options := { showTrace := true } }
  let e : Event := ⟨.enter, ['a'], locate ['q'] far far⟩
  have hlong : e.location.isWritable = false :=
    isWritable_locate_far (Nat.le_add_of_sub_le (Nat.le_refl _))
  obtain ⟨hafter, hresult⟩ := Tracer.record_unwritten (t := parent) (e := e) (i := 1) rfl rfl rfl
    hlong
  have hnone : (Tracer.recordChain [] e).2 = .ok 0 := rfl
  have hparent := Tracer.recordChain_cons_ok parent hnone
  have hrefused : (Tracer.recordChain [parent] e).2 = .error (.unwritten .longNumber) := by
    rw [hparent, hresult]
  have hchild := Tracer.recordChain_cons_error lone hrefused
  have hlone : (lone.record e).result = .ok 1 := rfl
  have hread : RawEvent.read (.unit (.kind .enter) ['a'] (.location (locate ['q'] far far))) =
    .ok e := rfl
  have hrun : ∀ tracers, run { tracers } raws =
      { tracers := (Tracer.recordChain tracers e).1.map (·.1)
        results := [(Tracer.recordChain tracers e).2.mapError .record] } := fun tracers =>
    step_of_read { tracers } hread
  refine ⟨lone, parent, lone, rfl, rfl, ⟨lone, (parent.record e).tracer, ?_, ?_⟩, ?_⟩
  · rw [hrun, hchild, hparent]
    rfl
  · rw [hafter]
    exact fun heq => absurd (congrArg (·.nodes.length) heq) (by decide)
  · rw [hrun, hrun, hchild, Tracer.recordChain_cons_ok lone hnone]
    simp [hlone, Except.mapError]

end ChainRun

end RuleTrace
