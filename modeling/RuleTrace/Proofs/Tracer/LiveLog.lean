import RuleTrace.Proofs.Call.Descendants
import RuleTrace.Proofs.Tracer.PlainOutput
import RuleTrace.Proofs.Tracer.Refusal

/-!
# The live trace as a list of events

The events that a call tree accepts are a list by themselves (`Session.accepted`). The live trace of
a tracer without older ones, in plain ink and on a sink that works and is no terminal, writes that
list: one block for each event in order, but none for those whose call is hidden or that have a
number too long for the log or for the live trace. A block is indented by the count of callers, so
that an enter event and the end of the same call are at one depth.

A tree only grows (`CallTree.Extends`), so it makes no difference whether the blocks are made from
the trees after each event or from the last one.

* `Tracer.liveLevel_apply`: the depth of a block is the count of callers.
* `Tracer.liveBlock_plain`, `Tracer.shows_liveBlock_plain`: the rows of a block.
* `Tracer.record_entry`: what one event writes.
* `TracerRun.Logs.send`, `TracerRun.Logs.run`: the list after one event more, and after a run.
* `TracerRun.liveTrace_run`: what a run writes.
-/

namespace RuleTrace

/-! ## Trees that grow -/

theorem Node.origin_eq_iff {n m : Node} : n.origin = m.origin ↔
    n.number = m.number ∧ n.path = m.path ∧ n.rule = m.rule ∧ n.parent = m.parent := by
  simp [Node.origin]

namespace CallTree

/-- The calls of the first tree are in the second one, with the same numbers, paths, rules and
callers. -/
structure Extends (t u : CallTree) : Prop where
  length : t.nodes.length ≤ u.nodes.length
  origin : ∀ i < t.nodes.length, (u.node i).origin = (t.node i).origin

section
variable {t u : CallTree} {e : Event} {i : Nat} {result : Except Decimal.LengthError Nat}

theorem Extends.caller (h : t.Extends u) (hi : i < t.nodes.length) : u.caller i = t.caller i :=
  congrArg (fun o => o.2.2.2.getD 0) (h.origin i hi)

/-- The callers of a call stay. -/
theorem Extends.ancestors (h : t.Extends u) (ht : t.WellFormed) (hi : i < t.nodes.length) :
    u.ancestors i = t.ancestors i := by
  have hlt : t.caller i < t.nodes.length := by
    by_cases h0 : i = 0
    · rw [h0, CallTree.caller, ht.root.1]
      exact ht.nonempty
    · exact Nat.lt_trans (ht.caller_lt h0) hi
  rw [CallTree.ancestors, CallTree.ancestors, h.caller hi]
  exact chain_congr fun j hj => h.caller (by omega)

theorem Extends.apply (h : t.apply e = .ok (u, result)) : t.Extends u := by
  rcases apply_cases h with ⟨-, rfl, -⟩ | ⟨outcome, -, rfl, -⟩
  · refine ⟨by simp, fun j hj => ?_⟩
    rw [node_enter_of_lt t e.rule e.location hj]
  · exact ⟨by simp, fun j _ => t.origin_close outcome e.location j⟩

/-- An event is about a call of the tree after it, which is at the location of the event. If the log
cannot be told of the event, that is the innermost call. -/
theorem Inv.node_apply (h : t.Inv) (ha : t.apply e = .ok (u, result)) :
    let i := result.toOption.getD t.cursor
    i < u.nodes.length ∧ (u.node i).location = e.location := by
  rcases apply_cases ha with ⟨-, rfl, rfl⟩ | ⟨outcome, -, rfl, rfl⟩
  · show t.nodes.length < _ ∧ ((t.enter e.rule e.location).1.node t.nodes.length).location = _
    rw [node_enter_length]
    exact ⟨by simp, rfl⟩
  · have hcall : (t.finish outcome e.location).2.toOption.getD t.cursor = t.cursor := by
      rcases t.finish_snd_cases outcome e.location with hr | ⟨-, hr⟩ <;> rw [hr] <;> rfl
    simp only [hcall]
    rw [location_close t outcome e.location h.cursor, if_pos rfl, length_close]
    exact ⟨h.cursor, rfl⟩

/-- Whether no call of a tree has an escape character in its path. -/
def HasCleanPaths (t : CallTree) : Prop :=
  ∀ i, escapeChar ∉ (t.node i).path ∧ escapeChar ∉ (t.node i).rule

theorem hasCleanPaths_empty : empty.HasCleanPaths := by
  intro i
  rcases Nat.lt_or_ge i 1 with hi | hi
  · obtain rfl : i = 0 := by omega
    exact ⟨List.not_mem_nil, List.not_mem_nil⟩
  · rw [node_of_le hi]
    exact ⟨List.not_mem_nil, List.not_mem_nil⟩

theorem HasCleanPaths.apply (h : t.HasCleanPaths) (he : escapeChar ∉ e.rule)
    (ha : t.apply e = .ok (u, result)) : u.HasCleanPaths := by
  intro j
  rcases apply_cases ha with ⟨-, rfl, -⟩ | ⟨outcome, -, rfl, -⟩
  · rcases Nat.lt_trichotomy j t.nodes.length with hj | rfl | hj
    · rw [node_enter_of_lt t e.rule e.location hj]
      exact h j
    · rw [node_enter_length]
      refine ⟨?_, he⟩
      rw [Node.childPath, List.mem_append, List.mem_append, not_or, not_or]
      exact ⟨h t.cursor, by decide⟩
    · rw [node_of_le (by rw [length_enter]; exact hj)]
      exact ⟨List.not_mem_nil, List.not_mem_nil⟩
  · simpa using h j

end

end CallTree

/-- The depth of the block for an event is the count of the callers of its call. -/
theorem Tracer.liveLevel_apply {t : Tracer} {u : CallTree} {e : Event} {i : Nat} (h : t.tree.Inv)
    (ha : t.tree.apply e = .ok (u, .ok i)) :
    liveLevel { t with tree := u } e.kind = (u.ancestors i).length := by
  have hdepth := (h.apply ha).depth
  rcases CallTree.apply_ok_cases ha with ⟨hkind, rfl, rfl⟩ | ⟨outcome, hkind, rfl, rfl⟩
  · rw [h.pending_enter] at hdepth
    rw [hkind, liveLevel, hdepth, CallTree.ancestors, h.caller_enter_length,
      CallTree.chain_enter_of_lt _ _ _ h.cursor]
    rfl
  · rw [hkind, liveLevel, hdepth, CallTree.ancestors, CallTree.close_caller, CallTree.pending,
      CallTree.close_cursor]

/-! ## Blocks -/

/-- A quote in plain ink has no escape character, if the source has none. -/
theorem Source.escapeChar_notMem_quote {s : Source} (h : s.IsClean) (highlight : Option Style)
    (r : LineRange) {lead : Text} (hlead : escapeChar ∉ lead) (maxLines : Option Int) :
    ∀ row ∈ s.quote ⟨.plain, highlight⟩ lead r maxLines, escapeChar ∉ row := by
  intro row hrow
  have hmarker : ∀ indent count c, c ≠ escapeChar →
      escapeChar ∉ QuoteStyle.marker ⟨.plain, highlight⟩ indent count c :=
    fun indent count _ hc => (shows_marker .plain highlight indent count hc).clean
  have hexcerpt : ∀ row ∈ s.paintedExcerpt ⟨.plain, highlight⟩ r, escapeChar ∉ row := by
    rw [paintedExcerpt_plain]
    exact List.forall_mem_map.2 fun i _ => h.line _
  obtain ⟨body, hbody, rfl⟩ := exists_of_mem_quote hmarker (by decide) hexcerpt hrow
  rw [List.mem_append, not_or]
  exact ⟨hlead, hbody⟩

/-- The tag of an event, none if its kind is not a proper one. -/
def Entry.tag (e : Entry) : Text :=
  match e.kind with
  | .kind kind => kind.tag.1
  | .plain _ => []

/-- Whether the log can be told of an accepted event. -/
def Entry.isLoggable (e : Entry) : Bool :=
  e.kind ≠ .kind (.leave .failed) || e.location.isLoggable

namespace Tracer

/-- The rows that quote the source in a block, none if they are not asked for. -/
def quotedRows (t : Tracer) (l : Location) : List Text :=
  if t.options.showSource then t.sourceLines [] l (some t.options.maxSourceLines) else []

/-- The block for an accepted event. Its first row has the tag and the title of the call at the
location of the event, the others quote the source there. The first row is indented by the count of
callers, the others by two more. -/
def eventBlock (t : Tracer) (tree : CallTree) (e : Entry) : Text :=
  let depth := (tree.ancestors e.call).length
  let title := t.title { tree.node e.call with location := e.location }
  Text.unlines ((List.replicate depth ' ' ++ e.tag ++ ' ' :: title) ::
    (t.quotedRows e.location).map (List.replicate (depth + 2) ' ' ++ ·)) ++ ['\n']

/-- Whether there is a block for an accepted event: its call is not hidden, the log can be told of
it, and its lines and columns are short enough to be written. -/
def hasBlock (t : Tracer) (tree : CallTree) (e : Entry) : Bool :=
  !(tree.node e.call).isHidden t.hidden && e.isLoggable && e.location.isWritable

/-- The blocks for the accepted events of a session, in order. -/
def logText (t : Tracer) (log : Session) : Text :=
  (log.accepted.filter (t.hasBlock log.tree)).flatMap (t.eventBlock log.tree)

section
variable (t : Tracer)

/-- A title depends on a location and on what is set when the rule is entered. -/
theorem title_congr {n m : Node} (horigin : n.origin = m.origin) (l : Location) :
    t.title { n with location := l } = t.title { m with location := l } := by
  obtain ⟨hnumber, hpath, hrule, -⟩ := Node.origin_eq_iff.1 horigin
  simp only [title, callName, hnumber, hpath, hrule]

theorem isHidden_congr {n m : Node} (horigin : n.origin = m.origin) (patterns : List Pattern) :
    n.isHidden patterns = m.isHidden patterns := by
  obtain ⟨-, hpath, hrule, -⟩ := Node.origin_eq_iff.1 horigin
  rw [Node.isHidden, Node.isHidden, Node.fullPath, hpath, hrule, Node.fullPath]

/-- What is written for an event is the same in every later tree. -/
theorem eventBlock_extends {tree later : CallTree} (hx : tree.Extends later) (h : tree.WellFormed)
    {e : Entry} (he : e.call < tree.nodes.length) :
    t.eventBlock later e = t.eventBlock tree e ∧ t.hasBlock later e = t.hasBlock tree e := by
  have horigin := hx.origin e.call he
  constructor
  · simp only [eventBlock, hx.ancestors h he, t.title_congr horigin]
  · rw [hasBlock, hasBlock, isHidden_congr horigin]

/-- The blocks so far stay when another event is accepted. -/
theorem logText_concat {log : Session} {u : CallTree} (hx : log.tree.Extends u)
    (h : log.tree.WellFormed) (hbound : ∀ e ∈ log.accepted, e.call < log.tree.nodes.length)
    (entry : Entry) :
    t.logText ⟨u, log.accepted ++ [entry]⟩ =
      t.logText log ++ if t.hasBlock u entry then t.eventBlock u entry else [] := by
  have hold : ∀ e ∈ log.accepted, t.eventBlock u e = t.eventBlock log.tree e ∧
      t.hasBlock u e = t.hasBlock log.tree e :=
    fun e he => t.eventBlock_extends hx h (hbound e he)
  have hblocks : ∀ e ∈ log.accepted.filter (t.hasBlock log.tree),
      t.eventBlock u e = t.eventBlock log.tree e :=
    fun e he => (hold e (List.mem_of_mem_filter he)).1
  rw [logText, List.filter_append, List.flatMap_append,
    List.filter_congr fun e he => (hold e he).2, List.flatMap_congr hblocks, logText]
  cases hentry : t.hasBlock u entry <;> simp [hentry]

/-- A lead stands in front of the quoted rows. -/
theorem label_showSource (n : Node) (lead : Text) :
    t.label n t.options.showSource lead =
      t.title n :: (t.quotedRows n.location).map (lead ++ ·) := by
  rw [label, quotedRows]
  split
  · simp [sourceLines, Source.quote]
  · rfl

variable {t} (hink : t.options.ink = .plain)
include hink

/-- The rows of a block in plain ink. -/
theorem liveBlock_plain (kind : EventKind) (n : Node) :
    t.liveBlock kind n =
      Text.unlines ((List.replicate (t.liveLevel kind) ' ' ++ kind.tag.1 ++ ' ' :: t.title n) ::
        (t.quotedRows n.location).map (List.replicate (t.liveLevel kind + 2) ' ' ++ ·)) := by
  have hindent : ∀ row : Text, List.replicate (t.liveLevel kind + 1) ' ' ++ ' ' :: row =
      List.replicate (t.liveLevel kind + 2) ' ' ++ row := by
    intro row
    rw [List.replicate_succ' (n := t.liveLevel kind + 1), List.append_assoc]
    rfl
  rw [liveBlock, label_showSource, hink, Ink.plain_paint, List.mapIdx_cons,
    mapIdx_of_forall (g := (List.replicate (t.liveLevel kind + 1) ' ' ++ ·)) fun i _ row => by simp,
    List.map_map]
  simp [Function.comp_def, hindent]

theorem escapeChar_notMem_title {n : Node} (hpath : escapeChar ∉ n.path)
    (hrule : escapeChar ∉ n.rule) : escapeChar ∉ t.title n := by
  -- the name of a call has nothing to do with its location
  have hname : escapeChar ∉ t.callName n :=
    t.escapeChar_notMem_callName (n := { n with location := .origin })
      ⟨hpath, hrule, .inr (Int.le_refl _)⟩
  have hspan := escapeChar_notMem_spanText n.location
  have hnumber := escapeChar_notMem_digits n.number
  have hblank : escapeChar ≠ ' ' := by decide
  have hmark : escapeChar ≠ '#' := by decide
  simp only [title, hink, Ink.plain_paint]
  split <;> simp [hname, hspan, hnumber, hblank, hmark]

/-- A block in plain ink has no escape character, if the source and the names of rules have none. -/
theorem shows_liveBlock_plain (hsource : t.source.IsClean) (kind : EventKind) {n : Node}
    (hpath : escapeChar ∉ n.path) (hrule : escapeChar ∉ n.rule) :
    Shows (t.liveBlock kind n) (t.liveBlock kind n) := by
  have hblank : ∀ k, escapeChar ∉ List.replicate k ' ' := fun k hm =>
    absurd (List.eq_of_mem_replicate hm) (by decide)
  have htag : escapeChar ∉ kind.tag.1 := by
    rcases kind with _ | _ | _ <;> decide
  rw [liveBlock_plain hink]
  refine .unlines (List.forall₂_same.2 (List.forall_mem_cons.2 ⟨.of_notMem ?_, ?_⟩))
  · rw [List.mem_append, List.mem_append, List.mem_cons, not_or, not_or, not_or]
    exact ⟨⟨hblank _, htag⟩, by decide, escapeChar_notMem_title hink hpath hrule⟩
  · refine List.forall_mem_map.2 fun row hrow => .of_notMem ?_
    rw [List.mem_append, not_or]
    refine ⟨hblank _, ?_⟩
    unfold quotedRows at hrow
    split at hrow
    · rw [sourceLines, hink] at hrow
      exact Source.escapeChar_notMem_quote hsource _ _ List.not_mem_nil _ row hrow
    · cases hrow

end

/-! ## One event -/

/-- Whether the live trace of a tracer is on, in plain ink, and goes to a sink that works and is no
terminal, and there is no escape character in the source. -/
structure WritesLog (t : Tracer) : Prop where
  showTrace : t.options.showTrace = true
  ink : t.options.ink = .plain
  works : t.sink.isBroken = false
  noTerminal : t.sink.isTerminal = false
  source : t.source.IsClean

theorem writesLog_ofSetup {s : TracerSetup} {t : Tracer} (ht : ofSetup s = .ok t)
    (hshow : s.options.showTrace = true) (hink : s.options.ink = .plain)
    (hworks : s.sink.isBroken = false) (hfile : s.sink.isTerminal = false)
    (hsource : ∀ text, s.source = some text → escapeChar ∉ text) : t.WritesLog := by
  obtain ⟨source, hidden, hread, -, rfl⟩ := ofSetup_eq_ok ht
  refine ⟨hshow, hink, hworks, hfile, ?_⟩
  cases htext : s.source with
  | none =>
    rw [htext] at hread
    cases hread
  | some text =>
    rw [htext] at hread
    exact Source.isClean_of_ofText hread (hsource text htext)

/-- The tree takes an event without an error just if the log can be told of it. -/
theorem isLoggable_of_apply {t u : CallTree} (h : t.Inv) (hlog : t.Logged) {e : Event}
    {result : Except Decimal.LengthError Nat} (ha : t.apply e = .ok (u, result)) (call : Nat) :
    (Entry.mk (.kind e.kind) e.rule e.location call).isLoggable = result.isOk := by
  have htake : t.take e.call = .ok (u, result.map some) := by
    change (t.apply e).map (·.map id (·.map some)) = _
    rw [ha]
    rfl
  have hresult := CallTree.take_result h.toWellFormed hlog htake
  have hcall : (Entry.mk (.kind e.kind) e.rule e.location call).isLoggable = e.call.isLoggable := by
    obtain ⟨_ | _ | _, rule, location⟩ := e <;> rfl
  rw [hcall]
  by_cases hloggable : e.call.isLoggable = true
  · rw [if_pos hloggable] at hresult
    obtain ⟨_, hsome⟩ := hresult
    cases result with
    | error err => cases hsome
    | ok i => exact hloggable
  · rw [if_neg hloggable] at hresult
    cases result with
    | error err => exact Bool.eq_false_iff.2 hloggable
    | ok i => cases hresult

/-- What an event does to a tracer that the call tree takes without an error: the tree is another
one, and the block is written if the call is not hidden and its numbers are short enough. -/
theorem record_plain {t : Tracer} (ht : t.WritesLog) {e : Event} {u : CallTree} {i : Nat}
    (h : t.tree.Inv) (hpaths : u.HasCleanPaths) (ha : t.tree.apply e = .ok (u, .ok i)) :
    (t.record e).tracer = { t with tree := u } ∧
      (t.record e).activity.written =
        if !(u.node i).isHidden t.hidden && e.location.isWritable then
          t.eventBlock u ⟨.kind e.kind, e.rule, e.location, i⟩
        else [] := by
  obtain ⟨-, hlocation⟩ : i < u.nodes.length ∧ (u.node i).location = e.location := h.node_apply ha
  have hnode : ({ u.node i with location := e.location } : Node) = u.node i := by
    rw [← hlocation]
  have hblock : liveBlock { t with tree := u } e.kind (u.node i) ++ ['\n'] =
      t.eventBlock u ⟨.kind e.kind, e.rule, e.location, i⟩ := by
    rw [liveBlock_plain (t := { t with tree := u }) ht.ink, liveLevel_apply h ha, hlocation,
      eventBlock, hnode]
    rfl
  have hsink : t.sink.write? (liveBlock { t with tree := u } e.kind (u.node i)) =
      some (t.eventBlock u ⟨.kind e.kind, e.rule, e.location, i⟩) := by
    have hshows := shows_liveBlock_plain (t := { t with tree := u }) ht.ink ht.source e.kind
      (hpaths i).1 (hpaths i).2
    rw [Sink.write?, ht.works, ht.noTerminal, if_neg Bool.false_ne_true,
      if_neg Bool.false_ne_true, hshows.stripEscapes_eq, hblock]
  unfold record
  simp only [ha, writeLive, hsink, ht.showTrace, hlocation]
  cases (u.node i).isHidden t.hidden <;> cases e.location.isWritable <;> simp

/-- What an event that the call tree accepts does to a tracer: the tree is another one, and the
block is written if there is one. -/
theorem record_entry {t : Tracer} (ht : t.WritesLog) {e : Event} {u : CallTree}
    {result : Except Decimal.LengthError Nat} (h : t.tree.Inv) (hlog : t.tree.Logged)
    (hpaths : u.HasCleanPaths) (ha : t.tree.apply e = .ok (u, result)) :
    let entry : Entry := ⟨.kind e.kind, e.rule, e.location, result.toOption.getD t.tree.cursor⟩
    (t.record e).tracer = { t with tree := u } ∧
      (t.record e).activity.written =
        if t.hasBlock u entry then t.eventBlock u entry else [] := by
  intro entry
  have hloggable : entry.isLoggable = result.isOk := isLoggable_of_apply h hlog ha _
  cases result with
  | error err =>
    have hnone : t.hasBlock u entry = false := by
      rw [hasBlock, hloggable, Except.isOk, Except.toBool, Bool.and_false, Bool.false_and]
    rw [hnone]
    unfold record
    simp [ha]
  | ok i =>
    have hhas : t.hasBlock u entry =
        (!(u.node i).isHidden t.hidden && e.location.isWritable) := by
      rw [hasBlock, hloggable, Except.isOk, Except.toBool, Bool.and_true]
      rfl
    rw [hhas]
    exact record_plain ht h hpaths ha

end Tracer

/-! ## Runs -/

/-- The calls of a tree that are made when some things are sent. -/
def RawEvent.calls (raws : List RawEvent) : List TreeCall :=
  raws.filterMap fun raw => raw.read.toOption.map Event.call

namespace TracerRun

/-- The run after something is sent to the tracer. -/
def send (r : TracerRun) (raw : RawEvent) : TracerRun :=
  match (Tracer.traceChain (r.tracer :: r.older) raw).1 with
  | [] => r
  | (tracer, activity) :: older =>
    { tracer, older := older.map (·.1), written := r.written ++ activity.written }

/-- The run after all that is sent. -/
def sendAll (r : TracerRun) (raws : List RawEvent) : TracerRun :=
  raws.foldl send r

theorem sendAll_concat (r : TracerRun) (raws : List RawEvent) (raw : RawEvent) :
    r.sendAll (raws ++ [raw]) = (r.sendAll raws).send raw := by
  simp [sendAll]

theorem send_unread (r : TracerRun) {raw : RawEvent} {err : EventError}
    (h : raw.read = .error err) : r.send raw = r := by
  rw [send, Tracer.traceChain_unread h (List.cons_ne_nil _ _)]
  simp [Function.comp_def]

theorem send_of_read (r : TracerRun) {raw : RawEvent} {e : Event} (h : raw.read = .ok e) :
    r.send raw = r.step (.record e) := by
  rw [send, Tracer.traceChain_eq h]
  rfl

/-- What a tracer without older ones is after a run, and what it wrote, given the session of its
call tree. -/
structure Logs (t : Tracer) (r : TracerRun) (log : Session) : Prop where
  tracer : r.tracer = { t with tree := log.tree }
  older : r.older = []
  inv : log.tree.Inv
  paths : log.tree.HasCleanPaths
  logged : log.tree.Logged
  bound : ∀ e ∈ log.accepted, e.call < log.tree.nodes.length
  written : r.written = t.logText log

section
variable {t : Tracer} {r : TracerRun} {log : Session} (h : Logs t r log)
include h

/-- An event that is refused changes nothing. -/
theorem Logs.refused {e : Event} {err : CallError} (ha : log.tree.apply e = .error err) :
    Logs t (r.step (.record e)) (log.step e.call) := by
  have hlog : log.step e.call = log := by
    change log.take (.kind e.kind) e.rule e.location (log.tree.apply e) = log
    rw [ha]
    rfl
  have hrefused : r.tracer.record e = { tracer := r.tracer, result := .error (.refused err) } :=
    Tracer.record_of_refused (by rw [h.tracer]; exact ha)
  have hstep := r.step_record e
  rw [h.older] at hstep
  rw [hlog, hstep]
  simp only [hrefused]
  refine ⟨h.tracer, rfl, h.inv, h.paths, h.logged, h.bound, ?_⟩
  rw [List.append_nil]
  exact h.written

/-- An event that is accepted adds its block, if there is one. -/
theorem Logs.taken (ht : t.WritesLog) {e : Event} (he : escapeChar ∉ e.rule) {u : CallTree}
    {result : Except Decimal.LengthError Nat} (ha : log.tree.apply e = .ok (u, result)) :
    Logs t (r.step (.record e)) (log.step e.call) := by
  have hlog : log.step e.call = ⟨u, log.accepted ++
      [⟨.kind e.kind, e.rule, e.location, result.toOption.getD log.tree.cursor⟩]⟩ := by
    change log.take (.kind e.kind) e.rule e.location (log.tree.apply e) = _
    rw [ha]
    rfl
  have hpaths := h.paths.apply he ha
  have hx : log.tree.Extends u := .apply ha
  obtain ⟨hi, -⟩ := h.inv.node_apply ha
  obtain ⟨htracer, hwritten⟩ := Tracer.record_entry (t := { t with tree := log.tree })
    ⟨ht.showTrace, ht.ink, ht.works, ht.noTerminal, ht.source⟩ h.inv h.logged hpaths ha
  have hstep := r.step_record e
  rw [h.older, h.tracer] at hstep
  simp only [Tracer.recordChain, htracer, hwritten] at hstep
  rw [hlog, hstep]
  refine ⟨rfl, rfl, h.inv.apply ha, hpaths, h.logged.apply ha, ?_, ?_⟩
  · refine List.forall_mem_append.2 ⟨fun d hd => Nat.lt_of_lt_of_le (h.bound d hd) hx.length, ?_⟩
    exact List.forall_mem_singleton.2 hi
  · change r.written ++ _ = _
    rw [h.written, t.logText_concat hx h.inv.toWellFormed h.bound]
    rfl

/-- Something that is sent adds a block or nothing. -/
theorem Logs.send (ht : t.WritesLog) {raw : RawEvent}
    (hrule : ∀ e, raw.read = .ok e → escapeChar ∉ e.rule) :
    Logs t (r.send raw) ((RawEvent.calls [raw]).foldl Session.step log) := by
  cases hread : raw.read with
  | error err =>
    have hcalls : RawEvent.calls [raw] = [] := by simp [RawEvent.calls, hread, Except.toOption]
    rw [send_unread r hread, hcalls]
    exact h
  | ok e =>
    have hcalls : RawEvent.calls [raw] = [e.call] := by
      simp [RawEvent.calls, hread, Except.toOption]
    rw [send_of_read r hread, hcalls]
    cases ha : log.tree.apply e with
    | error err => exact h.refused ha
    | ok taken => exact h.taken ht (hrule e hread) ha

end

theorem Logs.run {t : Tracer} (ht : t.WritesLog) (htree : t.tree = .empty) {raws : List RawEvent}
    (hrules : ∀ raw ∈ raws, ∀ e, raw.read = .ok e → escapeChar ∉ e.rule) :
    Logs t (sendAll { tracer := t } raws) (Session.run (RawEvent.calls raws)) := by
  induction raws using List.reverseRecOn with
  | nil =>
    refine ⟨?_, rfl, CallTree.inv_empty, CallTree.hasCleanPaths_empty, ?_, nofun, rfl⟩
    · rw [Session.run, RawEvent.calls, List.filterMap_nil, List.foldl_nil, Session.empty, ← htree]
      rfl
    · exact CallTree.logged_empty
  | append_singleton raws raw ih =>
    rw [List.forall_mem_append, List.forall_mem_singleton] at hrules
    rw [sendAll_concat, RawEvent.calls, List.filterMap_append, Session.run, List.foldl_append]
    exact (ih hrules.1).send ht hrules.2

/-- The live trace is the list of accepted events, as blocks indented by their callers. Nothing else
is written, and there are no blocks for events whose calls are hidden, that the log cannot be told
of, or whose lines and columns are too long to be written. -/
theorem liveTrace_run {s : TracerSetup} {t : Tracer} (ht : Tracer.ofSetup s = .ok t)
    (hshow : s.options.showTrace = true) (hink : s.options.ink = .plain)
    (hworks : s.sink.isBroken = false) (hfile : s.sink.isTerminal = false)
    (hsource : ∀ text, s.source = some text → escapeChar ∉ text) {raws : List RawEvent}
    (hrules : ∀ raw ∈ raws, ∀ e, raw.read = .ok e → escapeChar ∉ e.rule) :
    let r := sendAll { tracer := t } raws
    let log := Session.run (RawEvent.calls raws)
    r.tracer.tree = log.tree ∧
      r.written =
        (log.accepted.filter (t.hasBlock log.tree)).flatMap (t.eventBlock log.tree) := by
  have hwrites := Tracer.writesLog_ofSetup ht hshow hink hworks hfile hsource
  have hlogs := Logs.run hwrites (Tracer.tree_ofSetup ht).1 hrules
  exact ⟨congrArg Tracer.tree hlogs.tracer, hlogs.written⟩

/-- There are no blocks for an event that is refused, for one that is none, and for a call that is
hidden. -/
theorem liveTrace_run_hiddenCall :
    let setup : TracerSetup :=
      { source := some "ab".toList
        options := { showTrace := true, ink := .plain }
        hidden := [.component ['h']]
        sink := ⟨false, false⟩ }
    let one := RawLocation.location (locate "ab".toList 0 1)
    let two := RawLocation.location (locate "ab".toList 0 2)
    let raws : List RawEvent :=
      [.unit (.kind .enter) ['s'] one, .unit (.kind (.leave .matched)) ['r'] one,
        .unit (.kind .enter) ['r'] .null, .unit (.kind .enter) ['h'] one,
        .unit (.kind (.leave .failed)) ['h'] one, .unit (.kind .enter) ['r'] one,
        .unit (.kind (.leave .failed)) ['r'] one, .unit (.kind (.leave .matched)) ['s'] two]
    let log := Session.run (RawEvent.calls raws)
    ∃ t, Tracer.ofSetup setup = .ok t ∧
      (sendAll { tracer := t } raws).written =
        "ENTER #1 1:1-1:2 s\n  ab\n  ^\n".toList ++
        " ENTER #3 1:1-1:2 r\n   ab\n   ^\n".toList ++
        " FAIL  #3 1:1-1:2 r\n   ab\n   ^\n".toList ++
        "MATCH #1 1:1-1:3 s\n  ab\n  ^^\n".toList ∧
      (sendAll { tracer := t } raws).written =
        (log.accepted.filter (t.hasBlock log.tree)).flatMap (t.eventBlock log.tree) := by
  intro setup one two raws log
  have hsource : ∀ text, setup.source = some text → escapeChar ∉ text := by
    intro text htext
    cases htext
    decide
  have hrules : ∀ raw ∈ raws, ∀ e, raw.read = .ok e → escapeChar ∉ e.rule := by
    simp only [raws, List.forall_mem_cons]
    refine ⟨?_, ?_, ?_, ?_, ?_, ?_, ?_, ?_, by simp⟩ <;> intro e he <;> cases he <;> decide
  refine ⟨_, rfl, ?_, (liveTrace_run (s := setup) rfl rfl rfl rfl rfl hsource hrules).2⟩
  decide +kernel

/-- There is no block for an event with a column that is too long, though the tree takes the event
and its call is not hidden. -/
theorem liveTrace_run_longColumn :
    let setup : TracerSetup :=
      { source := some ['q']
        options := { showTrace := true, showSource := false, ink := .plain }
        sink := ⟨false, false⟩ }
    let far : Int := (10 ^ Decimal.maxDigits - 1 : Nat)
    let raw : RawEvent := .unit (.kind .enter) ['a'] (.location (locate ['q'] far far))
    let log := Session.run (RawEvent.calls [raw])
    ∃ t, Tracer.ofSetup setup = .ok t ∧
      (sendAll { tracer := t } [raw]).tracer.tree = log.tree ∧
      log.accepted.length = 1 ∧
      (∀ e ∈ log.accepted, (log.tree.node e.call).isHidden t.hidden = false) ∧
      (sendAll { tracer := t } [raw]).written ≠
        (log.accepted.filter fun e => !(log.tree.node e.call).isHidden t.hidden).flatMap
          (t.eventBlock log.tree) := by
  intro setup far raw log
  let t : Tracer :=
    ⟨{ setup.options with maxSourceLines := 6 }, ⟨[['q']]⟩, [], ⟨false, false⟩, .empty⟩
  let entry : Entry := ⟨.kind .enter, ['a'], locate ['q'] far far, 1⟩
  have hlong : entry.location.isWritable = false :=
    isWritable_locate_far (Nat.le_add_of_sub_le (Nat.le_refl _))
  have hsource : t.source.IsClean := Source.isClean_of_ofText (t := ['q']) rfl (by decide)
  have hwrites : t.WritesLog := ⟨rfl, rfl, rfl, rfl, hsource⟩
  have hrules : ∀ r ∈ [raw], ∀ e, r.read = .ok e → escapeChar ∉ e.rule := by
    rw [List.forall_mem_singleton]
    intro e he
    cases he
    decide
  have hlogs : Logs t (sendAll { tracer := t } [raw]) log := .run hwrites rfl hrules
  have haccepted : log.accepted = [entry] := rfl
  have hshown : (log.tree.node entry.call).isHidden t.hidden = false := rfl
  have hnone : t.hasBlock log.tree entry = false := by
    rw [Tracer.hasBlock, hlong, Bool.and_false]
  refine ⟨t, rfl, congrArg Tracer.tree hlogs.tracer, rfl, ?_, ?_⟩
  · rw [haccepted, List.forall_mem_singleton]
    exact hshown
  · rw [hlogs.written, Tracer.logText, haccepted]
    simp [hnone, hshown, Tracer.eventBlock]

end TracerRun

end RuleTrace
