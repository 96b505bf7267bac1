import Mathlib.Data.List.Permutation
import RuleTrace.Proofs.Style.Escaped
import RuleTrace.Proofs.Tracer.Ink

/-!
# Output to sinks that are no terminals

A tracer puts its color codes around names and into quoted lines, so that a text without stray
escape characters becomes one again, and one pass takes all of them out. Of names it is enough that
each of their escape characters opens a sequence, since they are painted as a whole. Lines that are
painted in part may have none.

* `Source.isWellEscaped_quote`, `isWellEscaped_draw`: rows of quotes and drawings.
* `Tracer.isWellEscaped_graphText`, `Tracer.isWellEscaped_liveBlock`: what a tracer writes.
* `TracerRun.plainOutput_run`: what sinks that are no terminals get in a run.
-/

namespace RuleTrace

/-! ## Quotes -/

theorem forall_mem_elide {P : Text → Prop} (hdots : P "...".toList) (limit : Nat)
    {lines : List Text} (h : ∀ line ∈ lines, P line) : ∀ line ∈ elide limit lines, P line := by
  unfold elide
  split
  · exact h
  · refine List.forall_mem_append.2 ⟨fun line hline => h line (List.mem_of_mem_take hline), ?_⟩
    exact List.forall_mem_cons.2 ⟨hdots, fun line hline => h line (List.mem_of_mem_drop hline)⟩

namespace Source

/-- A row of a quote is a marker row, a line or the dots, after the lead. -/
theorem exists_of_mem_quote {s : Source} {q : QuoteStyle} {r : LineRange} {P : Text → Prop}
    (hmarker : ∀ indent count c, c ≠ escapeChar → P (q.marker indent count c))
    (hdots : P "...".toList) (hlines : ∀ row ∈ s.paintedExcerpt q r, P row) {lead row : Text}
    {maxLines : Option Int} (h : row ∈ s.quote q lead r maxLines) :
    ∃ body, P body ∧ row = lead ++ body := by
  obtain ⟨body, hbody, rfl⟩ := List.mem_map.1 h
  refine ⟨body, ?_, rfl⟩
  rw [upperMarker, lowerMarker] at hbody
  rcases List.mem_append.1 hbody with hbody | hbody
  · rcases List.mem_append.1 hbody with hbody | hbody
    · split at hbody
      · exact List.mem_singleton.1 hbody ▸ hmarker _ _ _ (by decide)
      · cases hbody
    · exact forall_mem_elide hdots (quoteLimit maxLines) hlines body hbody
  · split at hbody
    · exact List.mem_singleton.1 hbody ▸ hmarker _ _ _ (by decide)
    · split at hbody
      · exact List.mem_singleton.1 hbody ▸ hmarker _ _ _ (by decide)
      · cases hbody

section
variable {s : Source} {q : QuoteStyle} (h : ∀ line ∈ s.lines, q.ink.CanPaint line) (r : LineRange)
include h

theorem canPaint_line (i : Int) : q.ink.CanPaint (s.line i) := by
  rw [line]
  split
  · exact Ink.canPaint_of_notMem List.not_mem_nil
  · rw [List.getD]
    cases hget : s.lines[i.toNat]? with
    | none => exact Ink.canPaint_of_notMem List.not_mem_nil
    | some line => exact h line (List.mem_of_getElem? hget)

theorem isWellEscaped_paintedExcerpt : ∀ row ∈ s.paintedExcerpt q r, IsWellEscaped row := by
  intro row hrow
  obtain ⟨i, hi, rfl⟩ := List.mem_mapIdx.1 hrow
  have hline : q.ink.CanPaint (s.excerpt r)[i] := by
    simp only [excerpt, List.getElem_map]
    exact canPaint_line h _
  split
  · exact hline.isWellEscaped_paint q.highlight _
  · exact hline.isWellEscaped

theorem isWellEscaped_quote {lead : Text} (hlead : IsWellEscaped lead) (maxLines : Option Int) :
    ∀ row ∈ s.quote q lead r maxLines, IsWellEscaped row := by
  intro row hrow
  have hmarker : ∀ indent count c, c ≠ escapeChar → IsWellEscaped (q.marker indent count c) :=
    fun indent count _ hc => (shows_marker q.ink q.highlight indent count hc).isWellEscaped
  obtain ⟨body, hbody, rfl⟩ :=
    exists_of_mem_quote hmarker (by decide) (isWellEscaped_paintedExcerpt h r) hrow
  exact hlead.append hbody

end

end Source

/-! ## Drawings -/

section
variable (ink : Ink) {label : List Text} (h : ∀ line ∈ label, IsWellEscaped line)
include h

theorem Lane.isWellEscaped_stateRows (lanes : List Lane) (column : Option Nat) (isLast : Bool) :
    ∀ row ∈ stateRows ink lanes column label isLast, IsWellEscaped row := by
  have hcells : ∀ column, IsWellEscaped (stateLine ink lanes column isLast) := fun column =>
    (shows_stateLine ink lanes column isLast).isWellEscaped
  cases label with
  | nil => exact List.forall_mem_singleton.2 (hcells column)
  | cons line rest =>
    obtain ⟨hline, hrest⟩ := List.forall_mem_cons.1 h
    refine List.forall_mem_cons.2 ⟨(hcells column).append hline, ?_⟩
    exact List.forall_mem_map.2 fun line hmem => (hcells none).append (hrest line hmem)

theorem isWellEscaped_place (columns : List Column) {item : Item} (hitem : item.label = label)
    (isLast : Bool) : ∀ row ∈ (Column.place ink columns item isLast).rows, IsWellEscaped row := by
  subst hitem
  rw [rows_place]
  dsimp only
  split
  · exact Lane.isWellEscaped_stateRows ink h _ _ _
  · exact List.forall_mem_append.2
      ⟨isWellEscaped_of_forall₂ (Lane.shows_mergeRows ink _ _ _),
        Lane.isWellEscaped_stateRows ink h _ _ _⟩

end

theorem isWellEscaped_drawSteps (ink : Ink) (spaced : Bool) (columns : List Column)
    {items : List Item} (h : ∀ item ∈ items, ∀ line ∈ item.label, IsWellEscaped line) :
    ∀ step ∈ drawSteps ink spaced columns items, ∀ row ∈ step.rows, IsWellEscaped row := by
  induction items generalizing columns with
  | nil => exact fun _ hstep => absurd hstep List.not_mem_nil
  | cons item rest ih =>
    obtain ⟨hitem, hrest⟩ := List.forall_mem_cons.1 h
    refine List.forall_mem_cons.2 ⟨List.forall_mem_append.2 ⟨?_, ?_⟩, ih _ hrest⟩
    · exact isWellEscaped_place ink hitem columns rfl rest.isEmpty
    · split
      · exact Lane.isWellEscaped_stateRows ink (fun _ hline => absurd hline List.not_mem_nil) _ _ _
      · exact fun _ hrow => absurd hrow List.not_mem_nil

/-- The rows of a drawing have no stray escape characters if the labels have none. -/
theorem isWellEscaped_draw (ink : Ink) (spaced : Bool) {items : List Item}
    (h : ∀ item ∈ items, ∀ line ∈ item.label, IsWellEscaped line) :
    ∀ row ∈ (draw ink spaced items).rows, IsWellEscaped row := by
  intro row hrow
  obtain ⟨step, hstep, hmem⟩ := List.mem_flatMap.1 hrow
  exact isWellEscaped_drawSteps ink spaced []
    (fun item hitem => h item (List.mem_reverse.1 hitem)) step hstep row hmem

/-! ## Calls -/

/-- Whether the path and the rule of a call have no stray escape characters. -/
structure Node.IsWellEscaped (n : Node) : Prop where
  path : RuleTrace.IsWellEscaped n.path
  rule : RuleTrace.IsWellEscaped n.rule

theorem Node.isWellEscaped_root : root.IsWellEscaped :=
  ⟨.of_notMem List.not_mem_nil, .of_notMem List.not_mem_nil⟩

theorem Node.IsWellEscaped.childPath {n : Node} (h : n.IsWellEscaped) :
    RuleTrace.IsWellEscaped n.childPath :=
  (h.path.append h.rule).append (by decide)

theorem isWellEscaped_truncate {t : Text} (h : IsWellEscaped t) (limit : Int) :
    IsWellEscaped (truncate t limit) := by
  have hdots : IsWellEscaped "...".toList := by decide
  unfold truncate
  split
  · exact hdots.append (h.of_suffix (List.drop_suffix _ t))
  · exact h

namespace CallTree

/-- Whether no call of a tree has a stray escape character in its path and its rule. -/
def IsWellEscaped (t : CallTree) : Prop :=
  ∀ i, (t.node i).IsWellEscaped

theorem isWellEscaped_empty : empty.IsWellEscaped := by
  intro i
  have hroot : empty.node i = .root := by
    cases i <;> rfl
  rw [hroot]
  exact Node.isWellEscaped_root

variable {t : CallTree} (h : t.IsWellEscaped)
include h

theorem IsWellEscaped.noteStyles (styles : List (Nat × Option Style)) :
    (t.noteStyles styles).IsWellEscaped := by
  intro i
  refine ⟨?_, ?_⟩
  · rw [noteStyles_path]
    exact (h i).path
  · rw [noteStyles_rule]
    exact (h i).rule

theorem IsWellEscaped.enter {rule : Text} (hrule : RuleTrace.IsWellEscaped rule)
    (location : Location) : (t.enter rule location).1.IsWellEscaped := by
  intro i
  rcases Nat.lt_trichotomy i t.nodes.length with hlt | rfl | hgt
  · rw [node_enter_of_lt t rule location hlt]
    exact h i
  · rw [node_enter_length]
    exact ⟨(h t.cursor).childPath, hrule⟩
  · rw [node_of_le (by rw [length_enter]; omega)]
    exact Node.isWellEscaped_root

theorem IsWellEscaped.close (outcome : Outcome) (location : Location) :
    (t.close outcome location).IsWellEscaped := by
  intro i
  refine ⟨?_, ?_⟩
  · rw [close_path]
    exact (h i).path
  · rw [close_rule]
    exact (h i).rule

theorem IsWellEscaped.apply {e : Event} (he : RuleTrace.IsWellEscaped e.rule) {u : CallTree}
    {r : Except Decimal.LengthError Nat} (ha : t.apply e = .ok (u, r)) : u.IsWellEscaped := by
  rcases apply_cases ha with ⟨-, rfl, -⟩ | ⟨outcome, -, rfl, -⟩
  · exact IsWellEscaped.enter h he e.location
  · exact IsWellEscaped.close h outcome e.location

end CallTree

/-! ## What a tracer writes -/

/-- A sink that is no terminal gets no escape character of a text without stray ones. -/
theorem Sink.escapeChar_notMem_write? {sink : Sink} (h : sink.isTerminal = false) {t text : Text}
    (ht : IsWellEscaped t) (hwrite : sink.write? t = some text) : escapeChar ∉ text := by
  rw [write?, h] at hwrite
  split at hwrite
  · cases hwrite
  · obtain rfl := Option.some.inj hwrite
    rw [List.mem_append, not_or]
    exact ⟨isWellEscaped_iff.1 ht, by decide⟩

namespace Tracer

/-- Whether the source can be painted, if it is quoted, and no call has a stray escape character. -/
structure IsWellEscaped (t : Tracer) : Prop where
  source : t.options.showSource = true → ∀ line ∈ t.source.lines, t.options.ink.CanPaint line
  tree : t.tree.IsWellEscaped

theorem isWellEscaped_title (t : Tracer) {n : Node} (hn : n.IsWellEscaped) :
    RuleTrace.IsWellEscaped (t.title n) := by
  have hspace : RuleTrace.IsWellEscaped [' '] := by decide
  have hnumber : escapeChar ∉ '#' :: Decimal.digits n.number := by
    rw [List.mem_cons, not_or]
    exact ⟨by decide, escapeChar_notMem_digits _⟩
  have hname : RuleTrace.IsWellEscaped (t.callName n) := by
    unfold callName
    split
    · exact (isWellEscaped_truncate hn.path _).append hn.rule
    · exact hn.rule
  have hspan := (t.options.ink.shows_paint_whole (some thin)
    (escapeChar_notMem_spanText n.location)).isWellEscaped
  have hpainted := t.options.ink.isWellEscaped_paint_whole (some ruleStyle) hname
  refine (IsWellEscaped.append ?_ hspan).append (hspace.append hpainted)
  split
  · exact (t.options.ink.shows_paint_whole (some thin) hnumber).isWellEscaped.append hspace
  · exact .of_notMem List.not_mem_nil

section
variable {t : Tracer} (ht : t.IsWellEscaped)
include ht

theorem isWellEscaped_label {n : Node} (hn : n.IsWellEscaped) {lead : Text}
    (hlead : RuleTrace.IsWellEscaped lead) :
    ∀ line ∈ t.label n t.options.showSource lead, RuleTrace.IsWellEscaped line := by
  refine List.forall_mem_cons.2 ⟨t.isWellEscaped_title hn, ?_⟩
  split
  · next hshow => exact Source.isWellEscaped_quote (ht.source hshow) n.location.lineRange hlead _
  · exact fun _ hline => absurd hline List.not_mem_nil

theorem isWellEscaped_graphText {view : View} {graph : Text}
    (hgraph : (t.graphText view).1 = .ok graph) : RuleTrace.IsWellEscaped graph := by
  have hrows : ∀ row ∈ t.graphRows view, RuleTrace.IsWellEscaped row := by
    refine isWellEscaped_draw _ _ fun item hitem => ?_
    obtain ⟨n, hn, rfl⟩ := List.mem_map.1 hitem
    obtain ⟨i, rfl⟩ := exists_node_of_mem_writableEnd hn
    exact isWellEscaped_label ht (ht.tree i) (.of_notMem List.not_mem_nil)
  rw [graphText_eq] at hgraph
  split at hgraph
  · cases hgraph
  · obtain rfl := Except.ok.inj hgraph
    split
    · exact .of_notMem (by cases view <;> decide)
    · exact .unlines hrows

theorem isWellEscaped_liveBlock (kind : EventKind) (i : Nat) :
    RuleTrace.IsWellEscaped (t.liveBlock kind (t.tree.node i)) := by
  have hblank : ∀ k, RuleTrace.IsWellEscaped (List.replicate k ' ') := fun k =>
    .of_notMem fun h => absurd (List.eq_of_mem_replicate h) (by decide)
  have htag : RuleTrace.IsWellEscaped kind.tag.1 := by
    rcases kind with _ | _ | _ <;> decide
  have hhead := ((hblank (t.liveLevel kind)).append
    (t.options.ink.isWellEscaped_paint_whole (some kind.tag.2) htag)).append
    (show RuleTrace.IsWellEscaped [' '] by decide)
  refine .unlines fun row hrow => ?_
  obtain ⟨j, hj, rfl⟩ := List.mem_mapIdx.1 hrow
  have hline := isWellEscaped_label ht (ht.tree i) (show RuleTrace.IsWellEscaped [' '] by decide) _
    (List.getElem_mem hj)
  refine IsWellEscaped.append ?_ hline
  split
  · exact hhead
  · exact hblank _

/-! ## Events -/

theorem IsWellEscaped.noteStyles (view : View) : (t.graphText view).2.IsWellEscaped :=
  ⟨ht.source, ht.tree.noteStyles _⟩

theorem IsWellEscaped.reset : t.reset.IsWellEscaped :=
  ⟨ht.source, CallTree.isWellEscaped_empty⟩

variable {e : Event} (he : RuleTrace.IsWellEscaped e.rule)
include he

theorem IsWellEscaped.record : (t.record e).tracer.IsWellEscaped := by
  rcases t.record_cases e with heq | ⟨tree, i, happly, heq | heq⟩ <;> rw [heq]
  · exact ht
  · exact ⟨ht.source, ht.tree.apply he happly⟩
  · exact ⟨ht.source, ht.tree.apply he happly⟩

theorem escapeChar_notMem_written (hsink : t.sink.isTerminal = false) :
    escapeChar ∉ (t.record e).activity.written := by
  rcases t.written_record e with hnone | ⟨tree, i, happly, hwrite⟩
  · rw [hnone]
    exact List.not_mem_nil
  · have hblock : IsWellEscaped { t with tree } := ⟨ht.source, ht.tree.apply he happly⟩
    exact Sink.escapeChar_notMem_write? hsink (isWellEscaped_liveBlock hblock e.kind i) hwrite

end

end Tracer

/-! ## Runs -/

namespace TracerRun

/-- Whether nothing of what a run has shown, or will show, has a stray escape character. -/
structure IsWellEscaped (r : TracerRun) : Prop where
  tracer : r.tracer.IsWellEscaped
  written : r.tracer.sink.isTerminal = false → escapeChar ∉ r.written

theorem IsWellEscaped.step {r : TracerRun} (h : r.IsWellEscaped) {c : TracerCall}
    (hc : ∀ e, c = .record e → RuleTrace.IsWellEscaped e.rule) : (r.step c).IsWellEscaped := by
  cases c with
  | record e =>
    have he := hc e rfl
    rw [r.step_record e]
    split
    · exact ⟨h.tracer, h.written⟩
    · refine ⟨h.tracer.record he, fun hterminal => ?_⟩
      rw [Tracer.sink_record] at hterminal
      rw [List.mem_append, not_or]
      exact ⟨h.written hterminal, Tracer.escapeChar_notMem_written h.tracer he hterminal⟩
  | reset => exact ⟨h.tracer.reset, h.written⟩
  | graph view => exact ⟨h.tracer.noteStyles view, h.written⟩

theorem IsWellEscaped.run {r : TracerRun} (h : r.IsWellEscaped) {calls : List TracerCall}
    (hcalls : ∀ e, .record e ∈ calls → RuleTrace.IsWellEscaped e.rule) :
    (r.run calls).IsWellEscaped := by
  induction calls generalizing r with
  | nil => exact h
  | cons c calls ih =>
    refine ih (h.step ?_) fun e he => hcalls e (List.mem_cons_of_mem c he)
    rintro e rfl
    exact hcalls e List.mem_cons_self

/-- What sinks that are no terminals get. One pass leaves a sequence in a text, so that a second one
changes it again, if and only if some escape character that opened none opens one once the sequences
after it are taken out; it leaves no escape character at all if and only if each of them opened a
sequence. All that a tracer writes in a run is like that, if the rules are, and if the source lines
can be painted that it quotes. -/
theorem plainOutput_run (t : Tracer) (older : List Tracer) (hempty : t.tree = .empty)
    (hsource : t.options.showSource = true →
      ∀ line ∈ t.source.lines, t.options.ink.CanPaint line)
    (calls : List TracerCall)
    (hcalls : ∀ e, .record e ∈ calls → RuleTrace.IsWellEscaped e.rule) :
    let r := run { tracer := t, older } calls
    (t.sink.isTerminal = false → escapeChar ∉ r.written) ∧
    (∀ sink : Sink, sink.isTerminal = false → ∀ view graph text,
      (r.tracer.graphText view).1 = .ok graph → sink.write? graph = some text →
        escapeChar ∉ text) ∧
    ∀ u, (stripEscapes (stripEscapes u) = stripEscapes u ↔
        ¬∃ v, escapeChar :: v <:+ u ∧ ¬OpensSequence (escapeChar :: v) ∧
          OpensSequence (escapeChar :: stripEscapes v)) ∧
      (escapeChar ∉ stripEscapes u ↔ RuleTrace.IsWellEscaped u) := by
  intro r
  have hstart : IsWellEscaped { tracer := t, older } :=
    ⟨⟨hsource, hempty ▸ CallTree.isWellEscaped_empty⟩, fun _ => List.not_mem_nil⟩
  have h : r.IsWellEscaped := hstart.run hcalls
  refine ⟨fun hterminal => h.written ?_, fun sink hterminal view graph text hgraph hwrite => ?_,
    fun u => ⟨?_, isWellEscaped_iff.symm⟩⟩
  · rw [sink_run]
    exact hterminal
  · exact Sink.escapeChar_notMem_write? hterminal
      (Tracer.isWellEscaped_graphText h.tracer hgraph) hwrite
  · rw [stripEscapes_eq_self_iff, hasSequence_stripEscapes_iff]

/-- A rule with a color code in its name, in a live trace in color that goes to a file. -/
theorem plainOutput_run_coloredRule :
    let t : Tracer := ⟨{ showTrace := true }, ⟨["ab".toList]⟩, [], ⟨false, false⟩, .empty⟩
    let e : Event := ⟨.enter, "\x1b[31mA".toList, locate "ab".toList 0 1⟩
    let r := run { tracer := t } [.record e]
    r.written = "ENTER #1 1:1-1:2 A\n  ab\n  ^\n".toList ∧ escapeChar ∉ r.written := by
  intro t e r
  have hsource : ∀ line ∈ t.source.lines, t.options.ink.CanPaint line := by decide
  have hrule : ∀ d, .record d ∈ [TracerCall.record e] → RuleTrace.IsWellEscaped d.rule := by
    intro d hd
    obtain rfl : d = e := by simpa using hd
    decide
  exact ⟨by decide, (plainOutput_run t [] rfl (fun _ => hsource) [.record e] hrule).1 rfl⟩

/-- A rule with a sequence inside of another one: a second pass changes its name again, and a file
gets the sequence that the first one leaves. -/
theorem hasSequence_splitRule :
    let rule := "\x1b\x1b[0m[31mA".toList
    let t : Tracer :=
      ⟨{ ink := .plain, showSource := false }, ⟨["a".toList]⟩, [], ⟨false, false⟩, .empty⟩
    let l := locate "a".toList 0 0
    let r := run { tracer := t }
      [.record ⟨.enter, rule, l⟩, .record ⟨.leave .failed, rule, l⟩]
    stripEscapes rule = "\x1b[31mA".toList ∧ stripEscapes (stripEscapes rule) = "A".toList ∧
    ∃ graph text, (r.tracer.graphText .full).1 = .ok graph ∧
      Sink.write? ⟨false, false⟩ graph = some text ∧ HasSequence text := by
  intro rule t l r
  let call : Node :=
    { number := 1, path := "/".toList, rule, location := l
      state := .resolved .failed, parent := some 0 }
  have hr : r.tracer =
      { t with tree := ⟨[{ Node.root with failed := [1] }, call], 0, 0, 0, [1]⟩ } := by decide
  rw [hr]
  exact ⟨by decide, by decide, "x 1:1-1:1 \x1b\x1b[0m[31mA".toList,
    "x 1:1-1:1 \x1b[31mA\n".toList, by cbv, by decide, by decide⟩

end TracerRun

end RuleTrace
