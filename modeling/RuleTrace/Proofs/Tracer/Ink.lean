import RuleTrace.Proofs.Call.View
import RuleTrace.Proofs.Graph.Ink
import RuleTrace.Proofs.Source.Ink
import RuleTrace.Proofs.Tracer.Run

/-!
# The ink of a tracer

Two tracers that differ in their ink alone take events alike and show the same, but for escape
sequences, if there is no escape character in the source and in the names of rules and no location
starts before the first column.

* `Tracer.IsClean`: what is needed of a tracer. Events and drawings keep it (`IsClean.run`).
* `Tracer.shows_label`, `Tracer.shows_graphText`, `Tracer.shows_liveBlock`: what a tracer shows.
* `TracerRun.ink_run`: what becomes of two tracers in a run.
-/

namespace RuleTrace

/-! ## Calls without escape characters -/

/-- Whether an event has no escape character in the name of its rule and does not start before the
first column. -/
structure Event.IsClean (e : Event) : Prop where
  rule : escapeChar ∉ e.rule
  column : 1 ≤ e.location.start.column

instance (e : Event) : Decidable e.IsClean :=
  decidable_of_iff (escapeChar ∉ e.rule ∧ 1 ≤ e.location.start.column)
    ⟨fun h => ⟨h.1, h.2⟩, fun h => ⟨h.rule, h.column⟩⟩

/-- Whether a call has no escape character in its path and does not start before the first
column. -/
structure Node.IsClean (n : Node) : Prop where
  path : escapeChar ∉ n.path
  rule : escapeChar ∉ n.rule
  location : n.location.lineRange.StartsInside

theorem Location.startsInside {l : Location} (h : 1 ≤ l.start.column) :
    l.lineRange.StartsInside := by
  refine .inl ?_
  simp only [lineRange]
  omega

theorem Node.isClean_root : root.IsClean where
  path := List.not_mem_nil
  rule := List.not_mem_nil
  location := .inr (Int.le_refl _)

theorem Node.IsClean.addChild {n : Node} (h : n.IsClean) (o : Outcome) (i : Nat) :
    (n.addChild o i).IsClean := by
  cases o <;> exact ⟨h.path, h.rule, h.location⟩

theorem Node.IsClean.childPath {n : Node} (h : n.IsClean) : escapeChar ∉ n.childPath := by
  rw [Node.childPath, List.mem_append, List.mem_append, not_or, not_or]
  exact ⟨⟨h.path, h.rule⟩, by decide⟩

namespace CallTree

/-- Whether no call of a tree has an escape character in its path or starts before the first
column. -/
def IsClean (t : CallTree) : Prop :=
  ∀ n ∈ t.nodes, n.IsClean

variable {t : CallTree} (h : t.IsClean)

theorem isClean_empty : empty.IsClean := by
  intro n hn
  rw [List.mem_singleton.1 hn]
  exact Node.isClean_root

theorem forall_mem_modify {P : Node → Prop} {nodes : List Node} {f : Node → Node}
    (hn : ∀ n ∈ nodes, P n) (hf : ∀ n, P n → P (f n)) (i : Nat) :
    ∀ n ∈ nodes.modify i f, P n := by
  intro n hmem
  obtain ⟨j, hj⟩ := List.mem_iff_getElem?.1 hmem
  rw [List.getElem?_modify, Option.map_eq_map, Option.map_eq_some_iff] at hj
  obtain ⟨m, hm, rfl⟩ := hj
  have hPm := hn m (List.mem_of_getElem? hm)
  split
  · exact hf m hPm
  · exact hPm

include h

theorem IsClean.node (i : Nat) : (t.node i).IsClean := by
  rw [CallTree.node, List.getD]
  cases hget : t.nodes[i]? with
  | none => exact Node.isClean_root
  | some n => exact h n (List.mem_of_getElem? hget)

theorem IsClean.noteStyles (styles : List (Nat × Option Style)) :
    (t.noteStyles styles).IsClean := by
  induction styles generalizing t with
  | nil => exact h
  | cons entry styles ih =>
    have hstyle : ∀ n : Node, n.IsClean → Node.IsClean { n with style := entry.2 } :=
      fun _ hn => ⟨hn.path, hn.rule, hn.location⟩
    rw [noteStyles_cons]
    exact ih (forall_mem_modify h hstyle entry.1)

theorem IsClean.enter {rule : Text} {location : Location} (hrule : escapeChar ∉ rule)
    (hlocation : location.lineRange.StartsInside) : (t.enter rule location).1.IsClean := by
  intro n hn
  rcases List.mem_append.1 hn with hn | hn
  · exact h n hn
  · rw [List.mem_singleton.1 hn]
    exact ⟨(IsClean.node h t.cursor).childPath, hrule, hlocation⟩

theorem IsClean.close (outcome : Outcome) {location : Location}
    (hlocation : location.lineRange.StartsInside) : (t.close outcome location).IsClean := by
  have hresolve : ∀ n : Node, n.IsClean → (n.resolve outcome location).IsClean :=
    fun _ hn => ⟨hn.path, hn.rule, hlocation⟩
  rw [IsClean, close_nodes]
  exact forall_mem_modify (forall_mem_modify h hresolve t.cursor)
    (fun _ hn => hn.addChild outcome t.cursor) _

theorem IsClean.apply {e : Event} (he : e.IsClean) {u : CallTree}
    {r : Except Decimal.LengthError Nat} (ha : t.apply e = .ok (u, r)) : u.IsClean := by
  have hlocation := Location.startsInside he.column
  rcases apply_cases ha with ⟨-, rfl, -⟩ | ⟨outcome, -, rfl, -⟩
  · exact IsClean.enter h he.rule hlocation
  · exact IsClean.close h outcome hlocation

omit h in
/-- The calls of a view are calls of the tree. -/
theorem exists_node_of_mem_flatten {patterns : List Pattern} {view : View} {n : Node}
    (hn : n ∈ t.flatten patterns view) : ∃ i, n = t.node i := by
  have hbranches : ∀ i cs, ∀ n ∈ (t.branches i cs).preorder, ∃ i, n = t.node i := by
    intro i cs
    fun_induction branches t i cs with
    | case1 => exact fun n hn => absurd hn List.not_mem_nil
    | case2 i c cs _ ihbelow ihafter =>
      intro n hn
      rcases List.mem_cons.1 hn with rfl | hn
      · exact ⟨c, rfl⟩
      · rcases List.mem_append.1 hn with hn | hn
        · exact ihbelow n hn
        · exact ihafter n hn
    | case3 i c cs _ ih => exact ih
  unfold flatten at hn
  split at hn
  · next shown hshown =>
    rw [Forest.walk_trees] at hn
    cases view with
    | full =>
      obtain rfl := Option.some.inj hshown
      rw [Forest.preorder_splice] at hn
      exact hbranches 0 (t.node 0).children n (List.mem_filter.1 hn).1
    | failure =>
      rw [extract_failure_eq_some hshown, Forest.preorder_prune _ _ []] at hn
      obtain ⟨site, hsite, rfl⟩ := List.mem_map.1 hn
      refine hbranches 0 (t.node 0).children _ ?_
      rw [← Forest.map_label_sites _ []]
      exact List.mem_map_of_mem (List.mem_filter.1 hsite).1
  · cases hn

end CallTree

/-! ## Labels -/

theorem escapeChar_notMem_digits (n : Nat) : escapeChar ∉ Decimal.digits n :=
  fun h => absurd (Decimal.isDigit_of_mem_digits h) (by decide)

theorem escapeChar_notMem_ofInt (i : Int) : escapeChar ∉ Decimal.ofInt i := by
  cases i with
  | ofNat n => exact escapeChar_notMem_digits n
  | negSucc n =>
    rw [Decimal.ofInt, List.mem_cons, not_or]
    exact ⟨by decide, escapeChar_notMem_digits _⟩

theorem escapeChar_notMem_truncate {t : Text} (h : escapeChar ∉ t) (limit : Int) :
    escapeChar ∉ truncate t limit := by
  unfold truncate
  split
  · rw [List.mem_append, not_or]
    exact ⟨by decide, fun hm => h (List.mem_of_mem_drop hm)⟩
  · exact h

/-- A sink refuses every text, or takes every text. -/
theorem Sink.write?_cases (sink : Sink) :
    (∀ t, sink.write? t = none) ∨ ∃ f : Text → Text, ∀ t, sink.write? t = some (f t) := by
  cases h : sink.isBroken with
  | true => exact .inl fun _ => if_pos h
  | false => exact .inr ⟨_, fun _ => if_neg (by simp [h])⟩

/-- A sink that is no terminal gets what a text shows. -/
theorem Sink.write?_eq_of_shows {sink : Sink} (h : sink.isTerminal = false) {a b : Text}
    (hab : Shows a b) : sink.write? a = sink.write? b := by
  have hshown := (Shows.of_notMem hab.clean).stripEscapes_eq
  rw [Sink.write?, Sink.write?, h, if_neg Bool.false_ne_true, if_neg Bool.false_ne_true,
    hab.stripEscapes_eq, hshown]

namespace Tracer

/-- The tracer with another ink. -/
def withInk (t : Tracer) (ink : Ink) : Tracer :=
  { t with options := { t.options with ink } }

@[simp] theorem withInk_tree (t : Tracer) (ink : Ink) : (t.withInk ink).tree = t.tree := rfl

@[simp] theorem withInk_hidden (t : Tracer) (ink : Ink) : (t.withInk ink).hidden = t.hidden := rfl

@[simp] theorem withInk_sink (t : Tracer) (ink : Ink) : (t.withInk ink).sink = t.sink := rfl

/-- Whether a tracer has no escape character in its source and its calls, none of which starts
before the first column. -/
structure IsClean (t : Tracer) : Prop where
  source : t.source.IsClean
  tree : t.tree.IsClean

section
variable (t : Tracer)

theorem escapeChar_notMem_spanText (l : Location) : escapeChar ∉ spanText l := by
  simp only [spanText, List.mem_append, List.mem_cons, not_or]
  exact ⟨⟨⟨escapeChar_notMem_ofInt _, by decide, escapeChar_notMem_ofInt _⟩, by decide,
    escapeChar_notMem_ofInt _⟩, by decide, escapeChar_notMem_ofInt _⟩

theorem escapeChar_notMem_callName {n : Node} (hn : n.IsClean) : escapeChar ∉ t.callName n := by
  unfold callName
  split
  · rw [List.mem_append, not_or]
    exact ⟨escapeChar_notMem_truncate hn.path _, hn.rule⟩
  · exact hn.rule

theorem shows_title {n : Node} (hn : n.IsClean) :
    Shows (t.title n) ((t.withInk .plain).title n) := by
  have hspace : Shows [' '] [' '] := .of_notMem (by decide)
  have hnumber : escapeChar ∉ '#' :: Decimal.digits n.number := by
    rw [List.mem_cons, not_or]
    exact ⟨by decide, escapeChar_notMem_digits _⟩
  have hspan := t.options.ink.shows_paint_whole (some thin) (escapeChar_notMem_spanText n.location)
  have hname := t.options.ink.shows_paint_whole (some ruleStyle) (t.escapeChar_notMem_callName hn)
  refine (Shows.append ?_ hspan).append (hspace.append hname)
  show Shows (if t.options.showTrace then _ else _) (if t.options.showTrace then _ else _)
  split
  · exact (t.options.ink.shows_paint_whole (some thin) hnumber).append hspace
  · exact .nil

variable {t} (ht : t.IsClean)
include ht

theorem shows_sourceLines {lead : Text} (hlead : escapeChar ∉ lead) {l : Location}
    (hl : l.lineRange.StartsInside) (maxLines : Option Int) :
    List.Forall₂ Shows (t.sourceLines lead l maxLines)
      ((t.withInk .plain).sourceLines lead l maxLines) :=
  Source.shows_quote ht.source t.options.ink _ hlead hl maxLines

theorem shows_label {n : Node} (hn : n.IsClean) (withSource : Bool) {lead : Text}
    (hlead : escapeChar ∉ lead) :
    List.Forall₂ Shows (t.label n withSource lead)
      ((t.withInk .plain).label n withSource lead) := by
  refine .cons (t.shows_title hn) ?_
  split
  · exact shows_sourceLines ht hlead hn.location _
  · exact .nil

/-! ## Graphs -/

theorem shows_items (nodes : List Node) (hnodes : ∀ n ∈ nodes, n.IsClean) :
    List.Forall₂ Item.Shows (nodes.map (·.item fun n => t.label n t.options.showSource []))
      (nodes.map (·.item fun n => (t.withInk .plain).label n t.options.showSource [])) := by
  rw [List.forall₂_map_left_iff, List.forall₂_map_right_iff]
  refine List.forall₂_same.2 fun n hn => ⟨⟨rfl, rfl, rfl⟩, ?_⟩
  exact shows_label ht (hnodes n hn) _ List.not_mem_nil

omit ht in
/-- The calls that are drawn are calls of the tree. -/
theorem exists_node_of_mem_writableEnd {view : View} {n : Node}
    (hn : n ∈ writableEnd (t.tree.flatten t.hidden view)) : ∃ i, n = t.tree.node i :=
  CallTree.exists_node_of_mem_flatten (mem_of_mem_writableEnd hn)

theorem isClean_of_mem_writableEnd (view : View) :
    ∀ n ∈ writableEnd (t.tree.flatten t.hidden view), n.IsClean := by
  intro n hn
  obtain ⟨i, rfl⟩ := exists_node_of_mem_writableEnd hn
  exact CallTree.IsClean.node ht.tree i

omit ht in
/-- The text of rows, or the notice when there are none. -/
theorem shows_graph_or_notice {rows rows' : List Text} (h : List.Forall₂ Shows rows rows')
    (view : View) : Shows (if rows.isEmpty then view.notice else Text.unlines rows)
      (if rows'.isEmpty then view.notice else Text.unlines rows') := by
  cases h with
  | nil => exact .of_notMem (by cases view <;> decide)
  | cons hrow hrows => exact .unlines (.cons hrow hrows)

/-- Both tracers fail to draw a view, or the graph of the one shows that of the other. -/
theorem shows_graphText (view : View) :
    (∃ e, (t.graphText view).1 = .error e ∧ ((t.withInk .plain).graphText view).1 = .error e) ∨
      ∃ a b, (t.graphText view).1 = .ok a ∧ ((t.withInk .plain).graphText view).1 = .ok b ∧
        Shows a b := by
  have hrows := shows_draw t.options.ink (!t.options.showSource)
    (shows_items ht _ (isClean_of_mem_writableEnd ht view))
  rw [graphText_eq, graphText_eq, withInk_tree, withInk_hidden]
  split
  · exact .inl ⟨.longNumber, rfl, rfl⟩
  · exact .inr ⟨_, _, rfl, rfl, shows_graph_or_notice hrows view⟩

omit ht in
/-- Drawing a view notes the same styles in any ink. -/
theorem withInk_graphText (view : View) :
    ((t.withInk .plain).graphText view).2 = (t.graphText view).2.withInk .plain :=
  congrArg (fun tree => { t.withInk .plain with tree })
    (tree_graphText (t := t) (u := t.withInk .plain) rfl rfl view)

/-! ## Live traces -/

theorem shows_liveBlock (kind : EventKind) {n : Node} (hn : n.IsClean) :
    Shows (t.liveBlock kind n) ((t.withInk .plain).liveBlock kind n) := by
  have hspace : Shows [' '] [' '] := .of_notMem (by decide)
  have hblank : ∀ k, Shows (List.replicate k ' ') (List.replicate k ' ') := fun k =>
    .of_notMem fun h => absurd (List.eq_of_mem_replicate h) (by decide)
  have htag : escapeChar ∉ kind.tag.1 := by
    rcases kind with _ | _ | _ <;> decide
  have hhead := ((hblank (t.liveLevel kind)).append
    (t.options.ink.shows_paint_whole (some kind.tag.2) htag)).append hspace
  have hlines : List.Forall₂ Shows (t.label n t.options.showSource [' ']) _ :=
    shows_label ht hn t.options.showSource (by decide)
  refine .unlines (forall₂_mapIdx (fun i line line' hline => ?_) hlines)
  refine Shows.append ?_ hline
  split
  · exact hhead
  · exact hblank _

/-- Both tracers fail to write a block, or both write it. They write the same to a sink that is no
terminal. -/
theorem ink_writeLive (kind : EventKind) {n : Node} (hn : n.IsClean) :
    (∃ e, t.writeLive kind n = .error e ∧ (t.withInk .plain).writeLive kind n = .error e) ∨
      ∃ u a b, t.writeLive kind n = .ok (u, a) ∧
        (t.withInk .plain).writeLive kind n = .ok (u.withInk .plain, b) ∧
        (t.sink.isTerminal = false → a = b) := by
  have hblock := shows_liveBlock ht kind hn
  by_cases hquiet : !t.options.showTrace || n.isHidden t.hidden
  · exact .inr ⟨t, {}, {}, if_pos hquiet, if_pos hquiet, fun _ => rfl⟩
  · by_cases hlong : !n.location.isWritable
    · exact .inl ⟨.longNumber, (if_neg hquiet).trans (if_pos hlong),
        (if_neg hquiet).trans (if_pos hlong)⟩
    · have hplain : (t.withInk .plain).writeLive kind n = _ := writeLive_of_shown hquiet hlong
      rw [writeLive_of_shown hquiet hlong, hplain, withInk_sink]
      rcases t.sink.write?_cases with hrefused | ⟨f, htaken⟩
      · rw [hrefused, hrefused]
        exact .inr ⟨t.silence, _, _, rfl, rfl, fun _ => rfl⟩
      · rw [htaken, htaken]
        refine .inr ⟨t, _, _, rfl, rfl, fun hterminal => ?_⟩
        have hsame := Sink.write?_eq_of_shows hterminal hblock
        rw [htaken, htaken] at hsame
        rw [Option.some.inj hsame]

/-! ## Events -/

theorem IsClean.record {e : Event} (he : e.IsClean) : (t.record e).tracer.IsClean := by
  rcases t.record_cases e with heq | ⟨tree, i, happly, heq | heq⟩ <;> rw [heq]
  · exact ht
  · exact ⟨ht.source, CallTree.IsClean.apply ht.tree he happly⟩
  · exact ⟨ht.source, CallTree.IsClean.apply ht.tree he happly⟩

theorem IsClean.graphText (view : View) : (t.graphText view).2.IsClean :=
  ⟨ht.source, CallTree.IsClean.noteStyles ht.tree _⟩

theorem IsClean.reset : t.reset.IsClean :=
  ⟨ht.source, CallTree.isClean_empty⟩

/-- Both tracers take an event alike. -/
theorem ink_record {e : Event} (he : e.IsClean) :
    ((t.withInk .plain).record e).tracer = (t.record e).tracer.withInk .plain ∧
      (t.sink.isTerminal = false →
        ((t.withInk .plain).record e).activity = (t.record e).activity) := by
  unfold record
  rw [withInk_tree]
  cases happly : t.tree.apply e with
  | error err => exact ⟨rfl, fun _ => rfl⟩
  | ok applied =>
    obtain ⟨tree, err | i⟩ := applied
    · exact ⟨rfl, fun _ => rfl⟩
    have hclean : IsClean { t with tree } :=
      ⟨ht.source, CallTree.IsClean.apply ht.tree he happly⟩
    have hplain : { t.withInk .plain with tree } = Tracer.withInk { t with tree } .plain := rfl
    rcases ink_writeLive hclean e.kind (CallTree.IsClean.node hclean.tree i) with
      ⟨err, hc, hp⟩ | ⟨u, a, b, hc, hp, hab⟩
    · simp only [hplain, hc, hp, true_and, implies_true]
    · simp only [hplain, hc, hp, true_and]
      intro hterminal
      rw [hab hterminal]

end

theorem sink_record (t : Tracer) (e : Event) : (t.record e).tracer.sink = t.sink := by
  rcases t.record_cases e with heq | ⟨tree, i, -, heq | heq⟩ <;> simp [heq, silence]

end Tracer

/-! ## Runs -/

/-- Whether a call of a tracer has no escape character in the name of a rule and no location that
starts before the first column. -/
def TracerCall.IsClean : TracerCall → Prop
  | .record e => e.IsClean
  | .reset => True
  | .graph _ => True

instance : (c : TracerCall) → Decidable c.IsClean
  | .record e => inferInstanceAs (Decidable e.IsClean)
  | .reset => isTrue trivial
  | .graph _ => isTrue trivial

namespace TracerRun

/-- The second run is the first one with a plain tracer. -/
structure InPlain (r p : TracerRun) : Prop where
  tracer : p.tracer = r.tracer.withInk .plain
  older : p.older = r.older
  clean : r.tracer.IsClean
  written : r.tracer.sink.isTerminal = false → p.written = r.written

theorem sink_step (r : TracerRun) (c : TracerCall) : (r.step c).tracer.sink = r.tracer.sink := by
  cases c with
  | record e =>
    rw [r.step_record e]
    split
    · rfl
    · exact r.tracer.sink_record e
  | reset => rfl
  | graph view => rfl

theorem InPlain.step {r p : TracerRun} (h : r.InPlain p) {c : TracerCall} (hc : c.IsClean) :
    (r.step c).InPlain (p.step c) := by
  cases c with
  | record e =>
    obtain ⟨htracer, hactivity⟩ := Tracer.ink_record h.clean hc
    rw [r.step_record e, p.step_record e, h.older]
    split
    · exact ⟨h.tracer, rfl, h.clean, h.written⟩
    · refine ⟨by rw [h.tracer]; exact htracer, rfl, h.clean.record hc, fun hterminal => ?_⟩
      rw [Tracer.sink_record] at hterminal
      rw [h.tracer, hactivity hterminal, h.written hterminal]
  | reset =>
    exact ⟨congrArg Tracer.reset h.tracer, h.older, h.clean.reset, h.written⟩
  | graph view =>
    refine ⟨?_, h.older, h.clean.graphText view, h.written⟩
    show (p.tracer.graphText view).2 = (r.tracer.graphText view).2.withInk .plain
    rw [h.tracer, Tracer.withInk_graphText]

theorem InPlain.run {r p : TracerRun} (h : r.InPlain p) {calls : List TracerCall}
    (hcalls : ∀ c ∈ calls, c.IsClean) : (r.run calls).InPlain (p.run calls) := by
  induction calls generalizing r p with
  | nil => exact h
  | cons c calls ih =>
    exact ih (h.step (hcalls c List.mem_cons_self)) fun d hd =>
      hcalls d (List.mem_cons_of_mem c hd)

theorem sink_run (r : TracerRun) (calls : List TracerCall) :
    (r.run calls).tracer.sink = r.tracer.sink := by
  induction calls generalizing r with
  | nil => rfl
  | cons c calls ih => exact (ih (r.step c)).trans (r.sink_step c)

/-- Two tracers that differ in their ink alone go through the same calls. If there is no escape
character in the source and in the names of rules, and no location starts before the first column,
then graphs, labels of calls and quotes are the same but for escape sequences, and so is what is
written to sinks that are no terminals, in live traces and as graphs. -/
theorem ink_run (t : Tracer) (older : List Tracer) (text : Text)
    (hsource : Source.ofText text = .ok t.source) (hempty : t.tree = .empty)
    (htext : escapeChar ∉ text) (calls : List TracerCall) (hcalls : ∀ c ∈ calls, c.IsClean) :
    let c := run { tracer := t.withInk .colored, older } calls
    let p := run { tracer := t.withInk .plain, older } calls
    (∀ view, (c.tracer.graphText view).1.map stripEscapes = (p.tracer.graphText view).1) ∧
    (∀ i withSource lead, escapeChar ∉ lead →
      (c.tracer.nodeText (c.tracer.tree.node i) withSource lead).map (·.map stripEscapes) =
        p.tracer.nodeText (p.tracer.tree.node i) withSource lead) ∧
    (∀ lead l maxLines, escapeChar ∉ lead → 1 ≤ l.start.column →
      (c.tracer.sourceLines lead l maxLines).map stripEscapes =
        p.tracer.sourceLines lead l maxLines) ∧
    (t.sink.isTerminal = false → c.written = p.written) ∧
    ∀ sink : Sink, sink.isTerminal = false → ∀ view,
      (c.tracer.graphText view).1.map sink.write? =
        (p.tracer.graphText view).1.map sink.write? := by
  intro c p
  have hclean : (t.withInk .colored).IsClean :=
    ⟨Source.isClean_of_ofText hsource htext, hempty ▸ CallTree.isClean_empty⟩
  have hstart : InPlain { tracer := t.withInk .colored, older }
      { tracer := t.withInk .plain, older } := ⟨rfl, rfl, hclean, fun _ => rfl⟩
  have h : c.InPlain p := hstart.run hcalls
  rw [h.tracer]
  refine ⟨fun view => ?_, fun i withSource lead hlead => ?_, fun lead l maxLines hlead hl => ?_,
    fun hterminal => ?_, fun sink hterminal view => ?_⟩
  · rcases Tracer.shows_graphText h.clean view with ⟨e, hc, hp⟩ | ⟨a, b, hc, hp, hab⟩
    · rw [hc, hp]
      rfl
    · rw [hc, hp, Except.map, hab.stripEscapes_eq]
  · have hnode := CallTree.IsClean.node h.clean.tree i
    rw [Tracer.withInk_tree, Tracer.nodeText, Tracer.nodeText]
    split
    · exact congrArg Except.ok
        (map_stripEscapes_eq (Tracer.shows_label h.clean hnode withSource hlead))
    · rfl
  · exact map_stripEscapes_eq
      (Tracer.shows_sourceLines h.clean hlead (Location.startsInside hl) maxLines)
  · refine (h.written ?_).symm
    rw [sink_run]
    exact hterminal
  · rcases Tracer.shows_graphText h.clean view with ⟨e, hc, hp⟩ | ⟨a, b, hc, hp, hab⟩
    · rw [hc, hp]
    · rw [hc, hp, Except.map, Except.map, Sink.write?_eq_of_shows hterminal hab]

/-- A call that failed, in a live trace that goes to a file. -/
theorem ink_run_failedCall :
    let t : Tracer := ⟨{ showTrace := true }, ⟨["ab".toList]⟩, [], ⟨false, false⟩, .empty⟩
    let l := locate "ab".toList 0 1
    let calls : List TracerCall :=
      [.record ⟨.enter, "start".toList, l⟩, .graph .full,
        .record ⟨.leave .failed, "start".toList, l⟩]
    let c := run { tracer := t.withInk .colored } calls
    let p := run { tracer := t.withInk .plain } calls
    (c.tracer.graphText .full).1.map stripEscapes = (p.tracer.graphText .full).1 ∧
      c.written = p.written := by
  intro t l calls c p
  obtain ⟨hgraph, -, -, hwritten, -⟩ := ink_run t [] "ab".toList (by rfl) rfl (by decide) calls
    (by decide)
  exact ⟨hgraph .full, hwritten rfl⟩

end TracerRun

end RuleTrace
