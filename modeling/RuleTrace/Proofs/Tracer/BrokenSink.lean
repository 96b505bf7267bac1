import Mathlib.Data.List.Permutation
import RuleTrace.Proofs.Tracer.Backtrace
import RuleTrace.Proofs.Tracer.Run

/-!
# Live traces that cannot be written

The first text that a sink refuses turns the live trace off. Calls are collected as before, but
titles have numbers only while the live trace is on, so every graph and label from then on is
without them. A tracer whose sink is broken is therefore the same as one whose sink works until the
first text is written, and then the same but for this option (`TracerRun.Breaks`).

* `Tracer.record_onSink`: what an event does on a broken sink and on one that works.
* `Tracer.graphText_silence_iff`, `Tracer.nodeText_silence_iff`: when the option makes no
  difference.
* `TracerRun.brokenSink_run`: the two tracers after any run.
-/

namespace RuleTrace

namespace Tracer

/-- The tracer with another sink. -/
def onSink (t : Tracer) (sink : Sink) : Tracer :=
  { t with sink }

/-- The tracer on a broken sink that it would have written a text to. -/
def breakAfter (t : Tracer) (broken : Sink) (written : Text) : Tracer :=
  (if written = [] then t else t.silence).onSink broken

theorem breakAfter_nil (t : Tracer) (broken : Sink) :
    t.breakAfter broken [] = t.onSink broken := rfl

theorem breakAfter_of_ne_nil (t : Tracer) (broken : Sink) {written : Text} (h : written ≠ []) :
    t.breakAfter broken written = t.silence.onSink broken := by
  rw [breakAfter, if_neg h]

/-- What leaves sinks alone and does not look at the live trace can be done before. -/
theorem map_breakAfter {f : Tracer → Tracer} {t : Tracer} {broken : Sink}
    (h : f (t.onSink broken) = (f t).onSink broken)
    (hsilent : f (t.silence.onSink broken) = (f t).silence.onSink broken) (written : Text) :
    f (t.breakAfter broken written) = (f t).breakAfter broken written := by
  rw [breakAfter, breakAfter]
  split
  · exact h
  · exact hsilent

theorem sink_onSink (t : Tracer) (sink : Sink) : (t.onSink sink).sink = sink := rfl

/-! ## Events -/

/-- The tracer with an event in its call tree, if the tree takes it. -/
def take (t : Tracer) (e : Event) : Tracer :=
  match t.tree.apply e with
  | .error _ => t
  | .ok (tree, _) => { t with tree }

theorem sink_take (t : Tracer) (e : Event) : (t.take e).sink = t.sink := by
  rw [take]
  cases t.tree.apply e <;> rfl

theorem options_take (t : Tracer) (e : Event) : (t.take e).options = t.options := by
  rw [take]
  cases t.tree.apply e <;> rfl

theorem take_silence (t : Tracer) (sink : Sink) (e : Event) :
    (t.silence.onSink sink).take e = (t.take e).silence.onSink sink := by
  have htree : (t.silence.onSink sink).tree = t.tree := rfl
  rw [take, take, htree]
  cases t.tree.apply e <;> rfl

/-- A tracer whose live trace is off takes an event and writes nothing. -/
theorem record_of_silent {t : Tracer} (h : t.options.showTrace = false) (e : Event) :
    (t.record e).tracer = t.take e ∧ (t.record e).activity.written = [] := by
  have hwrite : ∀ tree kind n, ({ t with tree } : Tracer).writeLive kind n =
      .ok ({ t with tree }, {}) := by
    intro tree kind n
    exact if_pos (by simp [h])
  rw [record, take]
  rcases t.tree.apply e with err | ⟨tree, err | i⟩
  · exact ⟨rfl, rfl⟩
  · exact ⟨rfl, rfl⟩
  · simp only [hwrite, and_self]

/-- Whether an event turns the live trace off makes no difference for the rest. -/
theorem silence_record (t : Tracer) (e : Event) :
    (t.record e).tracer.silence = (t.take e).silence := by
  rw [record, take]
  rcases t.tree.apply e with err | ⟨tree, err | i⟩
  · rfl
  · rfl
  · dsimp only
    split
    · rfl
    · next hwrite =>
      obtain rfl | rfl := (writeLive_cases hwrite).1 <;> rfl

section
variable {works broken : Sink} (hworks : works.isBroken = false)
  (hbroken : broken.isBroken = true)
include hworks hbroken

/-- A block is not written to either sink, or it is written to the one and turns the live trace off
on the other. -/
theorem writeLive_onSink (t : Tracer) (kind : EventKind) (n : Node) :
    (∃ err, (t.onSink works).writeLive kind n = .error err ∧
      (t.onSink broken).writeLive kind n = .error err) ∨
    ((t.onSink works).writeLive kind n = .ok (t.onSink works, {}) ∧
      (t.onSink broken).writeLive kind n = .ok (t.onSink broken, {})) ∨
    ∃ written log, written ≠ [] ∧ t.options.showTrace = true ∧
      (t.onSink works).writeLive kind n = .ok (t.onSink works, { written }) ∧
      (t.onSink broken).writeLive kind n = .ok (t.silence.onSink broken, { log }) := by
  by_cases hshown : !t.options.showTrace || n.isHidden t.hidden
  · exact .inr (.inl ⟨if_pos hshown, if_pos hshown⟩)
  · by_cases hfits : !n.location.isWritable
    · exact .inl ⟨_, (if_neg hshown).trans (if_pos hfits), (if_neg hshown).trans (if_pos hfits)⟩
    · have hshowTrace : t.options.showTrace = true := by
        revert hshown
        cases t.options.showTrace <;> simp
      have hwritten : ∃ written, works.write? ((t.onSink works).liveBlock kind n) =
          some (written ++ ['\n']) :=
        ⟨_, if_neg (by simp [hworks])⟩
      obtain ⟨written, hwritten⟩ := hwritten
      have hrefused : broken.write? ((t.onSink broken).liveBlock kind n) = none := if_pos hbroken
      refine .inr (.inr ⟨written ++ ['\n'], [.liveTraceOff],
        List.append_ne_nil_of_right_ne_nil _ (List.cons_ne_nil _ _), hshowTrace, ?_, ?_⟩)
      · rw [writeLive_of_shown (t := t.onSink works) hshown hfits, sink_onSink, hwritten]
      · rw [writeLive_of_shown (t := t.onSink broken) hshown hfits, sink_onSink, hrefused]
        rfl

/-- An event does the same to a tracer on both sinks, unless a text is written: then the live trace
on the broken one is turned off. -/
theorem record_onSink (t : Tracer) (e : Event) :
    let w := (t.onSink works).record e
    let b := (t.onSink broken).record e
    w.tracer = (t.onSink works).take e ∧ b.activity.written = [] ∧
      (w.activity.written ≠ [] → t.options.showTrace = true) ∧
      b.tracer = w.tracer.breakAfter broken w.activity.written := by
  have htree : ∀ sink, (t.onSink sink).tree = t.tree := fun _ => rfl
  simp only [record, take, htree]
  rcases t.tree.apply e with err | ⟨tree, err | i⟩
  · exact ⟨rfl, rfl, fun h => absurd rfl h, rfl⟩
  · exact ⟨rfl, rfl, fun h => absurd rfl h, rfl⟩
  · have hset : ∀ sink, ({ t.onSink sink with tree } : Tracer) =
        ({ t with tree } : Tracer).onSink sink := fun _ => rfl
    simp only [hset]
    rcases writeLive_onSink hworks hbroken { t with tree } e.kind (tree.node i) with
      ⟨err, hw, hb⟩ | ⟨hw, hb⟩ | ⟨written, log, hwritten, hshow, hw, hb⟩
    · rw [hw, hb]
      exact ⟨rfl, rfl, fun h => absurd rfl h, rfl⟩
    · rw [hw, hb]
      exact ⟨rfl, rfl, fun h => absurd rfl h, rfl⟩
    · rw [hw, hb]
      refine ⟨rfl, rfl, fun _ => hshow, ?_⟩
      rw [breakAfter_of_ne_nil _ broken hwritten]
      rfl

end

end Tracer

/-! ## Runs -/

namespace TracerRun

/-- The second run is the first one on a broken sink: its live trace is off once a text was written
in the first one. -/
structure Breaks (works broken : Sink) (w b : TracerRun) : Prop where
  sink : w.tracer.sink = works
  live : w.written ≠ [] → w.tracer.options.showTrace = true
  older : b.older = w.older
  tracer : b.tracer = w.tracer.breakAfter broken w.written

section
variable {works broken : Sink} {w b : TracerRun} (h : Breaks works broken w b)

include h in
theorem Breaks.tree : b.tracer.tree = w.tracer.tree := by
  rw [h.tracer, Tracer.breakAfter]
  split <;> rfl

include h in
theorem Breaks.hidden : b.tracer.hidden = w.tracer.hidden := by
  rw [h.tracer, Tracer.breakAfter]
  split <;> rfl

variable (hworks : works.isBroken = false) (hbroken : broken.isBroken = true)
include hworks hbroken h

theorem Breaks.record (e : Event) :
    Breaks works broken (w.step (.record e)) (b.step (.record e)) := by
  have hsink : w.tracer = w.tracer.onSink works := by
    rw [← h.sink]
    rfl
  obtain ⟨htake, hnone, hlive, htracer⟩ := w.tracer.record_onSink hworks hbroken e
  rw [← hsink] at htake hlive htracer
  have hkeeps : (w.tracer.record e).tracer.options = w.tracer.options := by
    rw [htake, Tracer.options_take]
  rw [w.step_record e, b.step_record e, h.older]
  split
  · exact ⟨h.sink, h.live, rfl, h.tracer⟩
  · refine ⟨by rw [htake, Tracer.sink_take, h.sink], fun hne => ?_, rfl, ?_⟩
    · rw [hkeeps]
      by_cases hwritten : w.written = []
      · exact hlive fun hnil => hne (by rw [hwritten, hnil, List.append_nil])
      · exact h.live hwritten
    · have hb := h.tracer
      by_cases hwritten : w.written = []
      · rw [hwritten] at hb ⊢
        rw [hb, List.nil_append]
        exact htracer
      · -- the live trace is off already, whatever the event does to the one that works
        rw [Tracer.breakAfter_of_ne_nil _ broken hwritten] at hb
        have hoff : b.tracer.options.showTrace = false := by
          rw [hb]
          rfl
        rw [Tracer.breakAfter_of_ne_nil _ broken (List.append_ne_nil_of_left_ne_nil hwritten _),
          (Tracer.record_of_silent hoff e).1, hb, Tracer.silence_record, Tracer.take_silence]

theorem Breaks.step (c : TracerCall) : Breaks works broken (w.step c) (b.step c) := by
  cases c with
  | record e => exact h.record hworks hbroken e
  | reset =>
    refine ⟨h.sink, h.live, h.older, (congrArg Tracer.reset h.tracer).trans ?_⟩
    exact Tracer.map_breakAfter rfl rfl w.written
  | graph view =>
    have hnoted := Tracer.tree_graphText h.tree h.hidden view
    refine ⟨h.sink, h.live, h.older, ?_⟩
    change { b.tracer with tree := (b.tracer.graphText view).2.tree } = _
    rw [hnoted, h.tracer]
    exact Tracer.map_breakAfter (t := w.tracer)
      (f := fun t => { t with tree := (w.tracer.graphText view).2.tree }) rfl rfl w.written

theorem Breaks.run (calls : List TracerCall) : Breaks works broken (w.run calls) (b.run calls) := by
  induction calls generalizing w b with
  | nil => exact h
  | cons c calls ih => exact ih (h.step hworks hbroken c)

end

end TracerRun

/-! ## Titles with and without numbers -/

/-- Two texts are the same up to a place where they have different characters. -/
def Diverge (t u : Text) : Prop :=
  ∃ before c d rest rest', t = before ++ c :: rest ∧ u = before ++ d :: rest' ∧ c ≠ d

theorem Diverge.append {t u : Text} (h : Diverge t u) (front x y : Text) :
    Diverge (front ++ (t ++ x)) (front ++ (u ++ y)) := by
  obtain ⟨before, c, d, rest, rest', rfl, rfl, hne⟩ := h
  exact ⟨front ++ before, c, d, rest ++ x, rest' ++ y, by simp, by simp, hne⟩

theorem Diverge.ne {t u : Text} (h : Diverge t u) : t ≠ u := by
  obtain ⟨before, c, d, rest, rest', rfl, rfl, hne⟩ := h
  intro heq
  exact hne (List.cons.inj (List.append_cancel_left heq)).1

/-- A painted text stands between the same codes as every other one. -/
theorem Ink.exists_paint (ink : Ink) (style : Option Style) :
    ∃ before after, ∀ t, ink.paint style t = before ++ (t ++ after) := by
  cases ink with
  | plain => exact ⟨[], [], fun t => (List.append_nil t).symm⟩
  | colored =>
    cases hcode : styleCode style with
    | nil => exact ⟨[], [], fun t => by simp [paint, hcode]⟩
    | cons c code => exact ⟨c :: code, resetCode, fun t => by simp [paint, hcode]⟩

/-- The numeral of an integer starts with a digit or a minus sign. -/
theorem Decimal.exists_ofInt (i : Int) : ∃ c rest, ofInt i = c :: rest ∧ '#' ≠ c := by
  cases i with
  | ofNat n =>
    obtain ⟨c, rest, hdigits⟩ := List.exists_cons_of_ne_nil (digits_ne_nil n)
    refine ⟨c, rest, hdigits, ?_⟩
    rintro rfl
    have hdigit := isDigit_of_mem_digits (n := n) (c := '#') (by simp [hdigits])
    exact absurd hdigit (by decide)
  | negSucc n => exact ⟨'-', _, rfl, by decide⟩

/-- The lines of a text start with the first of them. -/
theorem Text.exists_unlines (line : Text) (rest : List Text) :
    ∃ more, unlines (line :: rest) = line ++ more := by
  cases rest with
  | nil => exact ⟨[], (List.append_nil line).symm⟩
  | cons => exact ⟨_, rfl⟩

namespace Tracer

/-- A graph starts with the glyph and the title of the last call. -/
theorem graphText_concat (t : Tracer) {view : View} {nodes : List Node} {n : Node}
    (hnodes : t.tree.flatten t.hidden view = nodes ++ [n])
    (hwritable : ∀ m ∈ nodes ++ [n], m.location.isWritable = true) :
    ∃ more, (t.graphText view).1 =
      .ok (Lane.stateCell t.options.ink false true ⟨n.state, laneStyle 0⟩ ++
        (t.title n ++ more)) := by
  obtain ⟨rows, hrows⟩ := draw_rows_concat t.options.ink (!t.options.showSource)
    (nodes.map (·.item fun n => t.label n t.options.showSource []))
    (n.item fun n => t.label n t.options.showSource [])
  obtain ⟨more, hmore⟩ := Text.exists_unlines
    (Lane.stateCell t.options.ink false true ⟨n.state, laneStyle 0⟩ ++ t.title n) rows
  refine ⟨more, ?_⟩
  rw [graphText_eq, graphRows, hnodes, writableEnd_of_forall hwritable, if_neg (Nat.lt_irrefl _),
    List.map_append, List.map_singleton, hrows]
  exact congrArg Except.ok (hmore.trans (List.append_assoc _ _ _))

section
variable {t : Tracer} (h : t.options.showTrace = true)
include h

theorem diverge_title (n : Node) : Diverge (t.title n) (t.silence.title n) := by
  obtain ⟨before, after, hpaint⟩ := t.options.ink.exists_paint (some thin)
  obtain ⟨c, rest, hline, hc⟩ := Decimal.exists_ofInt n.location.start.line
  have hspan : ∃ more, spanText n.location = c :: more := by
    rw [spanText, hline]
    exact ⟨_, rfl⟩
  obtain ⟨more, hspan⟩ := hspan
  have hnumbered : ∃ after', t.title n = before ++ '#' :: after' := by
    rw [title, h, if_pos rfl, hpaint, List.append_assoc, List.append_assoc, List.append_assoc]
    exact ⟨_, rfl⟩
  have hplain : ∃ after', t.silence.title n = before ++ c :: after' := by
    have hoff : t.silence.options.showTrace = false := rfl
    have hink : t.silence.options.ink = t.options.ink := rfl
    rw [title, hoff, if_neg Bool.false_ne_true, hink, hpaint, hspan, List.nil_append,
      List.append_assoc, List.append_assoc]
    exact ⟨_, rfl⟩
  obtain ⟨numbered, hnumbered⟩ := hnumbered
  obtain ⟨plain, hplain⟩ := hplain
  exact ⟨before, '#', c, numbered, plain, hnumbered, hplain, hc⟩

/-- A graph is the same without the live trace only if there is none. -/
theorem graphText_silence_iff (view : View) :
    (t.silence.graphText view).1 = (t.graphText view).1 ↔
      t.tree.flatten t.hidden view = [] ∨
        ∃ n ∈ t.tree.flatten t.hidden view, n.location.isWritable = false := by
  have hflatten : t.silence.tree.flatten t.silence.hidden view =
      t.tree.flatten t.hidden view := rfl
  refine ⟨fun heq => ?_, fun hnone => ?_⟩
  · rcases List.eq_nil_or_concat' (t.tree.flatten t.hidden view) with hnil | ⟨nodes, n, hnodes⟩
    · exact .inl hnil
    · refine .inr (Classical.byContradiction fun hall => ?_)
      rw [hnodes] at hall
      have hwritable : ∀ m ∈ nodes ++ [n], m.location.isWritable = true := by
        intro m hm
        exact Bool.of_not_eq_false fun hf => hall ⟨m, hm, hf⟩
      obtain ⟨more, ht⟩ := t.graphText_concat hnodes hwritable
      obtain ⟨more', hs⟩ := t.silence.graphText_concat (hflatten.trans hnodes) hwritable
      rw [ht, hs, Except.ok.injEq] at heq
      exact ((diverge_title h n).append _ more more').ne heq.symm
  · rw [graphText_eq, graphText_eq, hflatten]
    rcases hnone with hnil | ⟨n, hn, hlong⟩
    · rw [graphRows, graphRows, hflatten, hnil]
      rfl
    · rw [if_pos (length_writableEnd_lt hn hlong), if_pos (length_writableEnd_lt hn hlong)]

/-- A label is the same without the live trace only if it cannot be written. -/
theorem nodeText_silence_iff (n : Node) (withSource : Bool) (lead : Text) :
    t.silence.nodeText n withSource lead = t.nodeText n withSource lead ↔
      n.location.isWritable = false := by
  rw [nodeText, nodeText]
  cases n.location.isWritable with
  | false => simp
  | true =>
    refine ⟨fun heq => ?_, fun hf => by cases hf⟩
    have hlabel := Except.ok.inj heq
    exact absurd (List.cons.inj hlabel).1.symm (diverge_title h n).ne

end

end Tracer

namespace TracerRun

/-- After every run, the calls of a tracer whose sink is broken are those of one whose sink works,
and so are the older tracers. As long as nothing was written, the tracers are the same but for the
sink. Once a text was written, the live trace on the broken sink is off, and every label and graph
is another one, save those that cannot be written and the notice for no calls. -/
theorem brokenSink_run (t : Tracer) (older : List Tracer) {works broken : Sink}
    (hworks : works.isBroken = false) (hbroken : broken.isBroken = true)
    (calls : List TracerCall) :
    let w := run { tracer := t.onSink works, older } calls
    let b := run { tracer := t.onSink broken, older } calls
    b.tracer.tree = w.tracer.tree ∧ b.older = w.older ∧
    b.tracer = w.tracer.breakAfter broken w.written ∧
    (∀ view, (b.tracer.graphText view).1 = (w.tracer.graphText view).1 ↔
      w.written = [] ∨ w.tracer.tree.flatten w.tracer.hidden view = [] ∨
        ∃ n ∈ w.tracer.tree.flatten w.tracer.hidden view, n.location.isWritable = false) ∧
    ∀ n withSource lead,
      b.tracer.nodeText n withSource lead = w.tracer.nodeText n withSource lead ↔
        w.written = [] ∨ n.location.isWritable = false := by
  intro w b
  have hstart : Breaks works broken { tracer := t.onSink works, older }
      { tracer := t.onSink broken, older } := ⟨rfl, fun h => absurd rfl h, rfl, rfl⟩
  have h : Breaks works broken w b := hstart.run hworks hbroken calls
  refine ⟨h.tree, h.older, h.tracer, ?_⟩
  rw [h.tracer]
  by_cases hwritten : w.written = []
  · rw [hwritten, Tracer.breakAfter_nil]
    exact ⟨fun view => iff_of_true rfl (.inl rfl), fun n withSource lead =>
      iff_of_true rfl (.inl rfl)⟩
  · have hlive := h.live hwritten
    rw [Tracer.breakAfter_of_ne_nil _ broken hwritten]
    refine ⟨fun view => ?_, fun n withSource lead => ?_⟩
    · rw [or_iff_right hwritten]
      exact Tracer.graphText_silence_iff hlive view
    · rw [or_iff_right hwritten]
      exact Tracer.nodeText_silence_iff hlive n withSource lead

/-- A tracer with a live trace. -/
def liveTracer : Tracer :=
  ⟨{ ink := .plain, showSource := false, showTrace := true }, ⟨["a".toList]⟩, [], ⟨false, false⟩,
    .empty⟩

/-- A call that matched. -/
def matchedCall : List TracerCall :=
  let l := locate "a".toList 0 1
  [.record ⟨.enter, "A".toList, l⟩, .record ⟨.leave .matched, "A".toList, l⟩]

/-- The call is in both trees, and its labels are different. -/
theorem brokenSink_run_matchedCall :
    let w := run { tracer := liveTracer.onSink ⟨false, false⟩ } matchedCall
    let b := run { tracer := liveTracer.onSink ⟨false, true⟩ } matchedCall
    b.tracer.tree = w.tracer.tree ∧
      b.tracer.nodeText (b.tracer.tree.node 1) false [] ≠
        w.tracer.nodeText (b.tracer.tree.node 1) false [] := by
  intro w b
  have hworks : (⟨false, false⟩ : Sink).isBroken = false := rfl
  have hbroken : (⟨false, true⟩ : Sink).isBroken = true := rfl
  obtain ⟨htree, -, -, -, hnode⟩ := brokenSink_run liveTracer [] hworks hbroken matchedCall
  exact ⟨htree, mt (hnode _ false []).1 (by decide)⟩

/-- The graph of the call has its number only if the sink works. -/
theorem graphText_matchedCall :
    let w := run { tracer := liveTracer.onSink ⟨false, false⟩ } matchedCall
    let b := run { tracer := liveTracer.onSink ⟨false, true⟩ } matchedCall
    (w.tracer.graphText .full).1 = .ok "o #1 1:1-1:2 A".toList ∧
      (b.tracer.graphText .full).1 = .ok "o 1:1-1:2 A".toList := by
  intro w b
  let call : Node :=
    { number := 1, path := "/".toList, rule := "A".toList, location := locate "a".toList 0 1
      state := .resolved .matched, parent := some 0 }
  let tree : CallTree := ⟨[{ Node.root with matched := [1] }, call], 0, 0, 0, []⟩
  have hw : w.tracer = { liveTracer with tree } := by decide
  have hb : b.tracer = { liveTracer.silence.onSink ⟨false, true⟩ with tree } := by decide
  rw [hw, hb]
  exact ⟨by cbv, by cbv⟩

end TracerRun

end RuleTrace
