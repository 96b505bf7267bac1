import RuleTrace.Proofs.Html.Markup
import RuleTrace.Proofs.Tracer.Ink

/-!
# Pages and graphs

The fragment of a page for a view carries the graph of the view without its color codes, and nothing
else. That is the graph of a tracer without ink, if there is no escape character in the source and
in the names of rules and no location starts before the first column.

* `Html.fragment_eq`: the tags that the graph stands between.
* `TracerRun.html_run`: what the fragments of a tracer say.
-/

namespace RuleTrace

namespace Html

/-- What stands before the element for a graph in a fragment. -/
def beginning (view : View) (withStyles : Bool) : Text :=
  "<div class=\"parsetrace parsetrace-".toList ++ viewName view ++ "\">".toList ++
    if withStyles then "<style>".toList ++ stylesheet ++ "</style>".toList else []

theorem notMem_stylesheet : '<' ∉ stylesheet := by decide +kernel

/-- A fragment has the page text of the graph in an element of its own, at the end of the frame. -/
theorem fragment_eq {w : Writer} (hw : w.IsDocumented) (view : View) (withStyles : Bool)
    (t : Text) :
    fragment w view withStyles t =
      beginning view withStyles ++ "<pre class=graph>".toList ++ body w t ++
        "</pre></div>".toList := by
  let frameClasses := "parsetrace parsetrace-".toList ++ viewName view
  have hclasses : '-' ∈ frameClasses ∧ frameClasses.all isNameChar = true := by
    cases view <;> decide
  have hframe : w.opening "div".toList frameClasses =
      "<div class=\"parsetrace parsetrace-".toList ++ viewName view ++ "\">".toList := by
    rw [hw.opening_names "div".toList (by decide) frameClasses hclasses.1
      (List.all_eq_true.1 hclasses.2)]
    cases view <;> rfl
  have hgraph : w.opening "pre".toList "graph".toList = "<pre class=graph>".toList :=
    hw.opening_word "pre".toList (by decide) "graph".toList (by decide)
      (List.all_eq_true.1 (by decide))
  have hends : w.closing "pre".toList ++ w.closing "div".toList = "</pre></div>".toList := by
    rw [hw.closing "pre".toList (by decide), hw.closing "div".toList (by decide)]
    rfl
  have hfragment : fragment w view withStyles t =
      w.opening "div".toList frameClasses ++ (if withStyles then w.style stylesheet else []) ++
        w.opening "pre".toList "graph".toList ++ body w t ++
        (w.closing "pre".toList ++ w.closing "div".toList) := List.append_assoc _ _ _
  rw [hfragment, hframe, hw.style stylesheet notMem_stylesheet, hgraph, hends]
  rfl

end Html

namespace TracerRun

/-- What the graph of a tracer shows in a run of clean calls is the graph without ink. -/
theorem InPlain.map_stripColors {r p : TracerRun} (h : r.InPlain p) (view : View) :
    (r.tracer.graphText view).1.map stripColors = (p.tracer.graphText view).1 := by
  rw [h.tracer]
  rcases Tracer.shows_graphText h.clean view with ⟨e, hcolored, hplain⟩ |
    ⟨a, b, hcolored, hplain, hshows⟩
  · rw [hcolored, hplain]
    rfl
  · rw [hcolored, hplain, Except.map, hshows.stripColors_eq]

/-- Let the library that writes page text do what is documented of it. Then every fragment for a
view has its graph between the tags `<pre class=graph>` and `</pre></div>`, after nothing but the
frame and the stylesheet, as page text that carries the graph without its color codes; there is no
fragment where there is no graph. For a tracer whose source has no escape character, and after calls
without escape characters in the names of rules and without locations that start before the first
column, the graph without its color codes is that of the tracer without ink after the same calls. -/
theorem html_run (w : Html.Writer) (hw : w.IsDocumented) :
    (∀ (t : Tracer) (view : View) (withStyles : Bool),
      match (t.graphText view).1 with
      | .error e => (t.html w view withStyles).1 = .error e
      | .ok text => ∃ content, Html.Carries content (stripColors text) ∧
          (t.html w view withStyles).1 =
            .ok (Html.beginning view withStyles ++ "<pre class=graph>".toList ++ content ++
              "</pre></div>".toList)) ∧
    ∀ (t : Tracer) (older : List Tracer) (text : Text), Source.ofText text = .ok t.source →
      t.tree = .empty → escapeChar ∉ text → ∀ calls : List TracerCall, (∀ c ∈ calls, c.IsClean) →
      ∀ view,
        ((run { tracer := t.withInk .colored, older } calls).tracer.graphText view).1.map
            stripColors =
          ((run { tracer := t.withInk .plain, older } calls).tracer.graphText view).1 := by
  refine ⟨fun t view withStyles => ?_,
    fun t older text hsource hempty htext calls hcalls view => ?_⟩
  · have hhtml : (t.html w view withStyles).1 =
        (t.graphText view).1.map (Html.fragment w view withStyles) := rfl
    rw [hhtml]
    split
    · next e h =>
      rw [h]
      rfl
    · next text h =>
      rw [h]
      exact ⟨_, Html.carries_body hw text,
        congrArg Except.ok (Html.fragment_eq hw view withStyles text)⟩
  · have hclean : (t.withInk .colored).IsClean :=
      ⟨Source.isClean_of_ofText hsource htext, hempty ▸ CallTree.isClean_empty⟩
    have hstart : InPlain { tracer := t.withInk .colored, older }
        { tracer := t.withInk .plain, older } := ⟨rfl, rfl, hclean, fun _ => rfl⟩
    exact (hstart.run hcalls).map_stripColors view

/-- A rule with the name of a tag, in a source with markup, and a writer that does what is
documented. -/
theorem html_run_markup :
    let t : Tracer := ⟨{}, ⟨["a<b&".toList]⟩, [], ⟨false, false⟩, .empty⟩
    let l := locate "a<b&".toList 1 2
    let calls : List TracerCall :=
      [.record ⟨.enter, "<b>".toList, l⟩, .record ⟨.leave .failed, "<b>".toList, l⟩]
    let c := run { tracer := t.withInk .colored } calls
    let p := run { tracer := t.withInk .plain } calls
    (∀ view, ∃ text content, (c.tracer.graphText view).1 = .ok text ∧
      Html.Carries content (stripColors text) ∧
      (c.tracer.html .standard view false).1 =
        .ok (Html.beginning view false ++ "<pre class=graph>".toList ++ content ++
          "</pre></div>".toList)) ∧
    ∀ view, (c.tracer.graphText view).1.map stripColors = (p.tracer.graphText view).1 := by
  intro t l calls c p
  obtain ⟨hfragments, hinks⟩ := html_run .standard Html.Writer.isDocumented_standard
  have hnodes : ∀ i < c.tracer.tree.nodes.length,
      (c.tracer.tree.node i).location.isWritable = true := by decide
  have hdrawn : ∀ view, ∃ text, (c.tracer.graphText view).1 = .ok text := by
    intro view
    have hwritable : ∀ n ∈ c.tracer.tree.flatten c.tracer.hidden view,
        n.location.isWritable = true := by
      intro n hn
      obtain ⟨i, rfl⟩ := CallTree.exists_node_of_mem_flatten hn
      rcases Nat.lt_or_ge i c.tracer.tree.nodes.length with hi | hi
      · exact hnodes i hi
      · rw [CallTree.node_of_le hi]
        decide
    rw [Tracer.graphText_eq, writableEnd_of_forall hwritable, if_neg (Nat.lt_irrefl _)]
    exact ⟨_, rfl⟩
  refine ⟨fun view => ?_, hinks t [] "a<b&".toList (by rfl) rfl (by decide) calls (by decide)⟩
  have hfragment := hfragments c.tracer view false
  obtain ⟨text, htext⟩ := hdrawn view
  rw [htext] at hfragment
  obtain ⟨content, hcarries, hhtml⟩ := hfragment
  exact ⟨text, content, htext, hcarries, hhtml⟩

end TracerRun

end RuleTrace
