import Mathlib.Data.List.TakeWhile
import RuleTrace.Proofs.Graph.Ink
import RuleTrace.Tracer.Live

/-!
# Runs of a tracer

A tracer takes events, after the older ones of its chain, it may forget its calls, and it may draw a
view, which notes styles in its call tree. `TracerRun.run` carries out any list of such calls and
collects what the live trace writes.

* `Tracer.record_cases`: all that an event can do to a tracer.
* `TracerRun.step_record`: an event changes nothing in a tracer if one of the older ones has an
  error.
-/

namespace RuleTrace

/-- What can be done to a tracer. -/
inductive TracerCall where
  | record (e : Event)
  | reset
  | graph (view : View)
deriving DecidableEq, Repr

/-- A tracer, the older ones of its chain, and what its live trace wrote so far. -/
structure TracerRun where
  tracer : Tracer
  older : List Tracer := []
  written : Text := []
deriving DecidableEq, Repr

namespace TracerRun

/-- The run after one call. -/
def step (r : TracerRun) : TracerCall → TracerRun
  | .record e =>
    match (Tracer.recordChain (r.tracer :: r.older) e).1 with
    | [] => r
    | (tracer, activity) :: older =>
      { tracer, older := older.map (·.1), written := r.written ++ activity.written }
  | .reset => { r with tracer := r.tracer.reset }
  | .graph view => { r with tracer := (r.tracer.graphText view).2 }

/-- The run after some calls. -/
def run (r : TracerRun) (calls : List TracerCall) : TracerRun :=
  calls.foldl step r

/-- An event goes to a tracer unless one of the older ones has an error. Either way the older ones
do not depend on it. -/
theorem step_record (r : TracerRun) (e : Event) :
    let (above, result) := Tracer.recordChain r.older e
    r.step (.record e) = match result with
      | .error _ => { r with older := above.map (·.1) }
      | .ok _ =>
        { tracer := (r.tracer.record e).tracer
          older := above.map (·.1)
          written := r.written ++ (r.tracer.record e).activity.written } := by
  rw [step, Tracer.recordChain]
  rcases Tracer.recordChain r.older e with ⟨above, _ | _⟩
  · simp
  · rfl

end TracerRun

/-! ## Graphs -/

/-- Calls are drawn that are listed. -/
theorem mem_of_mem_writableEnd {nodes : List Node} {n : Node} (h : n ∈ writableEnd nodes) :
    n ∈ nodes :=
  List.mem_reverse.1 ((List.takeWhile_prefix _).subset (List.mem_reverse.1 h))

theorem writableEnd_of_forall {nodes : List Node}
    (h : ∀ n ∈ nodes, n.location.isWritable = true) : writableEnd nodes = nodes := by
  have hall : nodes.reverse.takeWhile (·.location.isWritable) = nodes.reverse :=
    List.takeWhile_eq_self_iff.2 fun n hn => h n (List.mem_reverse.1 hn)
  rw [writableEnd, hall, List.reverse_reverse]

/-- Not all calls of a list are drawn if there is one whose location cannot be written. -/
theorem length_writableEnd_lt {nodes : List Node} {n : Node} (hn : n ∈ nodes)
    (h : n.location.isWritable = false) : (writableEnd nodes).length < nodes.length := by
  have hprefix := nodes.reverse.takeWhile_prefix (·.location.isWritable)
  have hle := hprefix.length_le
  rw [writableEnd, List.length_reverse]
  rw [List.length_reverse] at hle
  refine Nat.lt_of_le_of_ne hle fun hlength => ?_
  have heq := hprefix.eq_of_length (hlength.trans List.length_reverse.symm)
  have := List.takeWhile_eq_self_iff.1 heq n (List.mem_reverse.2 hn)
  rw [h] at this
  cases this

namespace Tracer

/-- The rows of the graph of a view. -/
def graphRows (t : Tracer) (view : View) : List Text :=
  (draw t.options.ink (!t.options.showSource) ((writableEnd (t.tree.flatten t.hidden view)).map
    (·.item fun n => t.label n t.options.showSource []))).rows

/-- The graph of a view is written if the locations of all its calls can be. -/
theorem graphText_eq (t : Tracer) (view : View) :
    (t.graphText view).1 =
      if (writableEnd (t.tree.flatten t.hidden view)).length <
          (t.tree.flatten t.hidden view).length then .error .longNumber
      else .ok (if (t.graphRows view).isEmpty then view.notice
        else Text.unlines (t.graphRows view)) := by
  rw [graphText, render]
  dsimp only
  split <;> rfl

/-- Drawing a view notes styles that depend on the tree and the hidden calls alone. -/
theorem tree_graphText {t u : Tracer} (htree : u.tree = t.tree) (hhidden : u.hidden = t.hidden)
    (view : View) : (u.graphText view).2.tree = (t.graphText view).2.tree := by
  have hitems : ∀ (nodes : List Node) (label label' : Node → List Text),
      List.Forall₂ Item.SameCall (nodes.map (·.item label)) (nodes.map (·.item label')) := by
    intro nodes label label'
    rw [List.forall₂_map_left_iff, List.forall₂_map_right_iff]
    exact List.forall₂_same.2 fun n _ => ⟨rfl, rfl, rfl⟩
  simp only [graphText, render, CallTree.draw, htree, hhidden]
  rw [styles_draw u.options.ink t.options.ink (!u.options.showSource) (!t.options.showSource)
    (hitems _ _ _)]

/-- The tracer with its live trace turned off. -/
def silence (t : Tracer) : Tracer :=
  { t with options := { t.options with showTrace := false } }

/-- The block of a call that is shown goes to the sink. -/
theorem writeLive_of_shown {t : Tracer} {kind : EventKind} {n : Node}
    (hshown : ¬(!t.options.showTrace || n.isHidden t.hidden)) (hfits : ¬!n.location.isWritable) :
    t.writeLive kind n = match t.sink.write? (t.liveBlock kind n) with
      | some written => .ok (t, { written })
      | none => .ok (t.silence, { log := [.liveTraceOff] }) :=
  (if_neg hshown).trans (if_neg hfits)

/-- What writing a block does: nothing but, if the sink refuses it, to turn the live trace off. What
is written is nothing, or what the sink gets of the block. -/
theorem writeLive_cases {t u : Tracer} {kind : EventKind} {n : Node} {a : Activity}
    (h : t.writeLive kind n = .ok (u, a)) :
    (u = t ∨ u = t.silence) ∧
      (a.written = [] ∨ t.sink.write? (t.liveBlock kind n) = some a.written) := by
  unfold writeLive at h
  split at h
  · cases h
    exact ⟨.inl rfl, .inl rfl⟩
  · split at h
    · cases h
    · split at h
      · next hsome =>
        cases h
        exact ⟨.inl rfl, .inr hsome⟩
      · cases h
        exact ⟨.inr rfl, .inl rfl⟩

/-- All that an event can do to a tracer: nothing, or what it does to the call tree, and it may turn
the live trace off. -/
theorem record_cases (t : Tracer) (e : Event) :
    (t.record e).tracer = t ∨ ∃ tree r, t.tree.apply e = .ok (tree, r) ∧
      ((t.record e).tracer = { t with tree } ∨
        (t.record e).tracer = Tracer.silence { t with tree }) := by
  rw [record]
  split
  · exact .inl rfl
  · next tree err happly => exact .inr ⟨tree, .error err, happly, .inl rfl⟩
  · next tree i happly =>
    refine .inr ⟨tree, .ok i, happly, ?_⟩
    dsimp only
    split
    · exact .inl rfl
    · next hwrite => exact (writeLive_cases hwrite).1

/-- What an event writes: nothing, or what the sink gets of the block for its call. -/
theorem written_record (t : Tracer) (e : Event) :
    (t.record e).activity.written = [] ∨ ∃ tree i, t.tree.apply e = .ok (tree, .ok i) ∧
      t.sink.write? (liveBlock { t with tree } e.kind (tree.node i)) =
        some (t.record e).activity.written := by
  rw [record]
  split
  · exact .inl rfl
  · exact .inl rfl
  · next tree i happly =>
    dsimp only
    split
    · exact .inl rfl
    · next hwrite =>
      exact (writeLive_cases hwrite).2.imp_right fun hsome => ⟨tree, i, happly, hsome⟩

end Tracer

end RuleTrace
