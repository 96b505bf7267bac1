import RuleTrace.Proofs.Call.Listing
import RuleTrace.Proofs.Pattern.Component
import RuleTrace.Tracer.Basic

/-!
# Calls made by hidden calls

The path of a call goes on from that of its caller with a slash, and the boundary written after a
component pattern takes a slash where it took the end of the path. So what a component pattern hides
stays hidden further down, unless the pattern itself asks for the end of the path, ends in a
backslash and so takes part of the boundary in, or has a part that takes the slash and keeps it.

* `Pattern.occursIn_append_slash`: a path that goes on after a match has one, too.
* `Session.hidden_inherited_run`: the calls made by a hidden call are hidden, and the full view
  shows nothing in the place of a hidden call.
-/

namespace RuleTrace

/-- A condition that says nothing about the end of a path. -/
def Anchor.IsOpen (a : Anchor) : Prop :=
  a ≠ .stop ∧ a ≠ .lineStop

/-- Such a condition goes on to hold when a slash and more follow the text. -/
theorem Anchor.IsOpen.holds_append_slash {a : Anchor} (ha : a.IsOpen) {t rest : Text} {i : Nat}
    (hi : i ≤ t.length) (h : a.holds (t.take i).getLast? (t.drop i) = true) :
    a.holds ((t ++ '/' :: rest).take i).getLast? ((t ++ '/' :: rest).drop i) = true := by
  rw [List.take_append_of_le_length hi, List.drop_append_of_le_length hi]
  have hslash : isWordChar '/' = false := by decide +kernel
  have hboundary : ∀ before : Option Char, isBoundary before (t.drop i ++ '/' :: rest) =
      isBoundary before (t.drop i) := by
    intro before
    unfold isBoundary
    cases t.drop i <;> simp [hslash]
  cases a with
  | start => exact h
  | stop => exact absurd rfl ha.1
  | lineStop => exact absurd rfl ha.2
  | boundary => rwa [holds, hboundary]
  | nonBoundary =>
    rw [holds, Bool.and_eq_true] at h
    rw [holds, hboundary, h.1]
    simp

/-- A match goes on to be one when a slash and more follow the text. -/
theorem Regex.Matches.append_slash {r : Regex} {t : Text} {i j : Nat} (h : Matches t r i j)
    (hr : r.HasOnly Anchor.IsOpen) (rest : Text) : Matches (t ++ '/' :: rest) r i j := by
  have h' : Matches ([] ++ t ++ '/' :: rest) r (0 + i) (0 + j) :=
    h.embed (fun a ha i hi hh => by simpa using ha.holds_append_slash hi hh) hr
  simpa using h'

theorem LexState.hasOnly_of_finish {p : Anchor → Prop} {s : LexState} {ls : List Lexeme}
    (h : s.finish = .ok ls) : ∀ l ∈ ls, l.HasOnly p := by
  cases s with
  | ground =>
    cases h
    nofun
  | repeated least most =>
    cases h
    exact List.forall_mem_singleton.2 nofun
  | opened =>
    cases h
    exact List.forall_mem_singleton.2 rfl
  | bounds low high =>
    cases h
    intro l hl
    obtain ⟨c, -, rfl⟩ := List.mem_map.1 hl
    exact trivial
  | escape | extension | comment | set => cases h

namespace Pattern

/-- A component pattern that does not end in a backslash, with nothing atomic in it and no condition
about the end of the path. -/
def IsOpenEnded (c : Text) : Prop :=
  ∀ last ls, LexState.ground.read c = .ok (last, ls) →
    last ≠ .escape ∧ ∀ l ∈ ls, l.HasOnly Anchor.IsOpen

section
variable {path : Text} (hpath : path.getLast? ≠ some '\n')
include hpath

/-- The boundary takes the slash instead of the end of the path. -/
theorem exists_matches_push {g : Group} (hg : g.HasOnly Anchor.IsOpen) {i j : Nat}
    (h : Regex.Matches path (g.push .plain .componentEnd).sequence i j) (rest : Text) :
    ∃ j', Regex.Matches (path ++ '/' :: rest) (g.push .plain .componentEnd).sequence i j' := by
  obtain ⟨k, hk, hend⟩ := Regex.matches_push_iff.1 h
  obtain ⟨hle, hstop⟩ := (Regex.exists_matches_componentEnd_iff hpath).1 ⟨j, hend⟩
  have hslash : (path ++ '/' :: rest)[k]? = some '/' := by
    rcases hstop with rfl | hc
    · rw [List.getElem?_append_right (Nat.le_refl _), Nat.sub_self]
      rfl
    · rw [List.getElem?_append_left (List.getElem?_eq_some_iff.1 hc).1, hc]
  have hend' : Regex.Matches (path ++ '/' :: rest) .componentEnd k (k + 1) :=
    .left (.seq (.chars hslash (by simp)) (.empty (List.getElem?_eq_some_iff.1 hslash).1))
  exact ⟨k + 1, Regex.matches_push_iff.2 ⟨k, hk.append_slash hg.sequence rest, hend'⟩⟩

theorem occurs_push {g : Group} (hg : g.HasOnly Anchor.IsOpen)
    (h : (g.push .plain .componentEnd).regex.Occurs path) (rest : Text) :
    (g.push .plain .componentEnd).regex.Occurs (path ++ '/' :: rest) := by
  obtain ⟨i, j, h⟩ := h
  cases hearlier : g.earlier with
  | none =>
    have hregex : (g.push .plain .componentEnd).regex =
        (g.push .plain .componentEnd).sequence := Group.regex_eq_sequence hg.plain hearlier
    rw [hregex] at h ⊢
    exact ⟨i, exists_matches_push hpath hg h rest⟩
  | some r =>
    have hregex : (g.push .plain .componentEnd).regex =
        .alt r (g.push .plain .componentEnd).sequence := by
      simp [Group.regex, Group.alternatives, Group.push, hg.plain, hearlier]
    rw [hregex, Regex.matches_alt_iff] at h
    rw [hregex]
    rcases h with h | h
    · exact ⟨i, j, .left (h.append_slash (hg.earlier r hearlier) rest)⟩
    · obtain ⟨j', h'⟩ := exists_matches_push hpath hg h rest
      exact ⟨i, j', .right h'⟩

/-- A path that goes on with a slash after a match has one, too. -/
theorem occursIn_append_slash {c : Text} {w : Pattern} (hw : ofComponent c = .ok w)
    (hc : IsOpenEnded c) (h : w.occursIn path = true) (rest : Text) :
    w.occursIn (path ++ '/' :: rest) = true := by
  rw [occursIn, Regex.search_iff] at h ⊢
  obtain ⟨all, gs, hall, hgs, houter, rfl⟩ := ofText_eq_ok.1 hw
  obtain ⟨last, ls, hread, hcases⟩ := lexemes_wrapComponent_cases hall
  obtain ⟨hescape, hls⟩ := hc last ls hread
  have hstart : (⟨({} : Group).push .plain .componentStart, []⟩ : Groups).HasOnly Anchor.IsOpen :=
    ⟨Group.HasOnly.empty.push (by simp [Regex.componentStart, Regex.HasOnly, Anchor.IsOpen]),
      fun _ hg => by cases hg⟩
  rcases hcases with rfl | ⟨-, rfl⟩ | ⟨more, hmore, rfl⟩
  · exact absurd rfl hescape
  · -- the boundary after the component is part of a comment
    obtain ⟨gs', hopen, hgs⟩ := Groups.addAll_append_eq_ok.1 hgs
    cases Groups.addAll_openLexemes.symm.trans hopen
    obtain ⟨i, j, h⟩ := h
    exact ⟨i, j, h.append_slash (hstart.addAll hls hgs).inner.regex rest⟩
  · obtain ⟨gs₂, hgs₂, hclose⟩ := Groups.addAll_append_eq_ok.1 hgs
    obtain ⟨gs₁, hopen, hgs₂⟩ := Groups.addAll_append_eq_ok.1 hgs₂
    cases Groups.addAll_openLexemes.symm.trans hopen
    cases (Groups.addAll_closeLexemes gs₂).symm.trans hclose
    have hadded : gs₂.HasOnly Anchor.IsOpen := hstart.addAll (fun l hl =>
      (List.mem_append.1 hl).elim (hls l) (LexState.hasOnly_of_finish hmore l)) hgs₂
    exact occurs_push hpath hadded.inner h rest

end

end Pattern

theorem ofComponent_of_mem {components : List Text} {patterns : List Pattern} {w : Pattern}
    (h : patternsOf (components.map .component) = .ok patterns) (hw : w ∈ patterns) :
    ∃ c ∈ components, Pattern.ofComponent c = .ok w := by
  induction components generalizing patterns with
  | nil =>
    cases h
    cases hw
  | cons c components ih =>
    obtain ⟨p, hp, h⟩ := bind_eq_ok.1 h
    obtain ⟨ps, hps, h⟩ := bind_eq_ok.1 h
    cases h
    rcases List.mem_cons.1 hw with rfl | hw
    · exact ⟨c, List.mem_cons_self, hp⟩
    · obtain ⟨c', hc', hw⟩ := ih hps hw
      exact ⟨c', List.mem_cons_of_mem c hc', hw⟩

namespace CallTree.WellFormed

variable {t : CallTree} (h : t.WellFormed)
include h

/-- A call below one that is hidden by component patterns without an end is hidden, too. -/
theorem isHidden_of_mem_ancestors {components : List Text} {patterns : List Pattern}
    (hpatterns : patternsOf (components.map .component) = .ok patterns)
    (hopen : ∀ c ∈ components, Pattern.IsOpenEnded c) {n d : Nat} (hd : d < t.nodes.length)
    (hn : n ∈ t.ancestors d) (hrule : (t.node n).rule.getLast? ≠ some '\n')
    (hhidden : (t.node n).isHidden patterns = true) : (t.node d).isHidden patterns = true := by
  obtain ⟨w, hw, hoccurs⟩ := List.any_eq_true.1 hhidden
  obtain ⟨c, hc, hwc⟩ := ofComponent_of_mem hpatterns hw
  obtain ⟨rest, hrest⟩ := h.fullPath_of_mem_ancestors hd hn
  obtain ⟨h0, -, -, hlt⟩ := h.lt_of_mem_ancestors hn
  have hpath := h.getLast?_fullPath (Nat.lt_trans hlt hd) h0 hrule
  refine List.any_eq_true.2 ⟨w, hw, ?_⟩
  rw [hrest]
  exact Pattern.occursIn_append_slash hpath hwc (hopen c hc) hoccurs rest

end CallTree.WellFormed

namespace Session

/-- After every run, component patterns without an end hide all calls below one that they hide, as
long as its rule does not end with a newline. So if no rule does, the full view lists the caller of
every call that it lists, and nothing is shown in the place of a hidden call. -/
theorem hidden_inherited_run (calls : List TreeCall) :
    let t := (run calls).tree
    ∀ (components : List Text) (patterns : List Pattern),
      patternsOf (components.map .component) = .ok patterns →
      (∀ c ∈ components, Pattern.IsOpenEnded c) →
        (∀ d < t.nodes.length, ∀ n ∈ t.ancestors d, (t.node n).rule.getLast? ≠ some '\n' →
          (t.node n).isHidden patterns = true → (t.node d).isHidden patterns = true) ∧
        ((∀ n < t.nodes.length, (t.node n).rule.getLast? ≠ some '\n') →
          ListsCallers (t.flatten patterns .full) ∧
          ∀ n < t.nodes.length, n ≠ 0 → (t.node n).isHidden patterns = true →
            t.extract patterns .full n = some .nil) := by
  intro t components patterns hpatterns hopen
  have h : t.WellFormed := (run_inv calls).1.toWellFormed
  have hinherit : ∀ d < t.nodes.length, ∀ n ∈ t.ancestors d,
      (t.node n).rule.getLast? ≠ some '\n' → (t.node n).isHidden patterns = true →
        (t.node d).isHidden patterns = true :=
    fun d hd n hn => h.isHidden_of_mem_ancestors hpatterns hopen hd hn
  refine ⟨hinherit, fun hrules => ⟨h.listsCallers_full fun p hp h0 hhidden c hc => ?_,
    fun n hn h0 hhidden => ?_⟩⟩
  · have hlt := (h.lt_of_mem_children hp hc).2
    have hbelow := h.mem_ancestors_of_endedBelow h0 (.single ((h.mem_children_iff hp).1 hc))
    exact hinherit c hlt p hbelow (hrules p hp) hhidden
  · have hnone : (t.descendants n).filter (t.isVisible patterns) = [] := by
      refine List.filter_eq_nil_iff.2 fun d hd => ?_
      have hbelow := h.mem_ancestors_of_endedBelow h0 ((h.mem_descendants_iff hn).1 hd)
      have := hinherit d (h.lt_of_mem_descendants hn hd) n hbelow (hrules n hn) hhidden
      simp [CallTree.isVisible, this]
    have hshown := h.preorder_full patterns hn
    rw [hnone, List.map_nil] at hshown
    rw [CallTree.extract, Forest.eq_nil_of_preorder hshown]

/-- The name of `b` hides the call of `b` that one of `a` made, and so the one of `c` below it.
Nothing is shown in its place. -/
theorem hidden_inherited_run_nestedCalls :
    let t := (run nestedCalls).tree
    ∃ patterns, patternsOf ([['b']].map .component) = .ok patterns ∧ 2 ∈ t.ancestors 3 ∧
      (t.node 2).isHidden patterns = true ∧ (t.node 3).isHidden patterns = true ∧
      ListsCallers (t.flatten patterns .full) ∧ t.extract patterns .full 2 = some .nil := by
  intro t
  have hopen : ∀ c ∈ [['b']], Pattern.IsOpenEnded c := by
    refine List.forall_mem_singleton.2 fun last ls hread => ?_
    have hb : LexState.ground.read ['b'] = .ok (.ground, [.literal 'b']) := rfl
    cases hb.symm.trans hread
    exact ⟨nofun, List.forall_mem_singleton.2 trivial⟩
  obtain ⟨w, hw⟩ : ∃ w, Pattern.ofComponent ['b'] = .ok w := ⟨_, rfl⟩
  have hpatterns : patternsOf ([['b']].map .component) = .ok [w] :=
    bind_eq_ok.2 ⟨w, hw, bind_eq_ok.2 ⟨[], rfl, rfl⟩⟩
  obtain ⟨hinherit, hshown⟩ := hidden_inherited_run nestedCalls _ _ hpatterns hopen
  have hup : 2 ∈ t.ancestors 3 := by
    rw [CallTree.ancestors_of_caller (p := 2) (by decide) (by decide)]
    exact List.mem_cons_self
  have hhidden : (t.node 2).isHidden [w] = true := by
    cases hw
    decide
  obtain ⟨hlists, hnil⟩ := hshown (by decide)
  exact ⟨[w], hpatterns, hup, hhidden, hinherit 3 (by decide) 2 hup (by decide) hhidden, hlists,
    hnil 2 (by decide) (by decide) hhidden⟩

/-- Patterns without a condition that hide the call of `a`, but not the one of `b` that it made.
With `a(\`, the backslash takes the parenthesis of the boundary in. With `a/?+`, the slash that
comes after `a` in the longer path is taken and never given back to the boundary. -/
theorem not_hidden_below_hidden :
    let t := (run callWithin).tree
    LexState.ground.read ['a', '(', '\\'] = .ok (.escape, [.literal 'a', .opening false]) ∧
    LexState.ground.read ['a', '/', '?', '+'] =
      .ok (.ground, [.literal 'a', .literal '/', .times 0 (some 1) .possessive]) ∧
    1 ∈ t.ancestors 2 ∧ (t.node 1).rule.getLast? ≠ some '\n' ∧
    ∀ c ∈ [['a', '(', '\\'], ['a', '/', '?', '+']],
      ∃ patterns, patternsOf ([c].map .component) = .ok patterns ∧
        (t.node 1).isHidden patterns = true ∧ (t.node 2).isHidden patterns = false := by
  intro t
  refine ⟨rfl, rfl, ?_, by decide, ?_⟩
  · rw [CallTree.ancestors_of_caller (p := 1) (by decide) (by decide)]
    exact List.mem_cons_self
  · simp only [List.forall_mem_cons]
    exact ⟨⟨_, rfl, by decide, by decide⟩, ⟨_, rfl, by decide, by decide⟩, nofun⟩

end Session

end RuleTrace
