import RuleTrace.Pattern.Meaning
import RuleTrace.Proofs.Call.Paths
import RuleTrace.Proofs.Pattern.Reading

/-!
# What a component pattern hides

A component pattern is searched with the boundaries of components around it. Unless it has a bar
outside of its groups, the boundaries and the pattern make up one sequence. Without conditions and
without parts that keep what they took first, the pattern then matches just what lies between two
boundaries, as if the rest of the path were not there. A pattern with one of these can tell what is
around it, and its answer may be another one.

* `Regex.exists_matches_componentStart_iff`, `Regex.exists_matches_componentEnd_iff`: where the
  boundaries lead to and from.
* `Pattern.occursIn_component_iff`: a component pattern finds the components that it matches.
* `Regex.matchesComponents_iff`: the components of a path that an expression matches.
* `Session.component_pattern_run`: which calls are hidden by a component pattern.
* `Session.component_pattern_run_surroundings`: patterns with a condition or a part that keeps what it
  took.
-/

namespace RuleTrace

theorem Group.regex_eq_alternatives {g : Group} (hplain : g.isAtomic = false) :
    g.regex = g.alternatives := by
  rw [Group.regex, hplain]
  rfl

theorem Group.regex_eq_sequence {g : Group} (hplain : g.isAtomic = false)
    (hnone : g.earlier = none) : g.regex = g.sequence := by
  rw [Group.regex_eq_alternatives hplain, Group.alternatives, hnone]

namespace Regex

variable {t : Text}

/-- The pieces of a sequence are matched before what comes after them. -/
theorem matches_foldl_iff {ps : List Piece} {r : Regex} {i j : Nat} :
    Matches t (ps.foldl (fun r p => .seq p.regex r) r) i j ↔
      ∃ k, Matches t (ps.foldl (fun r p => .seq p.regex r) .empty) i k ∧ Matches t r k j := by
  induction ps generalizing r j with
  | nil =>
    constructor
    · intro h
      exact ⟨i, .empty h.le.1, h⟩
    · rintro ⟨k, hk, h⟩
      obtain ⟨-, rfl⟩ := matches_empty_iff.1 hk
      exact h
  | cons p ps ih =>
    simp only [List.foldl_cons]
    rw [ih]
    simp only [ih (r := .seq p.regex .empty), matches_seq_iff, matches_empty_iff]
    constructor
    · rintro ⟨k, h, l, hp, hr⟩
      exact ⟨l, ⟨k, h, l, hp, hp.le.2, rfl⟩, hr⟩
    · rintro ⟨l, ⟨k, h, l', hp, -, rfl⟩, hr⟩
      exact ⟨k, h, _, hp, hr⟩

/-- A piece is matched after those before it. -/
theorem matches_push_iff {g : Group} {r : Regex} {kind : PieceKind} {i j : Nat} :
    Matches t (g.push kind r).sequence i j ↔
      ∃ k, Matches t g.sequence i k ∧ Matches t r k j := by
  simp only [Group.sequence, Group.push, List.foldl_cons]
  rw [matches_foldl_iff]
  simp only [matches_seq_empty_iff]

/-- A sequence with a piece in front and one after it. -/
theorem matches_between_iff {g : Group} {r s : Regex} {kind kind' : PieceKind} {i j : Nat}
    (hplain : g.isAtomic = false) (hnone : g.earlier = none) :
    Matches t ((g.after [⟨r, kind⟩]).push kind' s).regex i j ↔
      ∃ k l, Matches t r i k ∧ Matches t g.regex k l ∧ Matches t s l j := by
  have hregex : ((g.after [⟨r, kind⟩]).push kind' s).regex =
      ((g.after [⟨r, kind⟩]).push kind' s).sequence := Group.regex_eq_sequence hplain hnone
  have hseq : (g.after [⟨r, kind⟩]).sequence = .seq r g.sequence := by
    rw [Group.sequence, Group.after, List.foldl_append]
    rfl
  rw [hregex, matches_push_iff, hseq, Group.regex_eq_sequence hplain hnone]
  simp only [matches_seq_iff]
  constructor
  · rintro ⟨l, ⟨k, hr, hg⟩, hs⟩
    exact ⟨k, l, hr, hg, hs⟩
  · rintro ⟨k, l, hr, hg, hs⟩
    exact ⟨l, ⟨k, hr, hg⟩, hs⟩

/-- The boundary in front of a component pattern leads to the starts of components. -/
theorem exists_matches_componentStart_iff {j : Nat} :
    (∃ i, Matches t componentStart i j) ↔ j ≤ t.length ∧ (j = 0 ∨ t[j - 1]? = some '/') := by
  simp only [componentStart, matches_alt_iff, matches_seq_empty_iff]
  constructor
  · rintro ⟨i, h | h⟩
    · cases h with
      | anchor hi ha =>
        rw [Anchor.holds, Option.isNone_iff_eq_none, List.getLast?_eq_none_iff,
          List.take_eq_nil_iff] at ha
        rcases ha with rfl | rfl
        · exact ⟨hi, .inl rfl⟩
        · exact ⟨hi, .inl (Nat.le_zero.1 hi)⟩
    · cases h with
      | @chars i _ c hc hs =>
        rw [CharSet.contains_single, beq_iff_eq] at hs
        subst hs
        exact ⟨(List.getElem?_eq_some_iff.1 hc).1, .inr hc⟩
  · rintro ⟨hj, rfl | hc⟩
    · exact ⟨0, .inl (.anchor hj rfl)⟩
    · by_cases h0 : j = 0
      · subst h0
        exact ⟨0, .inl (.anchor hj rfl)⟩
      · obtain ⟨i, rfl⟩ := Nat.exists_eq_succ_of_ne_zero h0
        exact ⟨i, .inr (.chars hc (by simp))⟩

/-- The boundary after a component pattern leads from the ends of components. -/
theorem exists_matches_componentEnd_iff {i : Nat} (ht : t.getLast? ≠ some '\n') :
    (∃ j, Matches t componentEnd i j) ↔ i ≤ t.length ∧ (i = t.length ∨ t[i]? = some '/') := by
  simp only [componentEnd, matches_alt_iff, matches_seq_empty_iff]
  constructor
  · rintro ⟨j, h | h⟩
    · cases h with
      | chars hc hs =>
        rw [CharSet.contains_single, beq_iff_eq] at hs
        subst hs
        exact ⟨Nat.le_of_lt (List.getElem?_eq_some_iff.1 hc).1, .inr hc⟩
    · cases h with
      | anchor hi ha =>
        rw [Anchor.holds, Bool.or_eq_true, List.isEmpty_iff, beq_iff_eq] at ha
        rcases ha with ha | ha
        · exact ⟨hi, .inl (Nat.le_antisymm hi (List.drop_eq_nil_iff.1 ha))⟩
        · exact absurd (by rw [← List.take_append_drop i t, ha, List.getLast?_concat]) ht
  · rintro ⟨hi, rfl | hc⟩
    · exact ⟨_, .inr (.anchor hi (by simp [Anchor.holds]))⟩
    · exact ⟨i + 1, .inl (.chars hc (by simp))⟩

/-- Where a component starts, by the text in front. -/
theorem eq_nil_or_getLast?_iff {before : Text} (rest : Text) :
    (before = [] ∨ before.getLast? = some '/') ↔
      before.length = 0 ∨ (before ++ rest)[before.length - 1]? = some '/' := by
  cases before using List.reverseRecOn with
  | nil => simp
  | append_singleton before c => simp

/-- Where a component ends, by the text after it. -/
theorem eq_nil_or_head?_iff (before : Text) {after : Text} :
    (after = [] ∨ after.head? = some '/') ↔
      before.length = (before ++ after).length ∨ (before ++ after)[before.length]? = some '/' := by
  cases after <;> simp

/-- Whether an expression matches some components of a path, with the slashes between them. -/
def MatchesComponents (r : Regex) (path : Text) : Prop :=
  ∃ i j, i ≤ j ∧ j ≤ path.length ∧ (i = 0 ∨ path[i - 1]? = some '/') ∧
    (j = path.length ∨ path[j]? = some '/') ∧ Matches ((path.take j).drop i) r 0 (j - i)

/-- The components that an expression matches, from one slash to another or the ends of the path. -/
theorem matchesComponents_iff {r : Regex} {path : Text} :
    r.MatchesComponents path ↔ ∃ name, Matches name r 0 name.length ∧ IsComponent path name := by
  constructor
  · rintro ⟨i, j, hij, hj, hi, hj', hm⟩
    have hlen : ((path.take j).drop i).length = j - i := by
      rw [List.length_drop, List.length_take_of_le hj]
    have hi' : (path.take i).length = i := List.length_take_of_le (Nat.le_trans hij hj)
    have hj'' : (path.take j).length = j := List.length_take_of_le hj
    refine ⟨(path.take j).drop i, hlen.symm ▸ hm, path.take i, path.drop j, ?_, ?_, ?_⟩
    · rw [take_append_drop_take hij, List.take_append_drop]
    · rwa [eq_nil_or_getLast?_iff (path.drop i), List.take_append_drop, hi']
    · rwa [eq_nil_or_head?_iff (path.take j), List.take_append_drop, hj'']
  · rintro ⟨name, hm, before, after, rfl, hbefore, hafter⟩
    have hslice : ((before ++ name ++ after).take (before ++ name).length).drop before.length
        = name := by
      rw [List.take_left, List.drop_left]
    refine ⟨before.length, (before ++ name).length, by simp, by simp, ?_, ?_, ?_⟩
    · rw [List.append_assoc]
      exact (eq_nil_or_getLast?_iff _).1 hbefore
    · exact (eq_nil_or_head?_iff _).1 hafter
    · rw [hslice, List.length_append, Nat.add_sub_cancel_left]
      exact hm

end Regex

namespace Pattern

/-- The text of a component pattern whose lexemes have no conditions, nothing atomic, and no bar
outside of groups. -/
def IsSimpleComponent (c : Text) : Prop :=
  ∃ ls, lexemes c = .ok ls ∧ (∀ l ∈ ls, l.HasOnly fun _ => False) ∧ hasOuterBar 0 ls = false

/-- A simple component pattern is matched between its boundaries. -/
theorem exists_ofComponent {c : Text} {p : Pattern} (hp : ofText c = .ok p)
    (hc : IsSimpleComponent c) :
    ∃ w, ofComponent c = .ok w ∧ (p.regex.HasOnly fun _ => False) ∧ ∀ t i j,
      Regex.Matches t w.regex i j ↔ ∃ k l, Regex.Matches t .componentStart i k ∧
        Regex.Matches t p.regex k l ∧ Regex.Matches t .componentEnd l j := by
  obtain ⟨ls, hls, honly, hbar⟩ := hc
  obtain ⟨ls', gs, hls', hgs, houter, rfl⟩ := ofText_eq_ok.1 hp
  cases hls.symm.trans hls'
  have hgroups : gs.HasOnly fun _ => False := .addAll .empty honly hgs
  -- the boundary in front is a piece before all those of the component
  have hfront : Groups.Prepended [⟨.componentStart, .plain⟩] {}
      ⟨({} : Group).push .plain .componentStart, []⟩ := .pattern rfl
  obtain ⟨gs', hgs', hpre⟩ := hfront.addAll hbar hgs
  obtain ⟨g, outer⟩ := gs
  cases houter
  cases hpre with
  | pattern hnone =>
  refine ⟨⟨wrapComponent c, (_ : Group).regex⟩, ofText_eq_ok.2 ⟨_, _, lexemes_wrapComponent hls,
    Groups.addAll_append_eq_ok.2 ⟨_, Groups.addAll_append_eq_ok.2 ⟨_, Groups.addAll_openLexemes,
      hgs'⟩, Groups.addAll_closeLexemes _⟩, rfl, rfl⟩, hgroups.inner.regex, fun t i j =>
    Regex.matches_between_iff hgroups.inner.plain hnone⟩

/-- What a simple component pattern finds are components that it matches. -/
theorem occursIn_component_iff {c path : Text} {p w : Pattern} (hp : ofText c = .ok p)
    (hc : IsSimpleComponent c) (hw : ofComponent c = .ok w) (hpath : path.getLast? ≠ some '\n') :
    w.occursIn path = true ↔ p.regex.MatchesComponents path := by
  obtain ⟨w', hw', honly, hmatches⟩ := exists_ofComponent hp hc
  cases hw.symm.trans hw'
  rw [occursIn, Regex.search_iff, Regex.Occurs]
  simp only [hmatches]
  constructor
  · rintro ⟨i, j, k, l, hstart, hm, hend⟩
    have hk := (Regex.exists_matches_componentStart_iff.1 ⟨i, hstart⟩).2
    obtain ⟨hl, hl'⟩ := (Regex.exists_matches_componentEnd_iff hpath).1 ⟨j, hend⟩
    exact ⟨k, l, hm.start_le, hl, hk, hl', (Regex.matches_slice_iff honly hm.start_le hl).2 hm⟩
  · rintro ⟨k, l, hkl, hl, hk, hl', hm⟩
    obtain ⟨i, hstart⟩ := Regex.exists_matches_componentStart_iff.2 ⟨Nat.le_trans hkl hl, hk⟩
    obtain ⟨j, hend⟩ := (Regex.exists_matches_componentEnd_iff hpath).2 ⟨hl, hl'⟩
    exact ⟨i, j, k, l, hstart, (Regex.matches_slice_iff honly hkl hl).1 hm, hend⟩

/-! ## Plain names -/

/-- The characters that do not stand for themselves in a pattern. -/
def metacharacters : Text :=
  "\\[()|.^$*+?\x7b".toList

/-- A text that stands for itself as a pattern and has no slash. -/
def IsPlainName (name : Text) : Prop :=
  ∀ c ∈ name, c ∉ metacharacters ∧ c ≠ '/'

instance (name : Text) : Decidable (IsPlainName name) :=
  List.decidableBAll (fun c => c ∉ metacharacters ∧ c ≠ '/') name

theorem stepGround_of_notMem {c : Char} (hc : c ∉ metacharacters) :
    LexState.stepGround c = (.ground, [.literal c]) := by
  unfold LexState.stepGround
  split <;> first | rfl | exact absurd (by decide) hc

theorem read_name {name : Text} (hname : ∀ c ∈ name, c ∉ metacharacters) :
    LexState.ground.read name = .ok (.ground, name.map .literal) := by
  induction name with
  | nil => rfl
  | cons c name ih =>
    obtain ⟨hc, hname⟩ := List.forall_mem_cons.1 hname
    exact LexState.read_cons_eq_ok.2 ⟨_, _, _, congrArg Except.ok (stepGround_of_notMem hc),
      ih hname, rfl⟩

/-- The group of a plain name: a piece for each character. -/
def nameGroup (g : Group) (name : Text) : Group :=
  name.foldl (fun g c => g.push .plain (.chars (.single c))) g

theorem nameGroup_fields (g : Group) (name : Text) :
    (nameGroup g name).isAtomic = g.isAtomic ∧ (nameGroup g name).earlier = g.earlier := by
  induction name generalizing g with
  | nil => exact ⟨rfl, rfl⟩
  | cons c name ih => exact ih (g.push .plain (.chars (.single c)))

theorem addAll_name (gs : Groups) (name : Text) :
    gs.addAll (name.map .literal) = .ok { gs with inner := nameGroup gs.inner name } := by
  induction name generalizing gs with
  | nil => rfl
  | cons c name ih => exact Groups.addAll_cons_eq_ok.2 ⟨_, rfl, ih _⟩

theorem matches_nameGroup_iff {t name : Text} {g : Group} {i j : Nat} :
    Regex.Matches t (nameGroup g name).sequence i j ↔
      ∃ k, Regex.Matches t g.sequence i k ∧ name <+: t.drop k ∧ j = k + name.length := by
  induction name generalizing g with
  | nil =>
    constructor
    · intro h
      exact ⟨j, h, List.nil_prefix, rfl⟩
    · rintro ⟨k, h, -, rfl⟩
      exact h
  | cons c name ih =>
    rw [nameGroup, List.foldl_cons, ← nameGroup, ih]
    simp only [Regex.matches_push_iff, Regex.matches_chars_iff]
    constructor
    · rintro ⟨_, ⟨k, h, ⟨d, hd, hs⟩, rfl⟩, hname, rfl⟩
      rw [CharSet.contains_single, beq_iff_eq] at hs
      subst hs
      refine ⟨k, h, ?_, by rw [List.length_cons]; omega⟩
      obtain ⟨hk, rfl⟩ := List.getElem?_eq_some_iff.1 hd
      rw [List.drop_eq_getElem_cons hk]
      exact List.cons_prefix_cons.2 ⟨rfl, hname⟩
    · rintro ⟨k, h, hname, rfl⟩
      have hk : k < t.length := by
        have := hname.length_le
        rw [List.length_cons, List.length_drop] at this
        omega
      rw [List.drop_eq_getElem_cons hk, List.cons_prefix_cons] at hname
      refine ⟨k + 1, ⟨k, h, ⟨c, ?_, by simp⟩, rfl⟩, hname.2, by rw [List.length_cons]; omega⟩
      rw [hname.1, List.getElem?_eq_getElem hk]

/-- A plain name is a simple component pattern, which matches that text alone. -/
theorem exists_ofText_name {name : Text} (hname : ∀ c ∈ name, c ∉ metacharacters) :
    IsSimpleComponent name ∧ ∃ p, ofText name = .ok p ∧
      ∀ t, Regex.Matches t p.regex 0 t.length ↔ t = name := by
  have hls : lexemes name = .ok (name.map .literal) :=
    lexemes_eq_ok.2 ⟨_, _, [], read_name hname, rfl, by rw [List.append_nil]⟩
  have hbar : hasOuterBar 0 (name.map .literal) = false := by
    clear hls hname
    induction name with
    | nil => rfl
    | cons c name ih => exact ih
  refine ⟨⟨_, hls, fun l hl => ?_, hbar⟩, _, ofText_eq_ok.2 ⟨_, _, hls, addAll_name {} name, rfl,
    rfl⟩, fun t => ?_⟩
  · obtain ⟨c, -, rfl⟩ := List.mem_map.1 hl
    exact trivial
  · obtain ⟨hplain, hnone⟩ := nameGroup_fields {} name
    rw [Group.regex_eq_sequence hplain hnone, matches_nameGroup_iff]
    constructor
    · rintro ⟨k, hk, hstarts, hlen⟩
      obtain ⟨-, rfl⟩ := Regex.matches_empty_iff.1 hk
      rw [List.drop_zero] at hstarts
      exact (hstarts.eq_of_length (by omega)).symm
    · rintro rfl
      exact ⟨0, .empty (Nat.zero_le _), List.prefix_rfl, (Nat.zero_add _).symm⟩

end Pattern

theorem Node.isHidden_singleton {n : Node} {w : Pattern} :
    n.isHidden [w] = w.occursIn n.fullPath := by
  rw [isHidden, List.any_cons, List.any_nil, Bool.or_false]

namespace Session

/-- After every run, a component pattern without conditions and outer bars hides the calls that it
matches some components of the path of. A plain name hides the calls that are of a rule of that name
or have a caller of one, as long as no rule has a slash in it; the root has an empty rule. -/
theorem component_pattern_run (calls : List TreeCall) :
    let t := (run calls).tree
    (∀ c p, Pattern.ofText c = .ok p → Pattern.IsSimpleComponent c →
      ∃ w, (PathFilter.component c).pattern = .ok w ∧
        ∀ i < t.nodes.length, i ≠ 0 → (t.node i).rule.getLast? ≠ some '\n' →
          ((t.node i).isHidden [w] = true ↔
            p.regex.MatchesComponents (t.node i).fullPath)) ∧
    ∀ name, Pattern.IsPlainName name →
      ∃ w, (PathFilter.component name).pattern = .ok w ∧
        ∀ i < t.nodes.length, i ≠ 0 → (t.node i).rule.getLast? ≠ some '\n' →
          (∀ a ∈ t.chain i, '/' ∉ (t.node a).rule) →
            ((t.node i).isHidden [w] = true ↔
              ∃ a ∈ 0 :: t.chain i, (t.node a).rule = name) := by
  intro t
  have h : t.WellFormed := (run_inv calls).1.toWellFormed
  refine ⟨fun c p hp hc => ?_, fun name hname => ?_⟩
  · obtain ⟨w, hw, -⟩ := Pattern.exists_ofComponent hp hc
    refine ⟨w, hw, fun i hi h0 hrule => ?_⟩
    rw [Node.isHidden_singleton]
    exact Pattern.occursIn_component_iff hp hc hw (h.getLast?_fullPath hi h0 hrule)
  · obtain ⟨hsimple, p, hp, hm⟩ := Pattern.exists_ofText_name fun c hc => (hname c hc).1
    obtain ⟨w, hw, -⟩ := Pattern.exists_ofComponent hp hsimple
    refine ⟨w, hw, fun i hi h0 hrule hslash => ?_⟩
    rw [Node.isHidden_singleton,
      Pattern.occursIn_component_iff hp hsimple hw (h.getLast?_fullPath hi h0 hrule),
      Regex.matchesComponents_iff]
    simp only [hm, exists_eq_left]
    exact h.isComponent_fullPath_iff hi hslash fun hs => (hname _ hs).2 rfl

/-- A call of `a` and one of `b` by it. -/
def callWithin : List TreeCall :=
  [.enter ['a'] .origin, .enter ['b'] .origin]

/-- The call by `a` is hidden by `b+`, which matches the last component of its path, and by the name
of `a`. -/
theorem component_pattern_run_callWithin :
    let t := (run callWithin).tree
    (∃ w, (PathFilter.component ['b', '+']).pattern = .ok w ∧
      (t.node 2).isHidden [w] = true) ∧
    ∃ w, (PathFilter.component ['a']).pattern = .ok w ∧
      (t.node 2).isHidden [w] = true := by
  intro t
  obtain ⟨hsimple, hname⟩ := component_pattern_run callWithin
  constructor
  · have hp : Pattern.ofText ['b', '+'] = .ok
        ⟨['b', '+'], .seq (.times (.chars (.single 'b')) 1 none false) .empty⟩ := rfl
    obtain ⟨w, hw, hhidden⟩ := hsimple ['b', '+'] _ hp
      ⟨[.literal 'b', .times 1 none .eager], rfl, by simp [Lexeme.HasOnly, Lexeme.literal], rfl⟩
    refine ⟨w, hw, (hhidden 2 (by decide) (by decide) (by decide)).2 ?_⟩
    refine ⟨3, 4, by decide, by decide, .inr rfl, .inl rfl, ?_⟩
    exact .seq (.due (.chars rfl rfl) (.done (by decide))) (.empty (by decide))
  · have hchain : t.chain 2 = [2, 1] := by
      rw [CallTree.chain_of_lt (by decide), show t.caller 2 = 1 by decide,
        CallTree.chain_of_lt (by decide), show t.caller 1 = 0 by decide, CallTree.chain_zero]
    obtain ⟨w, hw, hhidden⟩ := hname ['a'] (by decide)
    have hiff := hhidden 2 (by decide) (by decide) (by decide)
    rw [hchain] at hiff
    exact ⟨w, hw, (hiff (by decide)).2 (by decide)⟩

/-- Patterns that look at what is around a component. `\B` alone hides the call of `a`, though it
matches no component: that it holds in front of the path depends on the slash. With `a/?+` the call
of `b` by `a` is not hidden, though the pattern matches the component `a`: in the path it takes the
slash and never gives it back. -/
theorem component_pattern_run_surroundings :
    let t := (run callWithin).tree
    (∃ p w, Pattern.ofText ['\\', 'B'] = .ok p ∧ lexemes ['\\', 'B'] = .ok [.anchor .nonBoundary] ∧
      (PathFilter.component ['\\', 'B']).pattern = .ok w ∧ (t.node 1).isHidden [w] = true ∧
      ¬p.regex.MatchesComponents (t.node 1).fullPath) ∧
    ∃ p w, Pattern.ofText ['a', '/', '?', '+'] = .ok p ∧
      lexemes ['a', '/', '?', '+'] =
        .ok [.literal 'a', .literal '/', .times 0 (some 1) .possessive] ∧
      (PathFilter.component ['a', '/', '?', '+']).pattern = .ok w ∧
      (t.node 2).isHidden [w] = false ∧ p.regex.MatchesComponents (t.node 2).fullPath := by
  intro t
  refine ⟨⟨_, _, rfl, rfl, rfl, by decide +kernel, ?_⟩, _, _, rfl, rfl, rfl, by decide +kernel, ?_⟩
  · rintro ⟨i, j, hij, hj, -, -, hm⟩
    -- a condition leads nowhere else, so the part is empty, and there it does not hold
    obtain ⟨k, hk, hnil⟩ := Regex.matches_seq_iff.1 hm
    obtain ⟨-, hend⟩ := Regex.matches_empty_iff.1 hnil
    generalize hsize : j - i = size at hk hnil hend
    cases hk with
    | anchor _ hholds =>
      have hempty : ((t.node 1).fullPath.take j).drop i = [] :=
        List.drop_eq_nil_of_le (by rw [List.length_take]; omega)
      rw [hempty] at hholds
      cases hholds
  · refine ⟨1, 2, by decide, by decide, .inr rfl, .inr rfl, ?_⟩
    have hslash : Regex.Matches ['a'] (.atomic (.times (.atomic (.chars (.single '/'))) 0 (some 1)
        false)) 1 1 := .atomic (by decide) rfl (.done (by decide))
    exact .seq (.chars rfl rfl) (.seq hslash (.empty (by decide)))

end Session

end RuleTrace
