import RuleTrace.Proofs.Pattern.Component

/-!
# Alternatives in a component pattern

A bar outside of groups splits a component pattern together with the boundaries around it: the one
in front belongs to the first alternative and the one after to the last. So names with bars between
them are found in the middle of components, unless they are put in a group.

* `Regex.matches_namesGroup_iff`: what a group of names between bars matches.
* `Pattern.exists_ofComponent_names`: which paths such names are found in.
* `Session.alternatives_run`: which calls they hide, with and without a group around them.
-/

namespace RuleTrace

theorem mem_intercalate {α : Type} {sep : List α} {parts : List (List α)} {a : α}
    (h : a ∈ sep.intercalate parts) : a ∈ sep ∨ ∃ part ∈ parts, a ∈ part := by
  match parts with
  | [] => cases h
  | [part] => exact .inr ⟨part, List.mem_cons_self, by rwa [List.intercalate_singleton] at h⟩
  | part :: next :: parts =>
    rw [List.intercalate_cons_cons, List.mem_append, List.mem_append] at h
    rcases h with (h | h) | h
    · exact .inr ⟨part, List.mem_cons_self, h⟩
    · exact .inl h
    · exact (mem_intercalate h).imp_right fun ⟨p, hp, ha⟩ => ⟨p, List.mem_cons_of_mem _ hp, ha⟩

theorem exists_getElem?_cons {α : Type} {P : Nat → α → Prop} {a : α} {l : List α} :
    (∃ n x, (a :: l)[n]? = some x ∧ P n x) ↔ P 0 a ∨ ∃ n x, l[n]? = some x ∧ P (n + 1) x := by
  constructor
  · rintro ⟨n, x, hx, h⟩
    cases n with
    | zero =>
      cases hx
      exact .inl h
    | succ n => exact .inr ⟨n, x, hx, h⟩
  · rintro (h | ⟨n, x, hx, h⟩)
    · exact ⟨0, a, rfl, h⟩
    · exact ⟨n + 1, x, hx, h⟩

namespace Pattern

/-! ## Names between bars -/

/-- The lexemes of names with bars between them. -/
def nameLexemes (names : List Text) : List Lexeme :=
  [.bar].intercalate (names.map (·.map .literal))

theorem nameLexemes_cons_cons (name next : Text) (names : List Text) :
    nameLexemes (name :: next :: names) =
      name.map .literal ++ [.bar] ++ nameLexemes (next :: names) := by
  rw [nameLexemes, List.map_cons, List.map_cons, List.intercalate_cons_cons]
  rfl

theorem read_names {names : List Text} (hnames : ∀ name ∈ names, ∀ c ∈ name, c ∉ metacharacters) :
    LexState.ground.read (['|'].intercalate names) = .ok (.ground, nameLexemes names) := by
  match names with
  | [] => rfl
  | [name] =>
    rw [nameLexemes, List.map_singleton, List.intercalate_singleton, List.intercalate_singleton]
    exact read_name (hnames name List.mem_cons_self)
  | name :: next :: names =>
    obtain ⟨hname, hnames⟩ := List.forall_mem_cons.1 hnames
    rw [List.intercalate_cons_cons, nameLexemes_cons_cons]
    exact LexState.read_append_eq_ok.2 ⟨_, _, _,
      LexState.read_append_eq_ok.2 ⟨_, _, _, read_name hname, rfl, rfl⟩, read_names hnames, rfl⟩

theorem mem_nameLexemes {names : List Text} {l : Lexeme} (h : l ∈ nameLexemes names) :
    l = .bar ∨ ∃ c, l = .literal c := by
  rcases mem_intercalate h with h | ⟨part, hpart, h⟩
  · exact .inl (List.mem_singleton.1 h)
  · obtain ⟨name, -, rfl⟩ := List.mem_map.1 hpart
    obtain ⟨c, -, rfl⟩ := List.mem_map.1 h
    exact .inr ⟨c, rfl⟩

/-- The group of names with bars between them. -/
def namesGroup (g : Group) : List Text → Group
  | [] => g
  | [name] => nameGroup g name
  | name :: names => namesGroup (nameGroup g name).split names

theorem namesGroup_isAtomic (g : Group) (names : List Text) :
    (namesGroup g names).isAtomic = g.isAtomic := by
  match names with
  | [] => rfl
  | [name] => exact (nameGroup_fields g name).1
  | name :: next :: names =>
    exact (namesGroup_isAtomic _ (next :: names)).trans (nameGroup_fields g name).1

theorem addAll_names (gs : Groups) (names : List Text) :
    gs.addAll (nameLexemes names) = .ok { gs with inner := namesGroup gs.inner names } := by
  match names with
  | [] => rfl
  | [name] =>
    rw [nameLexemes, List.map_singleton, List.intercalate_singleton]
    exact addAll_name gs name
  | name :: next :: names =>
    rw [nameLexemes_cons_cons]
    exact Groups.addAll_append_eq_ok.2 ⟨_,
      Groups.addAll_append_eq_ok.2 ⟨_, addAll_name gs name, rfl⟩, addAll_names _ (next :: names)⟩

end Pattern

namespace Regex

open Pattern

variable {t : Text} {i j : Nat}

theorem matches_alternatives_iff {g : Group} :
    Matches t g.alternatives i j ↔
      (∃ r ∈ g.earlier, Matches t r i j) ∨ Matches t g.sequence i j := by
  rw [Group.alternatives]
  cases g.earlier with
  | none => simp
  | some r => simp [matches_alt_iff]

theorem matches_push_empty_iff {g : Group} :
    Matches t (g.push .plain .empty).alternatives i j ↔ Matches t g.alternatives i j := by
  rw [matches_alternatives_iff, matches_alternatives_iff, matches_push_iff]
  refine or_congr_right ⟨?_, fun h => ⟨j, h, .empty h.le.2⟩⟩
  rintro ⟨k, hk, hempty⟩
  obtain ⟨-, rfl⟩ := matches_empty_iff.1 hempty
  exact hk

/-- A name is matched between what is in front of it and what comes after it. -/
theorem matches_nameGroup_append_iff {g : Group} {name : Text} :
    Matches t (nameGroup g name).sequence i j ↔ ∃ before after, t = before ++ name ++ after ∧
      Matches t g.sequence i before.length ∧ j = (before ++ name).length := by
  rw [matches_nameGroup_iff]
  constructor
  · rintro ⟨k, hk, ⟨after, hafter⟩, rfl⟩
    have hlen : (t.take k).length = k := List.length_take_of_le hk.le.2
    refine ⟨t.take k, after, ?_, hlen.symm ▸ hk, by rw [List.length_append, hlen]⟩
    rw [List.append_assoc, hafter, List.take_append_drop]
  · rintro ⟨before, after, rfl, hm, rfl⟩
    refine ⟨before.length, hm, ⟨after, ?_⟩, List.length_append⟩
    rw [List.append_assoc, List.drop_left]

/-- What a group of names matches, with an expression after it. What stands in front belongs to the
first name only, and what comes after to the last. -/
theorem matches_namesGroup_iff {g : Group} {names : List Text} (hne : names ≠ []) {s : Regex} :
    Matches t ((namesGroup g names).push .plain s).alternatives i j ↔
      (∃ r ∈ g.earlier, Matches t r i j) ∨
        ∃ n name, names[n]? = some name ∧ ∃ before after, t = before ++ name ++ after ∧
          Matches t (if n = 0 then g.sequence else .empty) i before.length ∧
          Matches t (if n + 1 = names.length then s else .empty) (before ++ name).length j := by
  induction names generalizing g with
  | nil => exact absurd rfl hne
  | cons name names ih =>
    have hearlier := (nameGroup_fields g name).2
    cases names with
    | nil =>
      have hpush : ((nameGroup g name).push .plain s).earlier = g.earlier := hearlier
      rw [namesGroup, matches_alternatives_iff, hpush, matches_push_iff, exists_getElem?_cons]
      simp only [matches_nameGroup_append_iff, List.getElem?_nil]
      constructor
      · rintro (h | ⟨_, ⟨before, after, ht, hm, rfl⟩, hs⟩)
        · exact .inl h
        · exact .inr (.inl ⟨before, after, ht, hm, hs⟩)
      · rintro (h | ⟨before, after, ht, hm, hs⟩ | ⟨n, name, h, -⟩)
        · exact .inl h
        · exact .inr ⟨_, ⟨before, after, ht, hm, rfl⟩, hs⟩
        · cases h
    | cons next names =>
      -- what stands in front and the first name are an alternative before those of the rest
      have hrest := ih (g := (nameGroup g name).split) (List.cons_ne_nil next names)
      have hsplit : (∃ r ∈ (nameGroup g name).split.earlier, Matches t r i j) ↔
          (∃ r ∈ g.earlier, Matches t r i j) ∨ Matches t (nameGroup g name).sequence i j := by
        rw [← hearlier, ← matches_alternatives_iff]
        simp [Group.split]
      have hempty : (nameGroup g name).split.sequence = .empty := rfl
      rw [namesGroup, hrest, hsplit, exists_getElem?_cons (a := name), hempty, or_assoc]
      · refine or_congr_right (or_congr ?_ ?_)
        · have hlast : 0 + 1 ≠ (name :: next :: names).length := by simp
          simp only [matches_nameGroup_append_iff, if_true, if_neg hlast, matches_empty_iff]
          constructor
          · rintro ⟨before, after, rfl, hm, rfl⟩
            exact ⟨before, after, rfl, hm, by simp, rfl⟩
          · rintro ⟨before, after, ht, hm, -, rfl⟩
            exact ⟨before, after, ht, hm, rfl⟩
        · simp
      · nofun

/-- A group of names alone matches each of them. -/
theorem matches_names_iff {names : List Text} (hne : names ≠ []) :
    Matches t (namesGroup {} names).alternatives i j ↔ ∃ name ∈ names, ∃ before after,
      t = before ++ name ++ after ∧ i = before.length ∧ j = (before ++ name).length := by
  rw [← matches_push_empty_iff, matches_namesGroup_iff hne, or_iff_right nofun]
  have hempty : ({} : Group).sequence = .empty := rfl
  simp only [hempty, ite_self, matches_empty_iff]
  constructor
  · rintro ⟨n, name, hn, before, after, rfl, ⟨-, rfl⟩, -, rfl⟩
    exact ⟨name, List.mem_of_getElem? hn, before, after, rfl, rfl, rfl⟩
  · rintro ⟨name, hname, before, after, rfl, rfl, rfl⟩
    obtain ⟨n, hn⟩ := List.mem_iff_getElem?.1 hname
    exact ⟨n, name, hn, before, after, rfl, ⟨by simp, rfl⟩, by simp, rfl⟩

/-- The boundary in front of an alternative, where it has one. -/
theorem exists_matches_start_iff (rest : Text) {before : Text} {p : Prop} [Decidable p] :
    (∃ i, Matches (before ++ rest) (if p then .seq .componentStart .empty else .empty) i
      before.length) ↔ (p → before = [] ∨ before.getLast? = some '/') := by
  split
  · next h =>
    simp only [matches_seq_empty_iff]
    rw [exists_matches_componentStart_iff, ← eq_nil_or_getLast?_iff]
    simp [h]
  · next h => exact ⟨fun _ hp => absurd hp h, fun _ => ⟨_, .empty (by simp)⟩⟩

/-- The boundary after an alternative, where it has one. -/
theorem exists_matches_end_iff {before after : Text} {p : Prop} [Decidable p]
    (ht : (before ++ after).getLast? ≠ some '\n') :
    (∃ j, Matches (before ++ after) (if p then .componentEnd else .empty) before.length j) ↔
      (p → after = [] ∨ after.head? = some '/') := by
  split
  · next h =>
    rw [exists_matches_componentEnd_iff ht, ← eq_nil_or_head?_iff]
    simp [h]
  · next h => exact ⟨fun _ hp => absurd hp h, fun _ => ⟨_, .empty (by simp)⟩⟩

end Regex

namespace Pattern

/-- Names with bars between them are found in a path where the first is at the start of a component
and the last at the end of one, and the others are anywhere. -/
theorem exists_ofComponent_names {names : List Text}
    (hnames : ∀ name ∈ names, ∀ c ∈ name, c ∉ metacharacters) (hne : names ≠ []) :
    ∃ w, ofComponent (['|'].intercalate names) = .ok w ∧ ∀ path, path.getLast? ≠ some '\n' →
      (w.occursIn path = true ↔
        ∃ n name, names[n]? = some name ∧ LiesInPath path name (n = 0) (n + 1 = names.length)) := by
  have hls : lexemes (['|'].intercalate names) = .ok (nameLexemes names) :=
    lexemes_eq_ok.2 ⟨_, _, [], read_names hnames, rfl, by rw [List.append_nil]⟩
  refine ⟨_, ofText_eq_ok.2 ⟨_, _, lexemes_wrapComponent hls, Groups.addAll_append_eq_ok.2
    ⟨_, Groups.addAll_append_eq_ok.2 ⟨_, Groups.addAll_openLexemes, addAll_names _ names⟩,
      Groups.addAll_closeLexemes _⟩, rfl, rfl⟩, fun path hpath => ?_⟩
  have hplain : ((namesGroup (({} : Group).push .plain .componentStart) names).push .plain
      .componentEnd).isAtomic = false := namesGroup_isAtomic _ names
  have hmatches (i j : Nat) : Regex.Matches path
      ((namesGroup (({} : Group).push .plain .componentStart) names).push .plain
        .componentEnd).alternatives i j ↔
      ∃ n name, names[n]? = some name ∧ ∃ before after, path = before ++ name ++ after ∧
        Regex.Matches path (if n = 0 then .seq .componentStart .empty else .empty) i before.length ∧
        Regex.Matches path (if n + 1 = names.length then .componentEnd else .empty)
          (before ++ name).length j :=
    (Regex.matches_namesGroup_iff hne).trans (or_iff_right nofun)
  rw [occursIn, Regex.search_iff, Regex.Occurs]
  simp only [Group.regex_eq_alternatives hplain, hmatches]
  constructor
  · rintro ⟨i, j, n, name, hn, before, after, rfl, hstart, hend⟩
    refine ⟨n, name, hn, before, after, rfl, ?_, (Regex.exists_matches_end_iff hpath).1 ⟨j, hend⟩⟩
    rw [List.append_assoc] at hstart
    exact (Regex.exists_matches_start_iff _).1 ⟨i, hstart⟩
  · rintro ⟨n, name, hn, before, after, rfl, hbefore, hafter⟩
    obtain ⟨i, hstart⟩ := (Regex.exists_matches_start_iff (name ++ after)).2 hbefore
    obtain ⟨j, hend⟩ := (Regex.exists_matches_end_iff hpath).2 hafter
    rw [← List.append_assoc] at hstart
    exact ⟨i, j, n, name, hn, before, after, rfl, hstart, hend⟩

/-! ## Names in a group -/

theorem read_opened {t : Text} {last : LexState} {ls : List Lexeme} (hne : t ≠ [])
    (hquestion : '?' ∉ t) (h : LexState.ground.read t = .ok (last, ls)) :
    LexState.opened.read t = .ok (last, .opening false :: ls) := by
  cases t with
  | nil => exact absurd rfl hne
  | cons c t =>
    obtain ⟨next, l, m, hc, ht, rfl⟩ := LexState.read_cons_eq_ok.1 h
    have hc' : LexState.opened.step c = .ok (next, .opening false :: l) := by
      have hc0 : c ≠ '?' := fun e => hquestion (e ▸ List.mem_cons_self)
      have hground : LexState.stepGround c = (next, l) := Except.ok.inj hc
      rw [LexState.step, if_neg hc0, LexState.stepAfter, hground]
      rfl
    exact LexState.read_cons_eq_ok.2 ⟨next, _, m, hc', ht, rfl⟩

/-- A bar in a group is not outside of it. -/
theorem hasOuterBar_names {depth : Nat} {ls more : List Lexeme}
    (h : ∀ l ∈ ls, l = .bar ∨ ∃ c, l = .literal c) :
    hasOuterBar (depth + 1) (ls ++ more) = hasOuterBar (depth + 1) more := by
  induction ls with
  | nil => rfl
  | cons l ls ih =>
    obtain ⟨hl, hls⟩ := List.forall_mem_cons.1 h
    rcases hl with rfl | ⟨c, rfl⟩ <;> exact ih hls

/-- Names in a group are a simple component pattern, which matches each of them and nothing else. -/
theorem exists_ofText_namesInGroup {names : List Text}
    (hnames : ∀ name ∈ names, ∀ c ∈ name, c ∉ metacharacters) (hne : names ≠ []) :
    let c := '(' :: (['|'].intercalate names ++ [')'])
    IsSimpleComponent c ∧ ∃ p, ofText c = .ok p ∧
      ∀ t, Regex.Matches t p.regex 0 t.length ↔ t ∈ names := by
  intro c
  have hread : LexState.ground.read c =
      .ok (.ground, .opening false :: (nameLexemes names ++ [.closing])) := by
    refine LexState.read_cons_eq_ok.2 ⟨.opened, [], _, rfl, read_opened (by simp) ?_ ?_, rfl⟩
    · rw [List.mem_append, not_or]
      refine ⟨fun h => ?_, by decide⟩
      rcases mem_intercalate h with h | ⟨name, hname, h⟩
      · exact absurd h (by decide)
      · exact hnames name hname _ h (by decide)
    · exact LexState.read_append_eq_ok.2 ⟨_, _, _, read_names hnames, rfl, rfl⟩
  have hls : lexemes c = .ok (.opening false :: (nameLexemes names ++ [.closing])) :=
    lexemes_eq_ok.2 ⟨_, _, [], hread, rfl, by rw [List.append_nil]⟩
  have hgroups : Groups.addAll {} (.opening false :: (nameLexemes names ++ [.closing])) =
      .ok ⟨({} : Group).push .plain (namesGroup {} names).regex, []⟩ :=
    Groups.addAll_cons_eq_ok.2 ⟨⟨{}, [{}]⟩, rfl,
      Groups.addAll_append_eq_ok.2 ⟨_, addAll_names _ names, rfl⟩⟩
  refine ⟨⟨_, hls, ?_, ?_⟩, _, ofText_eq_ok.2 ⟨_, _, hls, hgroups, rfl, rfl⟩, fun t => ?_⟩
  · intro l hl
    rw [List.mem_cons, List.mem_append, List.mem_singleton] at hl
    rcases hl with rfl | hl | rfl
    · exact rfl
    · rcases mem_nameLexemes hl with rfl | ⟨c, rfl⟩ <;> exact trivial
    · exact trivial
  · rw [hasOuterBar, hasOuterBar_names fun l => mem_nameLexemes]
    rfl
  · have hregex : ((({} : Group).push .plain (namesGroup {} names).regex).regex) =
        .seq (namesGroup {} names).regex .empty := rfl
    rw [hregex, Regex.matches_seq_empty_iff,
      Group.regex_eq_alternatives (namesGroup_isAtomic {} names), Regex.matches_names_iff hne]
    constructor
    · rintro ⟨name, hname, before, after, rfl, hbefore, hafter⟩
      obtain rfl : before = [] := List.eq_nil_of_length_eq_zero hbefore.symm
      obtain rfl : after = [] := by simpa using hafter
      simpa using hname
    · intro ht
      exact ⟨t, ht, [], [], by simp, rfl, rfl⟩

end Pattern

namespace Session

/-- After every run, plain names with bars between them hide the calls that have one of the names in
their rule or in that of a caller: the first name at its start, the last name at its end and any
other anywhere. In a group, the names hide the calls that are of a rule of one of the names or have
a caller of one. All this is as long as no rule has a slash in it and that of the call does not end
with a newline; the root has an empty rule. -/
theorem alternatives_run (calls : List TreeCall) (names : List Text)
    (hnames : ∀ name ∈ names, Pattern.IsPlainName name) (hne : names ≠ []) :
    let t := (run calls).tree
    ∃ w grouped, (PathFilter.component (['|'].intercalate names)).pattern = .ok w ∧
      (PathFilter.component ('(' :: (['|'].intercalate names ++ [')']))).pattern = .ok grouped ∧
      ∀ i < t.nodes.length, i ≠ 0 → (t.node i).rule.getLast? ≠ some '\n' →
        (∀ a ∈ t.chain i, '/' ∉ (t.node a).rule) →
          ((t.node i).isHidden [w] = true ↔ ∃ n name, names[n]? = some name ∧
            ∃ a ∈ 0 :: t.chain i, LiesIn (t.node a).rule name (n = 0) (n + 1 = names.length)) ∧
          ((t.node i).isHidden [grouped] = true ↔
            ∃ a ∈ 0 :: t.chain i, (t.node a).rule ∈ names) := by
  intro t
  have h : t.WellFormed := (run_inv calls).1.toWellFormed
  have hliteral : ∀ name ∈ names, ∀ c ∈ name, c ∉ Pattern.metacharacters :=
    fun name hname c hc => (hnames name hname c hc).1
  have hslash : ∀ name ∈ names, '/' ∉ name := fun name hname hs => (hnames name hname _ hs).2 rfl
  obtain ⟨w, hw, hfound⟩ := Pattern.exists_ofComponent_names hliteral hne
  obtain ⟨hsimple, p, hp, hm⟩ := Pattern.exists_ofText_namesInGroup hliteral hne
  obtain ⟨grouped, hgrouped, -⟩ := Pattern.exists_ofComponent hp hsimple
  refine ⟨w, grouped, hw, hgrouped, fun i hi h0 hrule hrules => ⟨?_, ?_⟩⟩
  · rw [Node.isHidden_singleton, hfound _ (h.getLast?_fullPath hi h0 hrule)]
    exact exists_congr fun n => exists_congr fun name => and_congr_right fun hn =>
      h.liesInPath_fullPath_iff hi hrules (hslash name (List.mem_of_getElem? hn))
  · rw [Node.isHidden_singleton, Pattern.occursIn_component_iff hp hsimple hgrouped
      (h.getLast?_fullPath hi h0 hrule), Regex.matchesComponents_iff]
    simp only [hm]
    constructor
    · rintro ⟨name, hname, hcomponent⟩
      obtain ⟨a, ha, rfl⟩ := (h.isComponent_fullPath_iff hi hrules (hslash name hname)).1 hcomponent
      exact ⟨a, ha, hname⟩
    · rintro ⟨a, ha, hname⟩
      exact ⟨_, hname, (h.isComponent_fullPath_iff hi hrules (hslash _ hname)).2 ⟨a, ha, rfl⟩⟩

/-- A call of `xby`. -/
def oneCall : List TreeCall :=
  [.enter "xby".toList .origin]

/-- The call of `xby` is hidden by `a|b|c`, whose second name lies in its rule, but not by
`(a|b|c)`. -/
theorem alternatives_run_oneCall :
    let t := (run oneCall).tree
    ∃ w grouped, (PathFilter.component "a|b|c".toList).pattern = .ok w ∧
      (PathFilter.component "(a|b|c)".toList).pattern = .ok grouped ∧
      (t.node 1).isHidden [w] = true ∧ (t.node 1).isHidden [grouped] = false := by
  intro t
  obtain ⟨w, grouped, hw, hgrouped, hhidden⟩ :=
    alternatives_run oneCall [['a'], ['b'], ['c']] (by decide) (by decide)
  have hchain : t.chain 1 = [1] := by
    rw [CallTree.chain_of_lt (by decide), show t.caller 1 = 0 by decide, CallTree.chain_zero]
  obtain ⟨hopen, hclosed⟩ := hhidden 1 (by decide) (by decide) (by decide) (by
    rw [hchain]
    decide)
  rw [hchain] at hopen hclosed
  refine ⟨w, grouped, hw, hgrouped, hopen.2 ⟨1, ['b'], rfl, 1, by decide, ?_⟩, ?_⟩
  · exact ⟨['x'], ['y'], by decide, nofun, nofun⟩
  · rw [← Bool.not_eq_true, hclosed]
    decide

/-- A call of `ab` is hidden by `a|b`, though neither it nor the root is of a rule `a` or `b`. -/
theorem alternatives_run_partOfRule :
    let t := (run [.enter "ab".toList .origin]).tree
    ∃ w, (PathFilter.component "a|b".toList).pattern = .ok w ∧ (t.node 1).isHidden [w] = true ∧
      ∀ a ∈ 0 :: t.chain 1, (t.node a).rule ∉ ["a".toList, "b".toList] := by
  intro t
  have hchain : t.chain 1 = [1] := by
    rw [CallTree.chain_of_lt (by decide), show t.caller 1 = 0 by decide, CallTree.chain_zero]
  refine ⟨_, rfl, by decide +kernel, ?_⟩
  rw [hchain]
  decide

end Session

end RuleTrace
