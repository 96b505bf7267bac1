import RuleTrace.Proofs.Call.Descendants

/-!
# Paths of calls

The path of a call spells the rules of its callers and its own, a slash before each.

* `WellFormed.fullPath_eq`: the path of a call from the rules of the calls up to the root.
* `WellFormed.fullPath_of_mem_ancestors`: a path goes on from that of a caller with a slash.
* `liesInPath_iff`: a text without slashes lies in a rule of such a path.
* `WellFormed.isComponent_fullPath_iff`: the components of the path of a call are the rules.
-/

namespace RuleTrace

/-- A text between slashes or the ends of a path. -/
def IsComponent (path name : Text) : Prop :=
  ∃ before after, path = before ++ name ++ after ∧
    (before = [] ∨ before.getLast? = some '/') ∧ (after = [] ∨ after.head? = some '/')

/-- A text that lies in a rule, at its start and at its end where that is asked for. -/
def LiesIn (rule name : Text) (atStart atEnd : Prop) : Prop :=
  ∃ before after, rule = before ++ name ++ after ∧
    (atStart → before = []) ∧ (atEnd → after = [])

/-- A text that lies in a path, where a component starts and where one ends if that is asked for. -/
def LiesInPath (path name : Text) (atStart atEnd : Prop) : Prop :=
  ∃ before after, path = before ++ name ++ after ∧
    (atStart → before = [] ∨ before.getLast? = some '/') ∧
    (atEnd → after = [] ∨ after.head? = some '/')

/-- A slash in a path comes after or before a text without slashes. -/
theorem append_slash_cases {first rest before name after : Text} (hname : '/' ∉ name)
    (h : first ++ '/' :: rest = before ++ name ++ after) :
    (∃ more, first = before ++ name ++ more ∧ after = more ++ '/' :: rest) ∨
      ∃ more, before = first ++ '/' :: more ∧ rest = more ++ name ++ after := by
  rcases List.append_eq_append_iff.1 h with ⟨m, hm, hrest⟩ | ⟨m, hm, hrest⟩
  · cases m with
    | nil => exact .inl ⟨[], by rw [hm, List.append_nil, List.append_nil], hrest.symm⟩
    | cons c m =>
      obtain ⟨rfl, rfl⟩ := List.cons.inj hrest
      -- the slash is no part of the text, so it comes before
      rcases List.append_eq_append_iff.1 hm with ⟨k, -, rfl⟩ | ⟨k, rfl, hk⟩
      · exact absurd (List.mem_append_right k List.mem_cons_self) hname
      · cases k with
        | nil => exact absurd (List.nil_append name ▸ hk ▸ List.mem_cons_self) hname
        | cons d k =>
          obtain ⟨rfl, rfl⟩ := List.cons.inj hk
          exact .inr ⟨k, rfl, rfl⟩
  · exact .inl ⟨m, hm, hrest⟩

/-- Without slashes in them, a text lies in a path just if it lies in one of the texts that the path
was put together from. -/
theorem liesInPath_iff {first name : Text} {rules : List Text} {atStart atEnd : Prop}
    (hfirst : '/' ∉ first) (hrules : ∀ r ∈ rules, '/' ∉ r) (hname : '/' ∉ name) :
    LiesInPath (first ++ rules.flatMap ('/' :: ·)) name atStart atEnd ↔
      ∃ r ∈ first :: rules, LiesIn r name atStart atEnd := by
  induction rules generalizing first with
  | nil =>
    rw [List.flatMap_nil, List.append_nil]
    simp only [List.mem_singleton, exists_eq_left]
    constructor
    · rintro ⟨before, after, rfl, hbefore, hafter⟩
      simp only [List.mem_append, not_or] at hfirst
      exact ⟨before, after, rfl,
        fun h => (hbefore h).resolve_right fun hb => hfirst.1.1 (List.mem_of_getLast? hb),
        fun h => (hafter h).resolve_right fun ha => hfirst.2 (List.mem_of_head? ha)⟩
    · rintro ⟨before, after, rfl, hbefore, hafter⟩
      exact ⟨before, after, rfl, fun h => .inl (hbefore h), fun h => .inl (hafter h)⟩
  | cons r rules ih =>
    obtain ⟨hr, hrules⟩ := List.forall_mem_cons.1 hrules
    rw [List.flatMap_cons, List.cons_append, List.exists_mem_cons_iff, ← ih hr hrules]
    constructor
    · rintro ⟨before, after, he, hbefore, hafter⟩
      rcases append_slash_cases hname he with ⟨more, rfl, rfl⟩ | ⟨more, rfl, hrest⟩
      · simp only [List.mem_append, not_or] at hfirst
        refine .inl ⟨before, more, rfl,
          fun h => (hbefore h).resolve_right fun hb => hfirst.1.1 (List.mem_of_getLast? hb),
          fun h => ?_⟩
        cases more with
        | nil => rfl
        | cons c more =>
          obtain rfl : c = '/' := by simpa using hafter h
          exact absurd List.mem_cons_self hfirst.2
      · refine .inr ⟨more, after, hrest, fun h => ?_, hafter⟩
        cases more with
        | nil => exact .inl rfl
        | cons c more =>
          refine .inr ?_
          simpa using hbefore h
    · rintro (⟨before, after, rfl, hbefore, hafter⟩ | ⟨before, after, he, hbefore, hafter⟩)
      · refine ⟨before, after ++ '/' :: (r ++ rules.flatMap ('/' :: ·)), by simp,
          fun h => .inl (hbefore h), fun h => ?_⟩
        rw [hafter h]
        exact .inr rfl
      · refine ⟨first ++ '/' :: before, after, by simp [he], fun h => .inr ?_, hafter⟩
        rcases hbefore h with rfl | hbefore
        · simp
        · rw [List.getLast?_append, List.getLast?_cons, hbefore]
          rfl

theorem isComponent_iff {path name : Text} :
    IsComponent path name ↔ LiesInPath path name True True := by
  simp only [IsComponent, LiesInPath, true_implies]

theorem liesIn_iff_eq {rule name : Text} : LiesIn rule name True True ↔ rule = name := by
  simp [LiesIn]

namespace CallTree.WellFormed

variable {t : CallTree} (h : t.WellFormed)
include h

theorem fullPath_root : (t.node 0).fullPath = [] := by
  rw [Node.fullPath, h.root.2.1, h.root.2.2.1, List.nil_append]

theorem fullPath_caller {i : Nat} (hi : i < t.nodes.length) (h0 : i ≠ 0) :
    (t.node i).fullPath = (t.node (t.caller i)).fullPath ++ '/' :: (t.node i).rule := by
  obtain ⟨p, -, hp, hpath⟩ := h.parent i hi h0
  rw [caller_of_parent hp, Node.fullPath, hpath, Node.childPath, Node.fullPath,
    List.append_assoc _ ['/'], List.singleton_append]

/-- The path of a call spells the rules on the way down to it. -/
theorem fullPath_eq {i : Nat} (hi : i < t.nodes.length) :
    (t.node i).fullPath = (t.chain i).reverse.flatMap fun a => '/' :: (t.node a).rule := by
  induction i using Nat.strongRecOn with
  | _ i ih =>
    by_cases h0 : i = 0
    · rw [h0, h.fullPath_root, chain_zero, List.reverse_nil, List.flatMap_nil]
    · have hlt := h.caller_lt h0
      rw [h.fullPath_caller hi h0, ih _ hlt (by omega), h.chain_of_ne_zero h0, List.reverse_cons,
        List.flatMap_append, List.flatMap_singleton]

/-- A text without slashes lies in the path of a call just if it lies in the rule of the call or of
one of its callers. The root is one of them, with an empty rule. -/
theorem liesInPath_fullPath_iff {i : Nat} (hi : i < t.nodes.length)
    (hslash : ∀ a ∈ t.chain i, '/' ∉ (t.node a).rule) {name : Text} (hname : '/' ∉ name)
    {atStart atEnd : Prop} :
    LiesInPath (t.node i).fullPath name atStart atEnd ↔
      ∃ a ∈ 0 :: t.chain i, LiesIn (t.node a).rule name atStart atEnd := by
  have hroot : (t.node 0).rule = [] := h.root.2.2.1
  have hpath : (t.node i).fullPath =
      [] ++ ((t.chain i).reverse.map fun a => (t.node a).rule).flatMap ('/' :: ·) := by
    rw [h.fullPath_eq hi, List.nil_append, List.flatMap_map]
  rw [hpath, liesInPath_iff (by simp) (by simpa using hslash) hname]
  simp [hroot]

/-- The components of the path of a call are the rules of the call, its callers and the root. -/
theorem isComponent_fullPath_iff {i : Nat} (hi : i < t.nodes.length)
    (hslash : ∀ a ∈ t.chain i, '/' ∉ (t.node a).rule) {name : Text} (hname : '/' ∉ name) :
    IsComponent (t.node i).fullPath name ↔ ∃ a ∈ 0 :: t.chain i, (t.node a).rule = name := by
  rw [isComponent_iff, h.liesInPath_fullPath_iff hi hslash hname]
  simp only [liesIn_iff_eq]

/-- A path ends with a newline only if the rule of its call does. -/
theorem getLast?_fullPath {i : Nat} (hi : i < t.nodes.length) (h0 : i ≠ 0)
    (hrule : (t.node i).rule.getLast? ≠ some '\n') :
    (t.node i).fullPath.getLast? ≠ some '\n' := by
  rw [h.fullPath_caller hi h0, List.getLast?_append, List.getLast?_cons]
  cases hlast : (t.node i).rule.getLast? with
  | none => simp
  | some c => simpa [hlast] using hrule

theorem lt_of_mem_ancestors {n d : Nat} (hn : n ∈ t.ancestors d) :
    n ≠ 0 ∧ t.caller d ≠ 0 ∧ d ≠ 0 ∧ n < d := by
  have hpos := pos_le_of_mem_chain hn
  have h0 : d ≠ 0 := by
    rintro rfl
    have hroot : t.caller 0 = 0 := by rw [caller, h.root.1, Option.getD_none]
    omega
  have := h.caller_lt h0
  exact ⟨by omega, by omega, h0, by omega⟩

/-- The path of a call goes on from that of each of its callers with a slash. -/
theorem fullPath_of_mem_ancestors {n d : Nat} (hd : d < t.nodes.length)
    (hn : n ∈ t.ancestors d) :
    ∃ rest, (t.node d).fullPath = (t.node n).fullPath ++ '/' :: rest := by
  induction d using Nat.strongRecOn with
  | _ d ih =>
    obtain ⟨-, h0, hd0, -⟩ := h.lt_of_mem_ancestors hn
    have hlt := h.caller_lt hd0
    rw [ancestors_of_caller rfl (h.caller_lt h0), List.mem_cons] at hn
    rcases hn with rfl | hn
    · exact ⟨_, h.fullPath_caller hd hd0⟩
    · obtain ⟨rest, hrest⟩ := ih _ hlt (by omega) hn
      exact ⟨rest ++ '/' :: (t.node d).rule, by rw [h.fullPath_caller hd hd0, hrest,
        List.append_assoc, List.cons_append]⟩

end CallTree.WellFormed

end RuleTrace
