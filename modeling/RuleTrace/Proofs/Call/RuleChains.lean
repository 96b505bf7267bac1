import RuleTrace.Proofs.Call.Frontier
import RuleTrace.Proofs.Call.Paths

/-!
# Paths as chains of rules

A call was reached through the rules of its callers, from the first one down to its own
(`CallTree.ruleChain`). Its path is these rules with slashes between them. Where no rule has a slash
in it, the rules can be split off the path again, empty ones included, so two paths are equal just
if their chains are.

* `splitOn_flatMap_slash`: a path splits into its rules.
* `WellFormed.childPath_eq_path_iff`, `WellFormed.sameSite_iff`, `WellFormed.fullPath_eq_iff`: what
  the comparisons of paths say about chains.
* `Session.ruleChain_run`: the same for every run, and for the failures that the frontier leaves
  out.
-/

namespace RuleTrace

/-! ## Splitting a path -/

/-- A path put together from rules is the rules joined by slashes, after an empty one. -/
theorem append_flatMap_slash (first : Text) (rules : List Text) :
    first ++ rules.flatMap ('/' :: ·) = ['/'].intercalate (first :: rules) := by
  induction rules generalizing first with
  | nil => rw [List.flatMap_nil, List.append_nil, List.intercalate_singleton]
  | cons r rules ih =>
    rw [List.intercalate_cons_cons, ← ih, List.flatMap_cons, List.append_assoc, List.cons_append,
      List.singleton_append]

theorem splitOn_flatMap_slash {rules : List Text} (h : ∀ r ∈ rules, '/' ∉ r) :
    (rules.flatMap ('/' :: ·)).splitOn '/' = [] :: rules := by
  rw [← List.nil_append (rules.flatMap _), append_flatMap_slash]
  refine List.splitOn_intercalate '/' ?_ (List.cons_ne_nil _ _)
  rw [List.forall_mem_cons]
  exact ⟨List.not_mem_nil, h⟩

/-- Rules without slashes in them are known from the path that they make up. -/
theorem flatMap_slash_inj {rules rules' : List Text} (h : ∀ r ∈ rules, '/' ∉ r)
    (h' : ∀ r ∈ rules', '/' ∉ r) :
    rules.flatMap ('/' :: ·) = rules'.flatMap ('/' :: ·) ↔ rules = rules' := by
  refine ⟨fun heq => ?_, fun heq => by rw [heq]⟩
  have hsplit := splitOn_flatMap_slash h
  rw [heq, splitOn_flatMap_slash h'] at hsplit
  exact (List.cons.inj hsplit).2.symm

namespace CallTree

/-- The rules through which a call was reached, its own the last. -/
def ruleChain (t : CallTree) (i : Nat) : List Text :=
  (t.chain i).reverse.map fun a => (t.node a).rule

/-- No rule that was entered has a slash in its name. -/
def SlashFree (t : CallTree) : Prop :=
  ∀ i < t.nodes.length, '/' ∉ (t.node i).rule

instance (t : CallTree) : Decidable t.SlashFree :=
  inferInstanceAs (Decidable (∀ i < t.nodes.length, '/' ∉ (t.node i).rule))

theorem SlashFree.notMem_ruleChain {t : CallTree} (h : t.SlashFree) {i : Nat}
    (hi : i < t.nodes.length) : ∀ r ∈ t.ruleChain i, '/' ∉ r := by
  intro r hr
  obtain ⟨a, ha, rfl⟩ := List.mem_map.1 hr
  have hle := (pos_le_of_mem_chain (List.mem_reverse.1 ha)).2
  exact h a (by omega)

namespace WellFormed

variable {t : CallTree} (h : t.WellFormed)
include h

theorem ruleChain_of_ne_zero {i : Nat} (h0 : i ≠ 0) :
    t.ruleChain i = t.ruleChain (t.caller i) ++ [(t.node i).rule] := by
  rw [ruleChain, h.chain_of_ne_zero h0, List.reverse_cons, List.map_append, List.map_singleton,
    ruleChain]

theorem fullPath_eq_ruleChain {i : Nat} (hi : i < t.nodes.length) :
    (t.node i).fullPath = (t.ruleChain i).flatMap ('/' :: ·) := by
  rw [h.fullPath_eq hi, ruleChain, List.flatMap_map]

theorem path_eq_childPath {i : Nat} (hi : i < t.nodes.length) (h0 : i ≠ 0) :
    (t.node i).path = (t.node (t.caller i)).childPath := by
  obtain ⟨p, -, hp, hpath⟩ := h.parent i hi h0
  rw [hpath, caller_of_parent hp]

theorem caller_lt_length {i : Nat} (hi : i < t.nodes.length) (h0 : i ≠ 0) :
    t.caller i < t.nodes.length :=
  Nat.lt_trans (h.caller_lt h0) hi

section
variable (hslash : t.SlashFree)
include hslash

theorem fullPath_eq_iff {i j : Nat} (hi : i < t.nodes.length) (hj : j < t.nodes.length) :
    (t.node i).fullPath = (t.node j).fullPath ↔ t.ruleChain i = t.ruleChain j := by
  rw [h.fullPath_eq_ruleChain hi, h.fullPath_eq_ruleChain hj]
  exact flatMap_slash_inj (hslash.notMem_ruleChain hi) (hslash.notMem_ruleChain hj)

theorem childPath_eq_iff {i j : Nat} (hi : i < t.nodes.length) (hj : j < t.nodes.length) :
    (t.node i).childPath = (t.node j).childPath ↔ t.ruleChain i = t.ruleChain j := by
  rw [← h.fullPath_eq_iff hslash hi hj]
  exact List.append_left_inj ['/']

/-- A call was made from the path that another one gives to the calls made by it. -/
theorem childPath_eq_path_iff {i j : Nat} (hi : i < t.nodes.length) (hj : j < t.nodes.length)
    (h0 : j ≠ 0) :
    (t.node i).childPath = (t.node j).path ↔ t.ruleChain i = t.ruleChain (t.caller j) := by
  rw [h.path_eq_childPath hj h0]
  exact h.childPath_eq_iff hslash hi (h.caller_lt_length hj h0)

/-- Two calls are of one rule and from one path. -/
theorem sameSite_iff {i j : Nat} (hi : i < t.nodes.length) (hi0 : i ≠ 0) (hj : j < t.nodes.length)
    (hj0 : j ≠ 0) :
    (t.node i).path = (t.node j).path ∧ (t.node i).rule = (t.node j).rule ↔
      t.ruleChain i = t.ruleChain j := by
  rw [h.path_eq_childPath hi hi0, h.path_eq_childPath hj hj0,
    h.childPath_eq_iff hslash (h.caller_lt_length hi hi0) (h.caller_lt_length hj hj0),
    h.ruleChain_of_ne_zero hi0, h.ruleChain_of_ne_zero hj0]
  constructor
  · rintro ⟨habove, hrule⟩
    rw [habove, hrule]
  · intro hchain
    obtain ⟨habove, hrule⟩ := List.append_inj' hchain rfl
    exact ⟨habove, List.singleton_inj.1 hrule⟩

theorem covers_iff {f n : Nat} (hf : f < t.nodes.length) (hf0 : f ≠ 0) (hn : n < t.nodes.length)
    (hn0 : n ≠ 0) :
    t.Covers f n ↔ t.ruleChain n = t.ruleChain (t.caller f) ∨ t.ruleChain n = t.ruleChain f := by
  rw [Covers, h.childPath_eq_path_iff hslash hn hf hf0, h.sameSite_iff hslash hn hn0 hf hf0]

end

end WellFormed

end CallTree

namespace Session

/-- Members of the frontier are calls of the tree. -/
theorem lt_of_mem_frontier_run {calls : List TreeCall} {f : Nat}
    (hf : f ∈ (run calls).tree.frontier) : f < (run calls).tree.nodes.length ∧ f ≠ 0 := by
  have hstate := (mem_frontier_run hf).1
  refine ⟨CallTree.lt_of_state_ne (by rw [hstate]; exact nofun), ?_⟩
  rintro rfl
  rw [(run_inv calls).1.root.2.2.2] at hstate
  cases hstate

/-- After every run in which no rule has a slash in its name, the path that a call gives to its
callees is the path of another call just if it was reached through the rules through which the
caller of that one was; two calls are of one rule and from one path just if they were reached
through the same rules, and so just if their full paths are equal. A failure at the furthest offset
is left out of the frontier just if a member of it was reached through the same rules or was called
from there. -/
theorem ruleChain_run (calls : List TreeCall) :
    let t := (run calls).tree
    t.SlashFree →
      (∀ a < t.nodes.length, ∀ b < t.nodes.length, b ≠ 0 →
        ((t.node a).childPath = (t.node b).path ↔ t.ruleChain a = t.ruleChain (t.caller b)) ∧
        (a ≠ 0 →
          (((t.node a).path, (t.node a).rule) = ((t.node b).path, (t.node b).rule) ↔
            t.ruleChain a = t.ruleChain b) ∧
          ((t.node a).fullPath = (t.node b).fullPath ↔ t.ruleChain a = t.ruleChain b))) ∧
      ∀ rule location t' n, t.leave .failed rule location = .ok (t', .ok n) →
        location.start.offset = t.furthest →
        t'.frontier =
          if ∃ f ∈ t.frontier,
            t.ruleChain n = t.ruleChain f ∨ t.ruleChain n = t.ruleChain (t.caller f)
          then t.frontier else t.frontier ++ [n] := by
  intro t hslash
  have h : t.WellFormed := (run_inv calls).1.toWellFormed
  refine ⟨fun a ha b hb hb0 => ⟨h.childPath_eq_path_iff hslash ha hb hb0, fun ha0 => ⟨?_, ?_⟩⟩, ?_⟩
  · rw [Prod.mk.injEq]
    exact h.sameSite_iff hslash ha ha0 hb hb0
  · exact h.fullPath_eq_iff hslash ha hb
  · intro rule location t' n hleave hfar
    unfold CallTree.leave at hleave
    split at hleave
    · cases hleave
    · next hc =>
      split at hleave
      · cases hleave
      · have hfinish := Except.ok.inj hleave
        obtain rfl : t.close .failed location = t' := congrArg Prod.fst hfinish
        obtain rfl : t.cursor = n := by
          rcases t.finish_snd_cases .failed location with hcall | ⟨-, hlong⟩
          · exact Except.ok.inj (hcall.symm.trans (congrArg Prod.snd hfinish))
          · cases hlong.symm.trans (congrArg Prod.snd hfinish)
        have hwithin : ¬t.exceedsLog location.start.offset = true := by
          simp [CallTree.exceedsLog, hfar]
        have hcovers : (∃ f ∈ t.frontier, t.Covers f t.cursor) ↔ ∃ f ∈ t.frontier,
            t.ruleChain t.cursor = t.ruleChain f ∨
              t.ruleChain t.cursor = t.ruleChain (t.caller f) := by
          refine exists_congr fun f => and_congr_right fun hf => ?_
          obtain ⟨hlt, hf0⟩ := lt_of_mem_frontier_run hf
          rw [h.covers_iff hslash hlt hf0 h.cursor hc, or_comm]
        rw [t.frontier_close_failed location h.cursor, if_neg hwithin, if_neg (by omega),
          if_pos hfar, CallTree.keep]
        simp only [hcovers]

/-- Calls of rules with empty names, below one another and side by side. -/
def unnamedCalls : List TreeCall :=
  [.enter [] .origin, .enter [] .origin, .leave .failed [] .origin, .enter [] .origin]

/-- The call by the first one is known from it by the number of slashes. The second call by it fails
as the first one did, and is left out of the frontier. -/
theorem ruleChain_run_unnamedCalls :
    let t := (run unnamedCalls).tree
    t.SlashFree ∧ t.ruleChain 1 = t.ruleChain (t.caller 2) ∧ t.ruleChain 1 ≠ t.ruleChain 2 ∧
      t.ruleChain 3 = t.ruleChain 2 ∧
      ∃ t', t.leave .failed [] .origin = .ok (t', .ok 3) ∧ t'.frontier = [2] := by
  intro t
  have hslash : t.SlashFree := by decide
  obtain ⟨hpaths, hfrontier⟩ := ruleChain_run unnamedCalls hslash
  have hcaller := (hpaths 1 (by decide) 2 (by decide) (by decide)).1.1 (by decide)
  have hdistinct := ((hpaths 1 (by decide) 2 (by decide) (by decide)).2 (by decide)).2
  have hsame := ((hpaths 3 (by decide) 2 (by decide) (by decide)).2 (by decide)).1.1 (by decide)
  have hleave : t.leave .failed [] .origin = .ok (t.close .failed .origin, .ok 3) := rfl
  have hmember : ∃ f ∈ t.frontier,
      t.ruleChain 3 = t.ruleChain f ∨ t.ruleChain 3 = t.ruleChain (t.caller f) :=
    ⟨2, by decide, .inl hsame⟩
  refine ⟨hslash, hcaller, fun heq => absurd (hdistinct.2 heq) (by decide), hsame, _, hleave, ?_⟩
  rw [hfrontier _ _ _ _ hleave rfl, if_pos hmember]
  decide

end Session

end RuleTrace
