import Mathlib.Data.List.Perm.Basic
import Mathlib.Data.List.ProdSigma
import RuleTrace.Proofs.BracketList.Opening

/-!
# The order of the rules

A rule is entered only where a value is expected (`Cursor.Awaits`), and never a second time at one
place: the offset and the rule together only grow (`Report.turn`). The rules are tried in one order
at every place, and the reader never goes back to a place before one at which a rule was entered. A
rule that failed after it had gone on is no exception, since nothing is entered any more then: what
it failed at is no closing bracket.

* `Run.InTurn`: the reports of a run, in this order. `InTurn.bind`, `InTurn.orElse` and
  `InTurn.called` keep it.
* `inTurn_scan`: the reports for a whole source.
* `length_turns_scan_le`: so there are at most three calls for every opening bracket and comma.
-/

namespace RuleTrace.BracketList

/-! ## Places before a value -/

/-- The text up to a place breaks off before a value, with a number of lists open. -/
def Cursor.Awaits (source : Text) (k : Nat) (c : Cursor) : Prop :=
  ∃ t, Opening k t ∧ (⟨0, source⟩ : Cursor).Reads t c

namespace Cursor

variable {source : Text} {k : Nat} {c c₁ c₂ : Cursor}

theorem awaits_start (source : Text) : (⟨0, source⟩ : Cursor).Awaits source 0 :=
  ⟨[], .start, rfl, rfl⟩

theorem Awaits.bracket (h : c.Awaits source k) (hopen : c.char? '[' = some c₁) :
    c₁.Awaits source (k + 1) := by
  obtain ⟨t, ht, hr⟩ := h
  obtain ⟨lead, hlead⟩ := (char?_eq_some_iff rfl).1 hopen
  exact ⟨_, .bracket lead ht, hr.append hlead⟩

theorem Awaits.comma (h : c.Awaits source (k + 1)) {d : Derivation} (hd : c.Reads d.text c₁)
    (hcomma : c₁.char? ',' = some c₂) : c₂.Awaits source (k + 1) := by
  obtain ⟨t, ht, hr⟩ := h
  obtain ⟨lead, hlead⟩ := (char?_eq_some_iff rfl).1 hcomma
  exact ⟨_, .comma d lead ht, hr.append (hd.append hlead)⟩

/-- The text up to the place is the opening. -/
theorem Awaits.opening (h : c.Awaits source k) :
    Opening k (source.take c.offset) ∧ c.offset ≤ source.length := by
  obtain ⟨t, ht, hrest, hoffset⟩ := h
  have hsource : source = t ++ c.rest := hrest
  have hlength : c.offset = t.length := by simpa using hoffset
  rw [hlength, hsource, List.take_left, List.length_append]
  exact ⟨ht, Nat.le_add_right _ _⟩

theorem offset_lt_of_char? {e : Char} (he : isBlank e = false) (h : c.char? e = some c₁) :
    c.offset < c₁.offset := by
  obtain ⟨b, hr⟩ := (char?_eq_some_iff he).1 h
  rw [hr.offset, List.length_append, List.length_singleton]
  omega

end Cursor

/-! ## Turns -/

/-- The order in which the rules are tried at a place. -/
def Rule.rank : Rule → Nat
  | .start => 0
  | .value => 1
  | .number => 2
  | .list => 3

/-- The offset where a rule was entered and the rule as one number, by the offset first. -/
def Report.turn (r : Report) : Nat :=
  4 * r.start + r.rule.rank

/-- A report is about a rule entered where a value is expected, and the rule for whole sources only
at the start. -/
def Report.IsExpected (source : Text) (r : Report) : Prop :=
  (∃ k c, Cursor.Awaits source k c ∧ c.offset = r.start) ∧ (r.rule = .start → r.start = 0)

/-- The turns of the rules that were entered. -/
def turns (reports : List Report) : List Nat :=
  (reports.filter (·.kind = .enter)).map Report.turn

theorem turns_append (l m : List Report) : turns (l ++ m) = turns l ++ turns m := by
  rw [turns, List.filter_append, List.map_append, turns, turns]

namespace Run

/-- Every rule of a run is expected, and they are entered in order, from a first turn on up to where
the run stops. -/
structure InTurn {α : Type} (source : Text) (first : Nat) (r : Run α) : Prop where
  expected : ∀ s ∈ r.reports, s.IsExpected source
  sorted : (turns r.reports).Pairwise (· < ·)
  lower : ∀ n ∈ turns r.reports, first ≤ n
  upper : ∀ a c, r.result = some (a, c) →
    first ≤ 4 * c.offset ∧ ∀ n ∈ turns r.reports, n < 4 * c.offset

variable {α β : Type} {source : Text} {first : Nat}

theorem inTurn_fail : (fail : Run α).InTurn source first where
  expected s hs := absurd hs List.not_mem_nil
  sorted := .nil
  lower n hn := absurd hn List.not_mem_nil
  upper a c h := by cases h

theorem inTurn_done (a : α) {c : Cursor} (h : first ≤ 4 * c.offset) :
    (done a c).InTurn source first where
  expected s hs := absurd hs List.not_mem_nil
  sorted := .nil
  lower n hn := absurd hn List.not_mem_nil
  upper b c' hb := by
    obtain ⟨-, rfl⟩ := Prod.mk.inj (Option.some.inj hb)
    exact ⟨h, fun n hn => absurd hn List.not_mem_nil⟩

/-- A run that fails in the end may have been anywhere. -/
theorem InTurn.failed {r : Run α} (h : r.InTurn source first) :
    (⟨r.reports, none⟩ : Run β).InTurn source first :=
  ⟨h.expected, h.sorted, h.lower, nofun⟩

theorem InTurn.of_le {r : Run α} {first' : Nat} (h : r.InTurn source first) (hle : first' ≤ first) :
    r.InTurn source first' where
  expected := h.expected
  sorted := h.sorted
  lower n hn := Nat.le_trans hle (h.lower n hn)
  upper a c hr := ⟨Nat.le_trans hle (h.upper a c hr).1, (h.upper a c hr).2⟩

/-- What follows on reports that are all before it. -/
theorem InTurn.after {reports : List Report} {s : Run α} {next : Nat}
    (hexpected : ∀ r ∈ reports, r.IsExpected source) (hsorted : (turns reports).Pairwise (· < ·))
    (hlower : ∀ n ∈ turns reports, first ≤ n) (hbefore : ∀ n ∈ turns reports, n < next)
    (hle : first ≤ next) (hs : s.InTurn source next) :
    (⟨reports ++ s.reports, s.result⟩ : Run α).InTurn source first where
  expected := List.forall_mem_append.2 ⟨hexpected, hs.expected⟩
  sorted := by
    rw [turns_append, List.pairwise_append]
    refine ⟨hsorted, hs.sorted, fun m hm n hn => ?_⟩
    exact Nat.lt_of_lt_of_le (hbefore m hm) (hs.lower n hn)
  lower := by
    rw [turns_append, List.forall_mem_append]
    exact ⟨hlower, fun n hn => Nat.le_trans hle (hs.lower n hn)⟩
  upper a c hr := by
    obtain ⟨hc, hupper⟩ := hs.upper a c hr
    rw [turns_append, List.forall_mem_append]
    exact ⟨Nat.le_trans hle hc, fun n hn => Nat.lt_of_lt_of_le (hbefore n hn) hc, hupper⟩

theorem InTurn.bind {r : Run α} {next : α → Cursor → Run β} (h : r.InTurn source first)
    (hnext : ∀ a c, r.result = some (a, c) → (next a c).InTurn source (4 * c.offset)) :
    (r.bind next).InTurn source first := by
  unfold Run.bind
  split
  · exact h.failed
  · next a c hr =>
    obtain ⟨hle, hupper⟩ := h.upper a c hr
    exact .after h.expected h.sorted h.lower hupper hle (hnext a c hr)

/-- The second try comes after the first, if that one is known to end before it. -/
theorem InTurn.orElse {r : Run α} {other : Unit → Run α} {next : Nat} (h : r.InTurn source first)
    (hbefore : ∀ n ∈ turns r.reports, n < next) (hle : first ≤ next)
    (hother : (other ()).InTurn source next) : (r.orElse other).InTurn source first := by
  unfold Run.orElse
  split
  · exact h
  · exact .after h.expected h.sorted h.lower hbefore hle hother

end Run

/-! ## The rules -/

section
variable {source : Text} {k : Nat} {c : Cursor}

theorem turns_called {α : Type} (rule : Rule) (c : Cursor) (body : Cursor → Run α) :
    turns (called rule c body).reports =
      (4 * c.offset + rule.rank) :: turns (body c).reports := by
  cases hr : (body c).result <;> simp [turns, called, hr, Report.turn]

theorem Run.InTurn.called {α : Type} {rule : Rule} {body : Cursor → Run α}
    (h : (body c).InTurn source (4 * c.offset + rule.rank + 1)) (hc : c.Awaits source k)
    (hrule : rule = .start → c.offset = 0) :
    (called rule c body).InTurn source (4 * c.offset + rule.rank) where
  expected s hs := by
    have hwhere : s ∈ (body c).reports ∨ s.start = c.offset ∧ s.rule = rule := by
      simp only [BracketList.called, List.cons_append, List.mem_cons, List.mem_append,
        List.not_mem_nil, or_false] at hs
      rcases hs with rfl | hs | hs
      · exact .inr ⟨rfl, rfl⟩
      · exact .inl hs
      · split at hs <;> exact .inr (by rw [hs]; exact ⟨rfl, rfl⟩)
    rcases hwhere with hs | ⟨hstart, hr⟩
    · exact h.expected s hs
    · exact ⟨⟨k, c, hc, hstart.symm⟩, fun heq => by rw [hstart, hrule (hr ▸ heq)]⟩
  sorted := by
    rw [turns_called, List.pairwise_cons]
    exact ⟨h.lower, h.sorted⟩
  lower := by
    rw [turns_called, List.forall_mem_cons]
    exact ⟨Nat.le_refl _, fun n hn => Nat.le_of_succ_le (h.lower n hn)⟩
  upper a c' hr := by
    obtain ⟨hle, hupper⟩ := h.upper a c' hr
    rw [turns_called, List.forall_mem_cons]
    exact ⟨Nat.le_of_succ_le hle, hle, hupper⟩

theorem turns_number (c : Cursor) : turns (number c).reports = [4 * c.offset + 2] := by
  rw [number, turns_called]
  cases c.int? <;> rfl

theorem inTurn_number (hc : c.Awaits source k) :
    (number c).InTurn source (4 * c.offset + Rule.number.rank) := by
  refine Run.InTurn.called ?_ hc nofun
  cases hi : c.int? with
  | none => exact Run.inTurn_fail
  | some r =>
    obtain ⟨i, c'⟩ := r
    refine Run.inTurn_done _ ?_
    obtain ⟨b, n, hr, -, -⟩ := Cursor.int?_eq_some_iff.1 hi
    obtain ⟨e, t, ht, -, -⟩ := n.starts []
    have hlength := congrArg List.length ht
    rw [List.append_nil, List.length_cons] at hlength
    rw [hr.offset, List.length_append, Rule.rank]
    omega

/-- Where a list is closed, a value is tried in vain at that place only. -/
theorem turns_valueWithin_lt {n : Nat} {c₁ : Cursor} (h : c.char? ']' = some c₁) :
    ∀ m ∈ turns (valueWithin n c).reports, m < 4 * c₁.offset := by
  have hlt := Cursor.offset_lt_of_char? rfl h
  cases n with
  | zero => exact fun m hm => absurd hm List.not_mem_nil
  | succ n =>
    obtain ⟨b, hr⟩ := (Cursor.char?_eq_some_iff rfl).1 h
    have hbracket : c.char? '[' = none := by
      refine Cursor.char?_eq_none (b := b) (f := ']') (t := c₁.rest) rfl (by decide) ?_
      rw [hr.rest, List.append_assoc]
      rfl
    have hnone : (number c).result = none := by
      have hvalue := valueWithin_eq_none (n + 1) h
      cases hnumber : (number c).result with
      | none => rfl
      | some r =>
        rw [result_valueWithin_succ.2 (.inl hnumber)] at hvalue
        cases hvalue
    have hturns : turns (valueWithin (n + 1) c).reports =
        [4 * c.offset + 1, 4 * c.offset + 2, 4 * c.offset + 3] := by
      rw [valueWithin, turns_called]
      simp only [Run.orElse, hnone, turns_append, turns_number, list, turns_called, hbracket]
      rfl
    rw [hturns]
    simp only [List.forall_mem_cons, List.not_mem_nil, false_implies, implies_true, and_true]
    omega

section
variable {n : Nat} (hitem : ∀ {k : Nat} {c : Cursor}, c.Awaits source k →
  (valueWithin n c).InTurn source (4 * c.offset + Rule.value.rank))
include hitem

/-- The items after an item that was read from a place where a value was expected. -/
theorem inTurn_moreItems {m : Nat} {c₁ : Cursor} {d : Derivation} (hc : c.Awaits source (k + 1))
    (hd : c.Reads d.text c₁) :
    (moreItems (valueWithin n) m c₁).InTurn source (4 * c₁.offset) := by
  induction m generalizing c c₁ d with
  | zero => exact Run.inTurn_fail
  | succ m ih =>
    rw [moreItems]
    split
    · exact Run.inTurn_done [] (Nat.le_refl _)
    · next c₂ hcomma =>
      have hc₂ := hc.comma hd hcomma
      have hlt := Cursor.offset_lt_of_char? rfl hcomma
      refine ((hitem hc₂).of_le (by omega)).bind fun v c₃ hv => ?_
      obtain ⟨e, he, -, -⟩ := derivation_of_valueWithin n _ _ _ hv
      refine (ih hc₂ he).bind fun vs c₄ _ => Run.inTurn_done _ (Nat.le_refl _)

theorem inTurn_list (hc : c.Awaits source k) :
    (list (valueWithin n) c).InTurn source (4 * c.offset + Rule.list.rank) := by
  refine Run.InTurn.called ?_ hc nofun
  split
  · exact Run.inTurn_fail
  · next c₁ hopen =>
    have hc₁ := hc.bracket hopen
    have hlt := Cursor.offset_lt_of_char? rfl hopen
    have hfirst : (valueWithin n c₁).InTurn source (4 * c.offset + Rule.list.rank + 1) :=
      (hitem hc₁).of_le (by simp only [Rule.rank]; omega)
    cases hv : (valueWithin n c₁).result with
    | none =>
      -- the items end at a place that is not behind what was tried in vain, but the list does
      rw [items_of_result_eq_none hv]
      cases hclose : c₁.char? ']' with
      | none =>
        simp only [Run.bind, hclose, Run.fail, List.append_nil]
        exact hfirst.failed
      | some c₂ =>
        have hlt' := Cursor.offset_lt_of_char? rfl hclose
        simp only [Run.bind, hclose]
        refine .after hfirst.expected hfirst.sorted hfirst.lower (turns_valueWithin_lt hclose) ?_
          (Run.inTurn_done _ (Nat.le_refl _))
        simp only [Rule.rank]
        omega
    | some r =>
      rw [items_of_result_eq_some hv]
      refine (hfirst.bind fun v c₂ hv => ?_).bind fun vs c₃ _ => ?_
      · obtain ⟨e, he, -, -⟩ := derivation_of_valueWithin n _ _ _ hv
        exact (inTurn_moreItems hitem hc₁ he).bind fun vs c₃ _ =>
          Run.inTurn_done _ (Nat.le_refl _)
      · split
        · exact Run.inTurn_fail
        · next c₄ hclose =>
          have := Cursor.offset_lt_of_char? rfl hclose
          exact Run.inTurn_done _ (by omega)

end

theorem inTurn_valueWithin (n : Nat) (hc : c.Awaits source k) :
    (valueWithin n c).InTurn source (4 * c.offset + Rule.value.rank) := by
  induction n generalizing c k with
  | zero => exact Run.inTurn_fail
  | succ n ih =>
    refine Run.InTurn.called ?_ hc nofun
    refine (inTurn_number hc).orElse ?_ ?_ (inTurn_list ih hc)
    · rw [turns_number, List.forall_mem_singleton]
      simp only [Rule.rank]
      omega
    · simp only [Rule.rank]
      omega

end

theorem inTurn_scan (source : Text) : (called .start ⟨0, source⟩ value).InTurn source 0 := by
  have hstart := Cursor.awaits_start source
  have hvalue : (value ⟨0, source⟩).InTurn source (4 * 0 + Rule.start.rank + 1) :=
    inTurn_valueWithin _ hstart
  exact hvalue.called hstart fun _ => rfl

/-! ## The count of the calls -/

/-- The start of a source and the offsets after its opening brackets and its commas. -/
def openings (source : Text) : List Nat :=
  0 :: source.findIdxs (fun c => c == '[' || c == ',') 1

theorem countP_bracket_or_comma (source : Text) :
    source.countP (fun c => c == '[' || c == ',') = source.count '[' + source.count ',' := by
  induction source with
  | nil => rfl
  | cons c source ih =>
    rw [List.countP_cons, List.count_cons, List.count_cons, ih]
    by_cases hopen : c = '['
    · subst hopen
      simp only [Char.reduceBEq, Bool.true_or, if_true, Bool.false_eq_true, if_false]
      omega
    · simp only [beq_eq_false_iff_ne.2 hopen, Bool.false_or, Bool.false_eq_true, if_false]
      omega

theorem length_openings (source : Text) :
    (openings source).length = 1 + (source.count '[' + source.count ',') := by
  rw [openings, List.length_cons, List.length_findIdxs, countP_bracket_or_comma, Nat.add_comm]

/-- A value is expected only at these places. -/
theorem Cursor.Awaits.mem_openings {source : Text} {k : Nat} {c : Cursor} (h : c.Awaits source k) :
    c.offset ∈ openings source := by
  obtain ⟨hopening, hle⟩ := h.opening
  rcases hopening.eq_nil_or_concat with hnil | ⟨u, e, hconcat, he⟩
  · have hlength := congrArg List.length hnil
    rw [List.length_take_of_le hle, List.length_nil] at hlength
    rw [hlength]
    exact List.mem_cons_self
  · have hlength := congrArg List.length hconcat
    rw [List.length_take_of_le hle, List.length_append, List.length_singleton] at hlength
    obtain ⟨rest, rfl⟩ : ∃ rest, source = u ++ e :: rest := by
      refine ⟨source.drop c.offset, ?_⟩
      rw [← List.singleton_append, ← List.append_assoc, ← hconcat, List.take_append_drop]
    have hlast : (fun d => d == '[' || d == ',') e = true := by
      rcases he with rfl | rfl <;> rfl
    refine List.mem_cons_of_mem _ (List.mem_findIdxs_iff_getElem_sub_pos.2 ⟨by omega, by omega, ?_⟩)
    simpa only [hlength, Nat.add_sub_cancel, List.getElem_append_right (Nat.le_refl _),
      Nat.sub_self, List.getElem_cons_zero] using hlast

/-- At most three rules are entered at a place where a value is expected, and the rule for the
source at its start. -/
theorem length_turns_scan_le (source : Text) :
    (turns (scan source).reports).length ≤ 4 + 3 * (source.count '[' + source.count ',') := by
  rw [reports_scan]
  generalize hr : called .start ⟨0, source⟩ value = r
  have h := hr ▸ inTurn_scan source
  have hnodup : (turns r.reports).Nodup := h.sorted.imp Nat.ne_of_lt
  have hsubset :
      turns r.reports ⊆ 0 :: (openings source ×ˢ [1, 2, 3]).map fun p => 4 * p.1 + p.2 := by
    intro n hn
    obtain ⟨s, hs, rfl⟩ := List.mem_map.1 hn
    obtain ⟨⟨k, c, hc, hstart⟩, hfirst⟩ := h.expected s (List.mem_filter.1 hs).1
    have hopening := hstart ▸ hc.mem_openings
    cases hrule : s.rule with
    | start =>
      rw [Report.turn, hfirst hrule, hrule]
      exact List.mem_cons_self
    | value | number | list =>
      refine List.mem_cons_of_mem _ (List.mem_map.2 ⟨(s.start, s.rule.rank), ?_, rfl⟩)
      rw [List.mem_product, hrule]
      exact ⟨hopening, by decide⟩
  have hle := hnodup.length_le_of_subset hsubset
  rw [List.length_cons, List.length_map, List.length_product, length_openings] at hle
  simp only [List.length_cons, List.length_nil] at hle
  omega

end RuleTrace.BracketList
