import RuleTrace.Proofs.BracketList.Token

/-!
# What the reader reads

The reader is compared with the derivations of the grammar.

* `derivation_of_valueWithin`: what it reads as a value has a derivation that ends where it stops.
* `Derivation.read`: it reads every derivation that ends before what is no part of it.
-/

namespace RuleTrace.BracketList

/-! ## Results -/

namespace Run

variable {α β : Type}

theorem result_bind {r : Run α} {next : α → Cursor → Run β} {b : β} {c' : Cursor} :
    (r.bind next).result = some (b, c') ↔
      ∃ a c, r.result = some (a, c) ∧ (next a c).result = some (b, c') := by
  unfold bind
  split
  · next h => simp [h]
  · next a c h =>
    refine ⟨fun hb => ⟨a, c, h, hb⟩, fun ⟨a', c₁, ha, hb⟩ => ?_⟩
    obtain ⟨rfl, rfl⟩ := Prod.mk.inj (Option.some.inj (h.symm.trans ha))
    exact hb

theorem result_orElse {r : Run α} {other : Unit → Run α} {a : α} {c' : Cursor} :
    (r.orElse other).result = some (a, c') ↔
      r.result = some (a, c') ∨ r.result = none ∧ (other ()).result = some (a, c') := by
  unfold orElse
  split
  · next b h => simp [h]
  · next h => simp [h]

/-- What a run and one after it give, when the result of the first is put before that of the
second. -/
theorem bind_cons {r : Run α} {a : α} {c : Cursor} (h : r.result = some (a, c))
    (rest : Cursor → Run (List α)) :
    (r.bind fun a c => (rest c).bind fun as c => .done (a :: as) c) =
      ⟨r.reports ++ (rest c).reports, (rest c).result.map fun p => (a :: p.1, p.2)⟩ := by
  cases hrest : (rest c).result with
  | none => simp [bind, h, hrest]
  | some p => simp [bind, h, hrest, done]

end Run

section
variable {c c' : Cursor} {item : Cursor → Run Value}

theorem result_number {v : Value} :
    (number c).result = some (v, c') ↔ ∃ (lead : Blanks) (n : Numeral),
      c.Reads (Derivation.number lead n).text c' ∧ (Derivation.number lead n).EndsBefore c'.rest ∧
        (Derivation.number lead n).value = v := by
  have hres : (number c).result = some (v, c') ↔ ∃ i, c.int? = some (i, c') ∧ Value.int i = v := by
    simp only [number, called]
    cases h : c.int? with
    | none => simp [Run.fail]
    | some r =>
      obtain ⟨i, c₁⟩ := r
      simp only [Run.done, Option.some.injEq, Prod.mk.injEq]
      exact ⟨fun ⟨hv, hc⟩ => ⟨i, ⟨rfl, hc⟩, hv⟩, fun ⟨j, ⟨hi, hc⟩, hv⟩ => ⟨hi ▸ hv, hc⟩⟩
  rw [hres]
  refine ⟨fun ⟨i, hi, hv⟩ => ?_, fun ⟨lead, n, hr, he, hv⟩ => ?_⟩
  · obtain ⟨b, n, hr, he, rfl⟩ := Cursor.int?_eq_some_iff.1 hi
    exact ⟨b, n, hr, he, hv⟩
  · exact ⟨n.value, Cursor.int?_eq_some_iff.2 ⟨lead, n, hr, he, rfl⟩, hv⟩

theorem result_moreItems_succ {n : Nat} {vs : List Value} :
    (moreItems item (n + 1) c).result = some (vs, c') ↔
      c.char? ',' = none ∧ vs = [] ∧ c' = c ∨
      ∃ c₁ v c₂ ws, c.char? ',' = some c₁ ∧ (item c₁).result = some (v, c₂) ∧
        (moreItems item n c₂).result = some (ws, c') ∧ vs = v :: ws := by
  rw [moreItems]
  cases h : c.char? ',' with
  | none =>
    simp only [Run.done, Option.some.injEq, Prod.mk.injEq, true_and, reduceCtorEq, false_and,
      exists_false, or_false]
    exact ⟨fun ⟨hv, hc⟩ => ⟨hv.symm, hc.symm⟩, fun ⟨hv, hc⟩ => ⟨hv.symm, hc.symm⟩⟩
  | some c₁ =>
    simp only [Run.result_bind, Run.done, Option.some.injEq, Prod.mk.injEq, reduceCtorEq,
      false_and, false_or]
    refine ⟨fun ⟨v, c₂, hv, ws, c₃, hws, hvs, hc⟩ => ?_,
      fun ⟨c₁', v, c₂, ws, h₁, hv, hws, hvs⟩ => ?_⟩
    · exact ⟨c₁, v, c₂, ws, rfl, hv, hc ▸ hws, hvs.symm⟩
    · exact ⟨v, c₂, h₁ ▸ hv, ws, c', hws, hvs.symm, rfl⟩

/-- A first item that is not read leaves the list without items. -/
theorem items_of_result_eq_none (h : (item c).result = none) :
    items item c = ⟨(item c).reports, some ([], c)⟩ := by
  simp only [items, h]

theorem items_of_result_eq_some {v : Value} (h : (item c).result = some (v, c')) :
    items item c = (item c).bind fun v c =>
      (moreItems item (c.rest.length + 1) c).bind fun vs c => .done (v :: vs) c := by
  simp only [items, h]

theorem result_items {vs : List Value} :
    (items item c).result = some (vs, c') ↔
      (item c).result = none ∧ vs = [] ∧ c' = c ∨
      ∃ v c₁ ws, (item c).result = some (v, c₁) ∧
        (moreItems item (c₁.rest.length + 1) c₁).result = some (ws, c') ∧ vs = v :: ws := by
  unfold items
  dsimp only
  cases h : (item c).result with
  | none =>
    simp only [Option.some.injEq, Prod.mk.injEq, true_and, reduceCtorEq, false_and, exists_false,
      or_false]
    exact ⟨fun ⟨hv, hc⟩ => ⟨hv.symm, hc.symm⟩, fun ⟨hv, hc⟩ => ⟨hv.symm, hc.symm⟩⟩
  | some r =>
    simp only [Run.result_bind, Run.done, h, Option.some.injEq, Prod.mk.injEq, reduceCtorEq,
      false_and, false_or]
    refine ⟨fun ⟨v, c₁, hv, ws, c₃, hws, hvs, hc⟩ => ?_, fun ⟨v, c₁, ws, hv, hws, hvs⟩ => ?_⟩
    · exact ⟨v, c₁, ws, hv, hc ▸ hws, hvs.symm⟩
    · exact ⟨v, c₁, hv, ws, c', hws, hvs.symm, rfl⟩

theorem result_list {v : Value} :
    (list item c).result = some (v, c') ↔ ∃ c₁ vs c₂, c.char? '[' = some c₁ ∧
      (items item c₁).result = some (vs, c₂) ∧ c₂.char? ']' = some c' ∧ .list vs = v := by
  simp only [list, called]
  cases h : c.char? '[' with
  | none => simp [Run.fail]
  | some c₁ =>
    simp only [Run.result_bind, Option.some.injEq]
    refine ⟨fun ⟨vs, c₂, hvs, hend⟩ => ?_, fun ⟨c₁', vs, c₂, h₁, hvs, hend, hv⟩ => ?_⟩
    · cases he : c₂.char? ']' with
      | none => simp [he, Run.fail] at hend
      | some c₃ =>
        simp only [he, Run.done, Option.some.injEq, Prod.mk.injEq] at hend
        exact ⟨c₁, vs, c₂, rfl, hvs, hend.2 ▸ he, hend.1⟩
    · refine ⟨vs, c₂, h₁ ▸ hvs, ?_⟩
      simp only [hend, Run.done, hv]

theorem result_valueWithin_succ {n : Nat} {v : Value} :
    (valueWithin (n + 1) c).result = some (v, c') ↔
      (number c).result = some (v, c') ∨
      (number c).result = none ∧ (list (valueWithin n) c).result = some (v, c') := by
  rw [valueWithin]
  exact Run.result_orElse

end

/-! ## What is read has a derivation -/

/-- Every value that `item` reads has a derivation. -/
def Sound (item : Cursor → Run Value) : Prop :=
  ∀ c v c', (item c).result = some (v, c') →
    ∃ d : Derivation, c.Reads d.text c' ∧ d.EndsBefore c'.rest ∧ d.value = v

section
variable {item : Cursor → Run Value} (hitem : Sound item)
include hitem

theorem continuation_of_moreItems {lead : Blanks} {c₂ : Cursor} :
    ∀ {n : Nat} {c c₁ : Cursor} {vs : List Value}, (moreItems item n c).result = some (vs, c₁) →
      c₁.Reads (lead.text ++ [']']) c₂ → ∃ m : Continuation, c.Reads m.text c₂ ∧ m.values = vs := by
  intro n
  induction n with
  | zero =>
    intro c c₁ vs h
    cases h
  | succ n ih =>
    intro c c₁ vs h hclose
    rcases result_moreItems_succ.1 h with ⟨-, rfl, rfl⟩ | ⟨c₃, v, c₄, ws, hc, hv, hws, rfl⟩
    · exact ⟨.close lead, hclose, rfl⟩
    · obtain ⟨b, hb⟩ := (Cursor.char?_eq_some_iff rfl).1 hc
      obtain ⟨d, hd, -, rfl⟩ := hitem _ _ _ hv
      obtain ⟨m, hm, rfl⟩ := ih hws hclose
      refine ⟨.comma b d m, ?_, rfl⟩
      have := hb.append (hd.append hm)
      simpa [Continuation.text] using this

theorem derivation_of_list : Sound (list item) := by
  intro c v c' h
  obtain ⟨c₁, vs, c₂, hopen, hitems, hclose, rfl⟩ := result_list.1 h
  obtain ⟨lead, hlead⟩ := (Cursor.char?_eq_some_iff rfl).1 hopen
  obtain ⟨last, hlast⟩ := (Cursor.char?_eq_some_iff rfl).1 hclose
  rcases result_items.1 hitems with ⟨-, rfl, rfl⟩ | ⟨v, c₃, ws, hv, hws, rfl⟩
  · refine ⟨.empty lead last, ?_, trivial, rfl⟩
    simpa [Derivation.text] using hlead.append hlast
  · obtain ⟨d, hd, -, rfl⟩ := hitem _ _ _ hv
    obtain ⟨m, hm, rfl⟩ := continuation_of_moreItems hitem hws hlast
    refine ⟨.list lead d m, ?_, trivial, rfl⟩
    simpa [Derivation.text] using hlead.append (hd.append hm)

end

theorem derivation_of_valueWithin (n : Nat) : Sound (valueWithin n) := by
  induction n with
  | zero =>
    intro c v c' h
    cases h
  | succ n ih =>
    intro c v c' h
    rcases result_valueWithin_succ.1 h with h | ⟨-, h⟩
    · obtain ⟨lead, k, hr, he, hv⟩ := result_number.1 h
      exact ⟨.number lead k, hr, he, hv⟩
    · exact derivation_of_list ih c v c' h

/-! ## Every derivation is read -/

/-- No number comes next at the bracket that opens a list. -/
theorem number_eq_none {c c₁ : Cursor} (h : c.char? '[' = some c₁) :
    (number c).result = none := by
  obtain ⟨lead, hopen⟩ := (Cursor.char?_eq_some_iff rfl).1 h
  cases hn : (number c).result with
  | none => rfl
  | some r =>
    obtain ⟨b, n, hr, -, -⟩ := result_number.1 hn
    have heq := hr.rest.symm.trans hopen.rest
    simp only [Derivation.text, List.append_assoc] at heq
    exact absurd heq n.bracket_ne

/-- No value comes next at the bracket that closes a list. -/
theorem valueWithin_eq_none {c c₁ : Cursor} (n : Nat) (h : c.char? ']' = some c₁) :
    (valueWithin n c).result = none := by
  obtain ⟨lead, hclose⟩ := (Cursor.char?_eq_some_iff rfl).1 h
  cases hv : (valueWithin n c).result with
  | none => rfl
  | some r =>
    obtain ⟨d, hr, -, -⟩ := derivation_of_valueWithin n c r.1 r.2 hv
    have heq := hclose.rest.symm.trans hr.rest
    rw [List.append_assoc] at heq
    exact absurd heq d.close_ne

mutual

/-- A derivation that ends before what is no part of it is read, if the bound on the nesting is
greater than its length. -/
theorem Derivation.read : ∀ (d : Derivation) {n : Nat} {c c' : Cursor}, c.Reads d.text c' →
    d.EndsBefore c'.rest → d.text.length < n → (valueWithin n c).result = some (d.value, c')
  | _, 0, _, _, _, _, hn => absurd hn (Nat.not_lt_zero _)
  | .number lead k, n + 1, c, c', hr, he, _ =>
    result_valueWithin_succ.2 (.inl (result_number.2 ⟨lead, k, hr, he, rfl⟩))
  | .empty lead inner, n + 1, c, c', hr, _, _ => by
    have hr : c.Reads ((lead.text ++ ['[']) ++ (inner.text ++ [']'])) c' := by
      simpa [Derivation.text] using hr
    obtain ⟨c₁, hr₁, hr₂⟩ := hr.split
    have hopen := (Cursor.char?_eq_some_iff rfl).2 ⟨lead, hr₁⟩
    have hclose := (Cursor.char?_eq_some_iff rfl).2 ⟨inner, hr₂⟩
    have hitems := result_items.2 (.inl ⟨valueWithin_eq_none n hclose, rfl, rfl⟩)
    exact result_valueWithin_succ.2 (.inr ⟨number_eq_none hopen,
      result_list.2 ⟨c₁, [], c₁, hopen, hitems, hclose, rfl⟩⟩)
  | .list lead first more, n + 1, c, c', hr, _, hn => by
    have hlen : first.text.length + more.text.length < n := by
      simp only [Derivation.text, List.length_append, List.length_cons] at hn
      omega
    have hr : c.Reads ((lead.text ++ ['[']) ++ (first.text ++ more.text)) c' := by
      simpa [Derivation.text] using hr
    obtain ⟨c₁, hr₁, hr'⟩ := hr.split
    obtain ⟨c₂, hr₂, hr₃⟩ := hr'.split
    have hopen := (Cursor.char?_eq_some_iff rfl).2 ⟨lead, hr₁⟩
    have hends : first.EndsBefore c₂.rest := by
      rw [hr₃.rest]
      exact first.endsBefore_continuation more c'.rest
    have hfirst := first.read (n := n) hr₂ hends (by omega)
    have hrest := hr₃.length
    obtain ⟨c₃, hmore, hclose⟩ :=
      more.read (n := n) (k := c₂.rest.length + 1) hr₃ (by omega) (by omega)
    have hitems := result_items.2 (.inr ⟨_, c₂, _, hfirst, hmore, rfl⟩)
    exact result_valueWithin_succ.2 (.inr ⟨number_eq_none hopen,
      result_list.2 ⟨c₁, _, c₃, hopen, hitems, hclose, rfl⟩⟩)

theorem Continuation.read : ∀ (m : Continuation) {n k : Nat} {c c' : Cursor}, c.Reads m.text c' →
    m.text.length < n → m.text.length ≤ k → ∃ c₁,
      (moreItems (valueWithin n) k c).result = some (m.values, c₁) ∧ c₁.char? ']' = some c'
  | .close lead, n, 0, c, c', hr, _, hk => by
    simp [Continuation.text] at hk
  | .comma lead item more, n, 0, c, c', hr, _, hk => by
    simp [Continuation.text] at hk
  | .close lead, n, k + 1, c, c', hr, _, hk => by
    have hclose := (Cursor.char?_eq_some_iff rfl).2 ⟨lead, hr⟩
    have hcomma : c.char? ',' = none := by
      refine Cursor.char?_eq_none (b := lead) (f := ']') (t := c'.rest) rfl (by decide) ?_
      rw [hr.rest, Continuation.text, List.append_assoc]
      rfl
    exact ⟨c, result_moreItems_succ.2 (.inl ⟨hcomma, rfl, rfl⟩), hclose⟩
  | .comma lead item more, n, k + 1, c, c', hr, hn, hk => by
    simp only [Continuation.text, List.length_append, List.length_cons] at hn hk
    have hr : c.Reads ((lead.text ++ [',']) ++ (item.text ++ more.text)) c' := by
      simpa [Continuation.text] using hr
    obtain ⟨c₁, hr₁, hr'⟩ := hr.split
    obtain ⟨c₂, hr₂, hr₃⟩ := hr'.split
    have hcomma := (Cursor.char?_eq_some_iff rfl).2 ⟨lead, hr₁⟩
    have hends : item.EndsBefore c₂.rest := by
      rw [hr₃.rest]
      exact item.endsBefore_continuation more c'.rest
    have hitem := item.read (n := n) hr₂ hends (by omega)
    obtain ⟨c₃, hmore, hclose⟩ := more.read (n := n) (k := k) hr₃ (by omega) (by omega)
    exact ⟨c₃, result_moreItems_succ.2 (.inr ⟨c₁, _, c₂, _, hcomma, hitem, hmore, rfl⟩), hclose⟩

end

end RuleTrace.BracketList
