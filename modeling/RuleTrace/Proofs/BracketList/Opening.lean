import RuleTrace.Proofs.BracketList.Language

/-!
# Texts that break off before a value

An opening is a text after which a value is to come: nothing yet, a bracket that opens a list, or an
item with the comma after it. What was read before it is complete but for the lists that are still
open.

* `Opening.count_brackets`: so many brackets are open.
* `Opening.exists_derivation`: a value and the closing brackets complete it.
* `Opening.exists_value`: so it is the start of a text that is read.
-/

namespace RuleTrace.BracketList

/-- A text that breaks off before a value, with a number of lists open. -/
inductive Opening : Nat → Text → Prop
  | start : Opening 0 []
  | bracket {k : Nat} {t : Text} (lead : Blanks) :
    Opening k t → Opening (k + 1) (t ++ (lead.text ++ ['[']))
  | comma {k : Nat} {t : Text} (item : Derivation) (lead : Blanks) :
    Opening (k + 1) t → Opening (k + 1) (t ++ (item.text ++ (lead.text ++ [','])))

/-! ## Brackets -/

theorem Blanks.count_eq_zero (b : Blanks) {c : Char} (hc : isBlank c = false) :
    b.text.count c = 0 :=
  List.count_eq_zero.2 fun h => by
    rw [b.blank c h] at hc
    cases hc

@[simp] theorem Blanks.count_open (b : Blanks) : b.text.count '[' = 0 :=
  b.count_eq_zero rfl

@[simp] theorem Blanks.count_close (b : Blanks) : b.text.count ']' = 0 :=
  b.count_eq_zero rfl

theorem Numeral.count_eq_zero (n : Numeral) {c : Char} (hc : c.isDigit = false) (hminus : '-' ≠ c) :
    n.text.count c = 0 := by
  have hdigits : n.digits.count c = 0 := List.count_eq_zero.2 fun h => by
    rw [n.digit c h] at hc
    cases hc
  rw [text]
  split
  · rw [List.count_cons_of_ne hminus, hdigits]
  · exact hdigits

mutual

/-- The brackets of a value are closed. -/
theorem Derivation.count_brackets : ∀ d : Derivation, d.text.count '[' = d.text.count ']'
  | .number lead n => by
    simp [Derivation.text, n.count_eq_zero (c := '[') rfl (by decide),
      n.count_eq_zero (c := ']') rfl (by decide)]
  | .empty lead inner => by
    simp [Derivation.text]
  | .list lead first more => by
    have hfirst := first.count_brackets
    have hmore := more.count_brackets
    simp only [Derivation.text, List.count_append, List.count_cons_self, ne_eq, Char.reduceEq,
      not_false_eq_true, List.count_cons_of_ne, Blanks.count_open, Blanks.count_close]
    omega

/-- What comes after an item closes the list that the item is in. -/
theorem Continuation.count_brackets :
    ∀ m : Continuation, m.text.count ']' = m.text.count '[' + 1
  | .close lead => by
    simp [Continuation.text]
  | .comma lead item more => by
    have hitem := item.count_brackets
    have hmore := more.count_brackets
    simp only [Continuation.text, List.count_append, ne_eq, Char.reduceEq, not_false_eq_true,
      List.count_cons_of_ne, Blanks.count_open, Blanks.count_close]
    omega

end

namespace Opening

variable {k : Nat} {t : Text}

/-- As many brackets are open as lists. -/
theorem count_brackets (h : Opening k t) : t.count '[' = t.count ']' + k := by
  induction h with
  | start => rfl
  | bracket lead _ ih =>
    simp only [List.count_append, List.count_singleton_self, List.count_singleton, Char.reduceBEq,
      Bool.false_eq_true, if_false, Blanks.count_open, Blanks.count_close]
    omega
  | comma item lead _ ih =>
    have hitem := item.count_brackets
    simp only [List.count_append, List.count_singleton, Char.reduceBEq, Bool.false_eq_true,
      if_false, Blanks.count_open, Blanks.count_close]
    omega

/-- An opening ends where the last list was opened or with the comma after an item. -/
theorem eq_nil_or_concat (h : Opening k t) :
    t = [] ∨ ∃ u c, t = u ++ [c] ∧ (c = '[' ∨ c = ',') := by
  cases h with
  | start => exact .inl rfl
  | bracket lead h => exact .inr ⟨_, '[', (List.append_assoc _ _ _).symm, .inl rfl⟩
  | @comma _ t item lead h =>
    exact .inr ⟨t ++ (item.text ++ lead.text), ',', by simp only [List.append_assoc], .inr rfl⟩

/-! ## Completion -/

end Opening

/-- No blanks. -/
def Blanks.none : Blanks :=
  ⟨[], List.all_eq_true.1 rfl⟩

/-- The number zero. -/
def Derivation.zero : Derivation :=
  .number .none ⟨false, ['0'], by decide, List.all_eq_true.1 rfl⟩

namespace Opening

variable {k : Nat} {t : Text}

/-- An item, and what comes after it in the innermost list, complete an opening with the closing
brackets of the other lists. -/
theorem exists_derivation_of_items (h : Opening k t) :
    (k = 0 → t = []) ∧ ∀ j, k = j + 1 → ∀ (item : Derivation) (more : Continuation),
      ∃ d : Derivation, d.text = t ++ (item.text ++ more.text) ++ List.replicate j ']' := by
  induction h with
  | start => exact ⟨fun _ => rfl, nofun⟩
  | @bracket k t lead _ ih =>
    refine ⟨nofun, fun j hj item more => ?_⟩
    obtain rfl : k = j := Nat.succ.inj hj
    let inner : Derivation := .list lead item more
    cases k with
    | zero =>
      refine ⟨inner, ?_⟩
      rw [ih.1 rfl]
      simp [inner, Derivation.text]
    | succ j =>
      obtain ⟨d, hd⟩ := ih.2 j rfl inner (.close .none)
      refine ⟨d, ?_⟩
      rw [hd, List.replicate_succ]
      simp [inner, Derivation.text, Continuation.text, Blanks.none]
  | @comma k t item lead _ ih =>
    refine ⟨nofun, fun j hj item' more => ?_⟩
    obtain ⟨d, hd⟩ := ih.2 j hj item (.comma lead item' more)
    refine ⟨d, ?_⟩
    rw [hd]
    simp [Continuation.text]

/-- A value and the closing brackets complete an opening. -/
theorem exists_derivation (h : Opening k t) (item : Derivation) :
    ∃ d : Derivation, d.text = t ++ (item.text ++ List.replicate k ']') := by
  obtain ⟨hnil, hlist⟩ := h.exists_derivation_of_items
  cases k with
  | zero => exact ⟨item, by rw [hnil rfl]; simp⟩
  | succ k =>
    obtain ⟨d, hd⟩ := hlist k rfl item (.close .none)
    refine ⟨d, ?_⟩
    rw [hd, List.replicate_succ]
    simp [Continuation.text, Blanks.none]

/-- The runs of digits of an opening stay as they are when a zero and brackets come after it. -/
theorem numeralsFit (h : Opening k t) (hfit : NumeralsFit t) :
    NumeralsFit (t ++ '0' :: List.replicate k ']') := by
  have hbrackets : NumeralsFit (List.replicate k ']') := by
    intro ds hds hdigit
    cases ds with
    | nil => exact Nat.zero_le _
    | cons c ds =>
      have hc := hdigit c List.mem_cons_self
      rw [List.eq_of_mem_replicate (hds.subset List.mem_cons_self)] at hc
      cases hc
  have hend : NumeralsFit ('0' :: List.replicate k ']') := by
    have hzero : NumeralsFit ['0'] := numeralsFit_of_length_le (by decide)
    refine hzero.append hbrackets (.inr fun c hc => ?_)
    rw [List.eq_of_mem_replicate (List.mem_of_mem_head? hc)]
    rfl
  -- the last character of the opening is no digit
  refine hfit.append hend (.inl fun c hc => ?_)
  rcases h.eq_nil_or_concat with rfl | ⟨u, e, rfl, rfl | rfl⟩
  · cases hc
  · obtain rfl : '[' = c := by simpa using hc
    rfl
  · obtain rfl : ',' = c := by simpa using hc
    rfl

/-- An opening without long numerals is the start of a text that is read: a zero and the closing
brackets complete it. -/
theorem exists_value (h : Opening k t) (hfit : NumeralsFit t) :
    let completed := t ++ '0' :: List.replicate k ']'
    read completed = .ok (scan completed) ∧ ∃ v, (scan completed).value = some v := by
  refine ⟨read_eq_ok (h.numeralsFit hfit), ?_⟩
  obtain ⟨d, hd⟩ := h.exists_derivation .zero
  have htext : t ++ '0' :: List.replicate k ']' = d.text := hd.symm
  rw [htext]
  exact ⟨d.value, value_scan_text d⟩

end Opening

end RuleTrace.BracketList
