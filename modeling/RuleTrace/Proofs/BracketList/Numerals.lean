import RuleTrace.Proofs.BracketList.Reading

/-!
# The numerals that are read

A number that is reported as read is a numeral of the source. So a source is read whatever it
holds, as long as none of its runs of digits is longer than a numeral may be.

* `read_eq_ok`: reading such a source is not refused.
-/

namespace RuleTrace.BracketList

/-! ## Places of a source -/

/-- The place `c` is a place of the source. -/
def Cursor.Within (source : Text) (c : Cursor) : Prop :=
  ∃ t, (⟨0, source⟩ : Cursor).Reads t c

namespace Cursor

section
variable {source : Text} {c c' : Cursor}

theorem within_start (source : Text) : (⟨0, source⟩ : Cursor).Within source :=
  ⟨[], rfl, rfl⟩

theorem Within.reads (h : c.Within source) {t : Text} (hr : c.Reads t c') : c'.Within source := by
  obtain ⟨u, hu⟩ := h
  exact ⟨u ++ t, hu.append hr⟩

/-- The text between two places. -/
theorem Within.between (h : c.Within source) {t : Text} (hr : c.Reads t c') :
    (source.drop c.offset).take (c'.offset - c.offset) = t := by
  obtain ⟨u, hrest, hoff⟩ := h
  have hsource : source = u ++ (t ++ c'.rest) := hrest.trans (by rw [hr.rest])
  have hc : c.offset = u.length := by simpa using hoff
  have hlen : c'.offset - c.offset = t.length := by
    rw [hr.offset]
    omega
  rw [hlen, hc, hsource, List.drop_left, List.take_left]

theorem Within.char? (h : c.Within source) {e : Char} (he : isBlank e = false)
    (hc : c.char? e = some c') : c'.Within source := by
  obtain ⟨b, hr⟩ := (char?_eq_some_iff he).1 hc
  exact h.reads hr

end

end Cursor

/-! ## What runs report -/

/-- Every report of a number that was read is about a numeral of the source. -/
def ReportsNumerals (source : Text) (reports : List Report) : Prop :=
  ∀ r ∈ reports, r.kind = .leave .matched → r.rule = .number → ∃ (lead : Blanks) (n : Numeral),
    (source.drop r.start).take (r.stop - r.start) = lead.text ++ n.text

/-- A run in a source: its reports are about numerals of the source, and it stops at a place of
it. -/
structure Run.InSource {α : Type} (source : Text) (r : Run α) : Prop where
  reports : ReportsNumerals source r.reports
  result : ∀ a c, r.result = some (a, c) → c.Within source

theorem ReportsNumerals.append {source : Text} {l m : List Report}
    (hl : ReportsNumerals source l) (hm : ReportsNumerals source m) :
    ReportsNumerals source (l ++ m) := by
  intro r hr
  rcases List.mem_append.1 hr with h | h
  · exact hl r h
  · exact hm r h

namespace Run

variable {α β : Type} {source : Text}

theorem inSource_fail : (fail : Run α).InSource source where
  reports r hr := absurd hr List.not_mem_nil
  result a c h := by cases h

theorem inSource_done (a : α) {c : Cursor} (h : c.Within source) : (done a c).InSource source where
  reports r hr := absurd hr List.not_mem_nil
  result b c' hb := by
    cases hb
    exact h

theorem InSource.bind {r : Run α} {next : α → Cursor → Run β} (h : r.InSource source)
    (hnext : ∀ a c, c.Within source → (next a c).InSource source) :
    (r.bind next).InSource source := by
  unfold Run.bind
  split
  · exact ⟨h.reports, fun a c hc => by cases hc⟩
  · next a c hr =>
    have hn := hnext a c (h.result a c hr)
    exact ⟨h.reports.append hn.reports, hn.result⟩

theorem InSource.orElse {r : Run α} {other : Unit → Run α} (h : r.InSource source)
    (hother : (other ()).InSource source) : (r.orElse other).InSource source := by
  unfold Run.orElse
  split
  · exact h
  · exact ⟨h.reports.append hother.reports, hother.result⟩

/-- A rule adds a report of its own, which is about a numeral if the rule is that of numbers. -/
theorem InSource.called {rule : Rule} {c : Cursor} {body : Cursor → Run α}
    (h : (body c).InSource source)
    (hnumber : rule = .number → ∀ a c', (body c).result = some (a, c') →
      ∃ (lead : Blanks) (n : Numeral),
        (source.drop c.offset).take (c'.offset - c.offset) = lead.text ++ n.text) :
    (called rule c body).InSource source := by
  refine ⟨fun r hr hkind hrule => ?_, h.result⟩
  simp only [BracketList.called, List.cons_append, List.mem_cons, List.mem_append,
    List.not_mem_nil, or_false] at hr
  rcases hr with rfl | hr | hr
  · cases hkind
  · exact h.reports r hr hkind hrule
  · subst hr
    cases hb : (body c).result with
    | none => simp [hb] at hkind
    | some x =>
      simp only [hb] at hrule ⊢
      exact hnumber hrule x.1 x.2 hb

end Run

/-! ## The rules -/

section
variable {source : Text} {c : Cursor}

theorem inSource_number (h : c.Within source) : (number c).InSource source := by
  have hbody : ∀ v c', (number c).result = some (v, c') → ∃ (lead : Blanks) (n : Numeral),
      c.Reads (lead.text ++ n.text) c' := by
    intro v c' hv
    obtain ⟨lead, n, hr, -, -⟩ := result_number.1 hv
    exact ⟨lead, n, hr⟩
  refine Run.InSource.called ⟨?_, fun v c' hv => ?_⟩ fun _ v c' hv => ?_
  · cases c.int? <;> exact fun r hr => absurd hr List.not_mem_nil
  · obtain ⟨lead, n, hr⟩ := hbody v c' hv
    exact h.reads hr
  · obtain ⟨lead, n, hr⟩ := hbody v c' hv
    exact ⟨lead, n, h.between hr⟩

section
variable {item : Cursor → Run Value}
  (hitem : ∀ {c : Cursor}, c.Within source → (item c).InSource source)
include hitem

theorem inSource_moreItems {n : Nat} (h : c.Within source) :
    (moreItems item n c).InSource source := by
  induction n generalizing c with
  | zero => exact Run.inSource_fail
  | succ n ih =>
    rw [moreItems]
    split
    · exact Run.inSource_done [] h
    · next c₁ hc =>
      refine (hitem (h.char? rfl hc)).bind fun v c₂ h₂ => ?_
      exact (ih h₂).bind fun vs c₃ h₃ => Run.inSource_done _ h₃

theorem inSource_items (h : c.Within source) : (items item c).InSource source := by
  unfold items
  dsimp only
  split
  · exact ⟨(hitem h).reports, fun a c' hc => by cases hc; exact h⟩
  · refine (hitem h).bind fun v c₁ h₁ => ?_
    exact (inSource_moreItems hitem h₁).bind fun vs c₂ h₂ => Run.inSource_done _ h₂

theorem inSource_list (h : c.Within source) : (list item c).InSource source := by
  refine Run.InSource.called ?_ fun hrule => by cases hrule
  split
  · exact Run.inSource_fail
  · next c₁ hopen =>
    refine (inSource_items hitem (h.char? rfl hopen)).bind fun vs c₂ h₂ => ?_
    split
    · exact Run.inSource_fail
    · next c₃ hclose => exact Run.inSource_done _ (h₂.char? rfl hclose)

end

theorem inSource_valueWithin (n : Nat) (h : c.Within source) :
    (valueWithin n c).InSource source := by
  induction n generalizing c with
  | zero => exact Run.inSource_fail
  | succ n ih =>
    refine Run.InSource.called ?_ fun hrule => by cases hrule
    exact (inSource_number h).orElse (inSource_list ih h)

end

/-! ## Sources without long numerals -/

/-- No run of digits of a source is longer than a numeral may be. -/
def NumeralsFit (source : Text) : Prop :=
  ∀ ds, ds <:+: source → (∀ c ∈ ds, c.isDigit = true) → ds.length ≤ Decimal.maxDigits

theorem numeralsFit_of_length_le {t : Text} (h : t.length ≤ Decimal.maxDigits) : NumeralsFit t :=
  fun _ hds _ => Nat.le_trans hds.length_le h

/-- A text that is put together where no run of digits goes on. -/
theorem NumeralsFit.append {a b : Text} (ha : NumeralsFit a) (hb : NumeralsFit b)
    (h : (∀ c ∈ a.getLast?, c.isDigit = false) ∨ ∀ c ∈ b.head?, c.isDigit = false) :
    NumeralsFit (a ++ b) := by
  intro ds hds hdigit
  rcases List.infix_append_iff.1 hds with hds | hds | ⟨l, m, rfl, hl, hm⟩
  · exact ha ds hds hdigit
  · exact hb ds hds hdigit
  · rcases List.eq_nil_or_concat l with rfl | ⟨l', c, rfl⟩
    · exact hb m hm.isInfix hdigit
    · cases m with
      | nil =>
        rw [List.append_nil] at hdigit ⊢
        exact ha _ hl.isInfix hdigit
      | cons e m =>
        -- a run of digits that goes on
        exfalso
        rcases h with h | h
        · obtain ⟨u, rfl⟩ := hl
          have := h c (by simp)
          rw [hdigit c (by simp)] at this
          cases this
        · obtain ⟨u, rfl⟩ := hm
          have := h e (by simp)
          rw [hdigit e (by simp)] at this
          cases this

theorem NumeralsFit.cons {c : Char} {t : Text} (ht : NumeralsFit t) (hc : c.isDigit = false) :
    NumeralsFit (c :: t) := by
  have hone : NumeralsFit [c] := numeralsFit_of_length_le (by rw [List.length_singleton]; decide)
  exact hone.append ht (.inl fun e he => by cases he; exact hc)

theorem countP_isDigit_numeral (lead : Blanks) (n : Numeral) :
    (lead.text ++ n.text).countP Char.isDigit = n.digits.length := by
  have hlead : lead.text.countP Char.isDigit = 0 := by
    refine List.countP_eq_zero.2 fun c hc => ?_
    rw [isDigit_eq_false_of_isBlank (lead.blank c hc)]
    decide
  have hdigits : n.digits.countP Char.isDigit = n.digits.length :=
    List.countP_eq_length.2 n.digit
  rw [List.countP_append, hlead, Nat.zero_add, Numeral.text]
  split
  · rw [List.countP_cons_of_neg (by decide), hdigits]
  · exact hdigits

theorem digitCount_le {source : Text} (hfit : NumeralsFit source) {reports : List Report}
    (h : ReportsNumerals source reports) {r : Report} (hr : r ∈ reports) :
    r.digitCount source ≤ Decimal.maxDigits := by
  unfold Report.digitCount
  split
  · next hk =>
    obtain ⟨lead, n, htext⟩ := h r hr hk.1 hk.2
    have hspan : lead.text ++ n.text <:+: source := by
      rw [← htext]
      exact (List.take_prefix _ _).isInfix.trans (List.drop_suffix _ _).isInfix
    have hdigits : n.digits <:+: lead.text ++ n.text := by
      refine List.IsInfix.trans ?_ (List.suffix_append _ _).isInfix
      unfold Numeral.text
      split
      · exact (List.suffix_cons _ _).isInfix
      · exact List.infix_rfl
    rw [htext, countP_isDigit_numeral]
    exact hfit _ (hdigits.trans hspan) n.digit
  · exact Nat.zero_le _

/-- What is reported for a whole source. -/
theorem reports_scan (source : Text) :
    (scan source).reports = (called .start ⟨0, source⟩ value).reports := by
  unfold scan
  dsimp only
  split <;> rfl

/-- A source without long numerals is not refused. -/
theorem read_eq_ok {source : Text} (hfit : NumeralsFit source) :
    read source = .ok (scan source) := by
  have hvalue : (called .start ⟨0, source⟩ value).InSource source :=
    Run.InSource.called (inSource_valueWithin _ (Cursor.within_start source)) fun h => by cases h
  unfold read
  dsimp only
  have hnone : ((scan source).reports.map (·.digitCount source)).find?
      (Decimal.maxDigits < ·) = none := by
    rw [List.find?_eq_none]
    intro k hk
    obtain ⟨r, hr, rfl⟩ := List.mem_map.1 hk
    have hle := digitCount_le hfit (reports_scan source ▸ hvalue.reports) hr
    simpa using hle
  rw [hnone]

end RuleTrace.BracketList
