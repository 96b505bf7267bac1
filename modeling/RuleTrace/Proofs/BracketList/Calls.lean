import RuleTrace.Proofs.BracketList.Language
import RuleTrace.Proofs.Call.Nested

/-!
# The calls of the reader

What the reader reports are the events of nested calls, and every call says something about the
source (`IsDerived`): one that matched has a derivation of the text that it spans, and the calls
made by it that matched span parts of that text, one after the other; one that failed spans nothing,
and no start of the text from its place on is derived by its rule.

* `recordsCall_called`: what is needed of the body of a rule.
* `recordsCall_number`, `recordsCall_list`, `recordsCall_valueWithin`: the rules.
* `nested_scan`: the reports for a whole source.
-/

namespace RuleTrace.BracketList

/-! ## What a call says -/

/-- Whether a derivation is one of a number. -/
def Derivation.isNumber : Derivation → Bool
  | .number .. => true
  | _ => false

/-- A text does not start both with a number and with a list. -/
theorem Derivation.isNumber_eq {d e : Derivation} {x y : Text} (h : d.text ++ x = e.text ++ y) :
    d.isNumber = e.isNumber := by
  cases d <;> cases e <;> simp only [Derivation.text, List.append_assoc] at h
  · rfl
  · exact absurd h (Numeral.bracket_ne _)
  · exact absurd h (Numeral.bracket_ne _)
  · exact absurd h.symm (Numeral.bracket_ne _)
  · rfl
  · rfl
  · exact absurd h.symm (Numeral.bracket_ne _)
  · rfl
  · rfl

/-- Whether a rule derives a text: a value by the rule for the whole source and the one for values,
a number or a list by the rules for these. -/
def Rule.Derives (r : Rule) (u : Text) : Prop :=
  ∃ d : Derivation, d.text = u ∧ match r with
    | .start => True
    | .value => True
    | .number => d.isNumber = true
    | .list => d.isNumber = false

/-- Parts of a source between two offsets, one after the other. -/
structure InOrder (start stop : Int) (spans : List Location) : Prop where
  within : ∀ l ∈ spans, start ≤ l.start.offset ∧ l.stop.offset ≤ stop
  disjoint : spans.Pairwise fun k l => k.stop.offset ≤ l.start.offset

theorem InOrder.nil (start stop : Int) : InOrder start stop [] where
  within := by simp
  disjoint := .nil

theorem InOrder.append {a b c : Int} {ks ls : List Location} (hks : InOrder a b ks)
    (hls : InOrder b c ls) (hab : a ≤ b) (hbc : b ≤ c) : InOrder a c (ks ++ ls) where
  within := by
    rw [List.forall_mem_append]
    refine ⟨fun k hk => ?_, fun l hl => ?_⟩
    · have := hks.within k hk
      omega
    · have := hls.within l hl
      omega
  disjoint := by
    rw [List.pairwise_append]
    refine ⟨hks.disjoint, hls.disjoint, fun k hk l hl => ?_⟩
    have := hks.within k hk
    have := hls.within l hl
    omega

/-- The parts of a source that the calls of a list span which matched. -/
def matchedSpans (calls : List EndedCall) : List Location :=
  (EndedCall.withOutcome calls .matched).map (·.location)

theorem matchedSpans_append (calls more : List EndedCall) :
    matchedSpans (calls ++ more) = matchedSpans calls ++ matchedSpans more := by
  simp [matchedSpans, EndedCall.withOutcome]

/-- What a call with the calls made by it says about the source. -/
def IsDerived (source : Text) (c : EndedCall) (callees : List EndedCall) : Prop :=
  ∃ (r : Rule) (start stop : Nat), c.rule = r.name ∧ c.entered = locate source start start ∧
    c.location = locate source start stop ∧ start ≤ stop ∧ stop ≤ source.length ∧
    match c.outcome with
    | .matched => r.Derives (source.between start stop) ∧ InOrder start stop (matchedSpans callees)
    | .failed => start = stop ∧ ∀ u, u <+: source.onward start → ¬r.Derives u

namespace Cursor

section
variable {source : Text} {c : Cursor} (h : c.Within source)
include h

theorem Within.offset_add_length : c.offset + c.rest.length = source.length := by
  obtain ⟨t, hrest, hoffset⟩ := h
  have hlength := congrArg List.length hrest
  simp only [List.length_append, Nat.zero_add] at hlength hoffset
  omega

theorem Within.onward_eq : source.onward c.offset = c.rest := by
  obtain ⟨t, hrest, hoffset⟩ := h
  have hsource : source = t ++ c.rest := hrest
  have hle : t.length ≤ source.length := by
    rw [hsource, List.length_append]
    omega
  rw [show c.offset = t.length by simpa using hoffset, Text.onward, Text.cut_natCast hle, hsource,
    List.drop_left]

theorem Within.between_eq {c' : Cursor} {t : Text} (hr : c.Reads t c') :
    source.between c.offset c'.offset = t := by
  have hoffset := (h.reads hr).offset_add_length
  have hstart := h.offset_add_length
  rw [Text.between, Text.cut_natCast (by omega), Text.cut_natCast (by omega), List.drop_take]
  exact h.between hr

end

end Cursor

/-! ## What a run records -/

namespace Run

/-- The reports of a run as events in a source. -/
def events {α : Type} (source : Text) (r : Run α) : List Event :=
  r.reports.map (·.event source)

/-- The call that a run by a rule is. -/
def call {α : Type} (source : Text) (rule : Rule) (c : Cursor) (r : Run α) : EndedCall :=
  match r.result with
  | some (_, c') => ⟨rule.name, locate source c.offset c.offset, locate source c.offset c'.offset,
      .matched⟩
  | none => ⟨rule.name, locate source c.offset c.offset, locate source c.offset c.offset, .failed⟩

/-- A run goes on from a place to a place of the source. -/
def Advances {α : Type} (source : Text) (c : Cursor) (r : Run α) : Prop :=
  ∀ a c', r.result = some (a, c') → c'.Within source ∧ c.offset ≤ c'.offset

/-- The reports of a run are those of calls, and if it succeeds then those that matched are between
its places. -/
structure Records {α : Type} (source : Text) (c : Cursor) (r : Run α) : Prop where
  advances : r.Advances source c
  calls : ∃ calls, Nested (IsDerived source) (r.events source) calls ∧
    ∀ a c', r.result = some (a, c') → InOrder c.offset c'.offset (matchedSpans calls)

/-- The reports of a run are those of one call. -/
structure RecordsCall {α : Type} (source : Text) (rule : Rule) (c : Cursor) (r : Run α) :
    Prop where
  advances : r.Advances source c
  nested : Nested (IsDerived source) (r.events source) [r.call source rule c]

section
variable {α β : Type} {source : Text} {c : Cursor}

theorem records_fail : (fail : Run α).Records source c where
  advances a c' h := by cases h
  calls := ⟨[], .nil, fun a c' h => by cases h⟩

theorem records_done (a : α) {c' : Cursor} (h : c'.Within source) (hle : c.offset ≤ c'.offset) :
    (done a c').Records source c where
  advances b d hd := by
    cases hd
    exact ⟨h, hle⟩
  calls := ⟨[], .nil, fun _ _ _ => .nil _ _⟩

/-- A run may as well be seen from a place before its own. -/
theorem Records.of_le {r : Run α} {c' : Cursor} (h : r.Records source c')
    (hle : c.offset ≤ c'.offset) : r.Records source c := by
  obtain ⟨calls, hcalls, horder⟩ := h.calls
  refine ⟨fun a d ha => ?_, calls, hcalls, fun a d ha => ?_⟩
  · obtain ⟨hwithin, hle'⟩ := h.advances a d ha
    exact ⟨hwithin, Nat.le_trans hle hle'⟩
  · have hle' := (h.advances a d ha).2
    exact (InOrder.nil c.offset c'.offset).append (horder a d ha) (by omega) (by omega)

/-- The call of a run is in order by itself. -/
theorem RecordsCall.records {rule : Rule} {r : Run α} (h : r.RecordsCall source rule c) :
    r.Records source c where
  advances := h.advances
  calls := by
    refine ⟨_, h.nested, fun a c' hr => ?_⟩
    have hspan : matchedSpans [r.call source rule c] = [locate source c.offset c'.offset] := by
      simp [matchedSpans, EndedCall.withOutcome, call, hr]
    rw [hspan]
    refine ⟨fun l hl => ?_, List.pairwise_singleton _ _⟩
    rw [List.mem_singleton.1 hl]
    exact ⟨Int.le_refl _, Int.le_refl _⟩

/-- A place after a success is behind the one before. -/
theorem Records.bind {r : Run α} {next : α → Cursor → Run β} (h : r.Records source c)
    (hnext : ∀ a c', r.result = some (a, c') → c'.Within source → c.offset ≤ c'.offset →
      (next a c').Records source c') : (r.bind next).Records source c := by
  obtain ⟨calls, hcalls, horder⟩ := h.calls
  unfold Run.bind
  split
  · exact ⟨nofun, calls, hcalls, nofun⟩
  · next a c₁ hr =>
    obtain ⟨hwithin, hle⟩ := h.advances a c₁ hr
    have hrest := hnext a c₁ hr hwithin hle
    obtain ⟨more, hmore, hmoreorder⟩ := hrest.calls
    refine ⟨fun b c' hb => ?_, calls ++ more, ?_, fun b c' hb => ?_⟩
    · obtain ⟨hwithin', hle'⟩ := hrest.advances b c' hb
      exact ⟨hwithin', Nat.le_trans hle hle'⟩
    · rw [events, List.map_append]
      exact hcalls.append hmore
    · have hle' := (hrest.advances b c' hb).2
      rw [matchedSpans_append]
      exact (horder a c₁ hr).append (hmoreorder b c' hb) (by omega) (by omega)

/-- A call that failed is not among those that matched. -/
theorem RecordsCall.orElse {rule : Rule} {r : Run α} {other : Unit → Run α}
    (h : r.RecordsCall source rule c) (hother : (other ()).Records source c) :
    (r.orElse other).Records source c := by
  unfold Run.orElse
  split
  · exact h.records
  · next hr =>
    obtain ⟨more, hmore, horder⟩ := hother.calls
    refine ⟨hother.advances, r.call source rule c :: more, ?_, fun a c' ha => ?_⟩
    · rw [events, List.map_append]
      exact h.nested.append hmore
    · have hfailed : matchedSpans (r.call source rule c :: more) = matchedSpans more := by
        simp [matchedSpans, EndedCall.withOutcome, call, hr]
      rw [hfailed]
      exact horder a c' ha

end

end Run

/-! ## Rules -/

section
variable {source : Text} {c : Cursor} (hc : c.Within source)
include hc

/-- A run by a rule records a call, if what it reads is derived by the rule and it fails only where
nothing is. -/
theorem recordsCall_called {α : Type} {rule : Rule} {body : Cursor → Run α}
    (h : (body c).Records source c)
    (hmatched : ∀ a c', (body c).result = some (a, c') → ∃ u, c.Reads u c' ∧ rule.Derives u)
    (hfailed : (body c).result = none → ∀ u, u <+: c.rest → ¬rule.Derives u) :
    (called rule c body).RecordsCall source rule c := by
  obtain ⟨calls, hcalls, horder⟩ := h.calls
  have hlength := hc.offset_add_length
  refine ⟨h.advances, ?_⟩
  have hresult : (called rule c body).result = (body c).result := rfl
  have hevents : (called rule c body).events source =
      ((called rule c body).call source rule c).enter ::
        ((body c).events source ++ [((called rule c body).call source rule c).leave]) := by
    cases hr : (body c).result <;>
      simp [Run.events, Run.call, called, hr, Report.event, EndedCall.enter, EndedCall.leave]
  rw [hevents]
  refine .call ?_ hcalls .nil
  cases hr : (body c).result with
  | none =>
    simp only [Run.call, hresult, hr]
    refine ⟨rule, c.offset, c.offset, rfl, rfl, rfl, Nat.le_refl _, by omega, rfl, ?_⟩
    rw [hc.onward_eq]
    exact hfailed hr
  | some r =>
    obtain ⟨a, c'⟩ := r
    obtain ⟨hwithin, hle⟩ := h.advances a c' hr
    have hlength' := hwithin.offset_add_length
    obtain ⟨u, hu, hderives⟩ := hmatched a c' hr
    simp only [Run.call, hresult, hr]
    refine ⟨rule, c.offset, c'.offset, rfl, rfl, rfl, hle, by omega, ?_, horder a c' hr⟩
    rw [hc.between_eq hu]
    exact hderives

end

/-! ## Failures -/

section
variable {c : Cursor}

/-- A number fails only where none comes next. -/
theorem not_derives_number (h : (number c).result = none) :
    ∀ u, u <+: c.rest → ¬Rule.Derives .number u := by
  rintro u ⟨x, hx⟩ ⟨d, rfl, hnumber⟩
  obtain ⟨e, y, hy, hends, -⟩ := d.exists_endsBefore hx.symm
  rw [Derivation.isNumber_eq (hx.trans hy)] at hnumber
  cases e with
  | number lead n =>
    rw [result_number.2 ⟨lead, n, Cursor.reads_of_append hy, hends, rfl⟩] at h
    cases h
  | empty lead inner => cases hnumber
  | list lead first more => cases hnumber

/-- A value fails only where none comes next, if the bound on the nesting is great enough. -/
theorem not_prefix_of_valueWithin {n : Nat} (hn : c.rest.length < n)
    (h : (valueWithin n c).result = none) (d : Derivation) : ¬d.text <+: c.rest := by
  rintro ⟨x, hx⟩
  obtain ⟨e, y, hy, hends, -⟩ := d.exists_endsBefore hx.symm
  have hlength := congrArg List.length hy
  rw [List.length_append] at hlength
  rw [e.read (Cursor.reads_of_append hy) hends (by omega)] at h
  cases h

/-- A list fails only where none comes next. -/
theorem not_derives_list {n : Nat} (hn : c.rest.length ≤ n)
    (h : (list (valueWithin n) c).result = none) :
    ∀ u, u <+: c.rest → ¬Rule.Derives .list u := by
  rintro u ⟨x, hx⟩ ⟨d, rfl, hlist⟩
  have hvalue : (valueWithin (n + 1) c).result = none := by
    cases hv : (valueWithin (n + 1) c).result with
    | none => rfl
    | some r =>
      rcases result_valueWithin_succ.1 hv with hnumber | ⟨-, hsome⟩
      · obtain ⟨lead, k, hr, -, -⟩ := result_number.1 hnumber
        have := Derivation.isNumber_eq (hx.trans hr.rest)
        rw [show d.isNumber = false from hlist] at this
        cases this
      · rw [h] at hsome
        cases hsome
  exact not_prefix_of_valueWithin (by omega) hvalue d ⟨x, hx⟩

end

/-! ## The rules -/

section
variable {source : Text}

theorem recordsCall_number {c : Cursor} (hc : c.Within source) :
    (number c).RecordsCall source .number c := by
  refine recordsCall_called hc ?_ (fun v c' hv => ?_) not_derives_number
  · cases hi : c.int? with
    | none => exact Run.records_fail
    | some r =>
      obtain ⟨i, c'⟩ := r
      obtain ⟨b, n, hr, -, -⟩ := Cursor.int?_eq_some_iff.1 hi
      exact Run.records_done _ (hc.reads hr) (by rw [hr.offset]; omega)
  · obtain ⟨lead, n, hr, -, -⟩ := result_number.1 hv
    exact ⟨_, hr, .number lead n, rfl, rfl⟩

section
variable {n : Nat} (hitem : ∀ {c : Cursor}, c.Within source → source.length < n + c.offset →
  (valueWithin n c).RecordsCall source .value c)
include hitem

theorem records_moreItems {k : Nat} {c : Cursor} (hc : c.Within source)
    (hn : source.length < n + c.offset) :
    (moreItems (valueWithin n) k c).Records source c := by
  induction k generalizing c with
  | zero => exact Run.records_fail
  | succ k ih =>
    rw [moreItems]
    split
    · exact Run.records_done [] hc (Nat.le_refl _)
    · next c₁ hcomma =>
      obtain ⟨b, hr⟩ := (Cursor.char?_eq_some_iff rfl).1 hcomma
      have hle : c.offset ≤ c₁.offset := by
        rw [hr.offset]
        omega
      refine Run.Records.of_le ?_ hle
      refine (hitem (hc.reads hr) (by omega)).records.bind fun v c₂ _ hc₂ hle₂ => ?_
      refine (ih hc₂ (by omega)).bind fun vs c₃ _ hc₃ hle₃ => ?_
      exact Run.records_done _ hc₃ (Nat.le_refl _)

theorem records_items {c : Cursor} (hc : c.Within source) (hn : source.length < n + c.offset) :
    (items (valueWithin n) c).Records source c := by
  have hfirst := hitem hc hn
  unfold items
  dsimp only
  split
  · next hnone =>
    -- the first item is tried in vain, and the reader is back before it
    have hfailed : matchedSpans [(valueWithin n c).call source .value c] = [] := by
      simp [matchedSpans, EndedCall.withOutcome, Run.call, hnone]
    refine ⟨fun a c' ha => ?_, _, hfirst.nested, fun a c' ha => ?_⟩
    · cases ha
      exact ⟨hc, Nat.le_refl _⟩
    · rw [hfailed]
      exact .nil _ _
  · refine hfirst.records.bind fun v c₁ _ hc₁ hle₁ => ?_
    refine (records_moreItems hitem hc₁ (by omega)).bind fun vs c₂ _ hc₂ hle₂ => ?_
    exact Run.records_done _ hc₂ (Nat.le_refl _)

theorem recordsCall_list {c : Cursor} (hc : c.Within source)
    (hn : source.length ≤ n + c.offset) :
    (list (valueWithin n) c).RecordsCall source .list c := by
  have hlength := hc.offset_add_length
  refine recordsCall_called hc ?_ (fun v c' hv => ?_) (not_derives_list (by omega))
  · split
    · exact Run.records_fail
    · next c₁ hopen =>
      obtain ⟨b, hr⟩ := (Cursor.char?_eq_some_iff rfl).1 hopen
      have hoffset := hr.offset
      rw [List.length_append, List.length_singleton] at hoffset
      have hle : c.offset ≤ c₁.offset := by omega
      refine Run.Records.of_le ?_ hle
      refine (records_items hitem (hc.reads hr) (by omega)).bind fun vs c₂ _ hc₂ hle₂ => ?_
      split
      · exact Run.records_fail
      · next c₃ hclose =>
        obtain ⟨b', hr'⟩ := (Cursor.char?_eq_some_iff rfl).1 hclose
        exact Run.records_done _ (hc₂.reads hr') (by rw [hr'.offset]; omega)
  · obtain ⟨d, hr, -, -⟩ := derivation_of_list (derivation_of_valueWithin n) c v c' hv
    refine ⟨_, hr, d, rfl, ?_⟩
    obtain ⟨c₁, -, -, hopen, -⟩ := result_list.1 hv
    obtain ⟨lead, hlead⟩ := (Cursor.char?_eq_some_iff rfl).1 hopen
    cases d with
    | number lead' k =>
      have heq := hr.rest.symm.trans hlead.rest
      simp only [Derivation.text, List.append_assoc] at heq
      exact absurd heq k.bracket_ne
    | empty lead' inner => rfl
    | list lead' first more => rfl

end

theorem recordsCall_valueWithin (n : Nat) {c : Cursor} (hc : c.Within source)
    (hn : source.length < n + c.offset) : (valueWithin n c).RecordsCall source .value c := by
  have hlength := hc.offset_add_length
  induction n generalizing c with
  | zero => omega
  | succ n ih =>
    refine recordsCall_called hc ?_ (fun v c' hv => ?_) fun hv u hu => ?_
    · have hlist := recordsCall_list (fun hc hn => ih hc hn hc.offset_add_length) hc (by omega)
      exact (recordsCall_number hc).orElse hlist.records
    · obtain ⟨d, hr, -, -⟩ := derivation_of_valueWithin (n + 1) c v c' hv
      exact ⟨_, hr, d, rfl, trivial⟩
    · rintro ⟨d, rfl, -⟩
      have hnone : (valueWithin (n + 1) c).result = none := hv
      exact not_prefix_of_valueWithin (by omega) hnone d hu

/-- The reports for a whole source are those of one call, by the rule for the source. -/
theorem nested_scan (source : Text) :
    ∃ c, c.rule = Rule.start.name ∧
      Nested (IsDerived source) ((scan source).reports.map (·.event source)) [c] := by
  have hstart := Cursor.within_start source
  have hvalue : (value ⟨0, source⟩).RecordsCall source .value ⟨0, source⟩ :=
    recordsCall_valueWithin _ hstart (by simp)
  have hcall : (called .start ⟨0, source⟩ value).RecordsCall source .start ⟨0, source⟩ := by
    refine recordsCall_called hstart hvalue.records (fun v c' hv => ?_) fun hv u hu => ?_
    · obtain ⟨d, hr, -, -⟩ := derivation_of_valueWithin _ _ v c' hv
      exact ⟨_, hr, d, rfl, trivial⟩
    · rintro ⟨d, rfl, -⟩
      exact not_prefix_of_valueWithin (Nat.lt_succ_self _) hv d hu
  refine ⟨(called .start ⟨0, source⟩ value).call source .start ⟨0, source⟩, ?_, ?_⟩
  · unfold Run.call
    split <;> rfl
  · rw [reports_scan]
    exact hcall.nested

end

end RuleTrace.BracketList
