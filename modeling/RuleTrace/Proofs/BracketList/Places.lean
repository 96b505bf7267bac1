import RuleTrace.Proofs.BracketList.Record
import RuleTrace.Proofs.BracketList.Turns
import RuleTrace.Proofs.BracketList.Unbounded
import RuleTrace.Proofs.Call.Starts
import RuleTrace.Proofs.Source.LineEnds

/-!
# Where the calls of a reading start

The calls of a reading start where its reports say that a rule was entered, in their order. So what
is known about the order of the rules is seen in the tree.

* `exists_recordAll_scan`: a tracer takes the reports of the reader, and its calls start there.
* `recordAll_read_viable`: what comes before a failure is the start of a text that is accepted.
* `recordAll_read_onward`: the reader ends, never goes back, and makes few calls.
-/

namespace RuleTrace.BracketList

/-! ## The tree of a reading -/

theorem enterOffsets_event (source : Text) (reports : List Report) :
    enterOffsets (reports.map (·.event source)) =
      (reports.filter (·.kind = .enter)).map fun r => (r.start : Int) := by
  rw [enterOffsets, List.filter_map, List.map_map]
  rfl

/-- A new tracer takes all reports of the reader, if the length of the source can be written, and
its greatest column can be or the live trace is off. The calls start where the rules were
entered. -/
theorem exists_recordAll_scan (source : Text) {setup : TracerSetup} {t : Tracer}
    (ht : Tracer.ofSetup setup = .ok t) (hlength : Decimal.fits source.length = true)
    (hsize : setup.options.showTrace = true → Decimal.fits (source.length + 1) = true) :
    ∃ t' activities,
      t.recordAll ((scan source).reports.map (·.event source)) = .ok (t', activities) ∧
      CallTree.empty.Started t'.tree ((scan source).reports.map (·.event source)) := by
  obtain ⟨hempty, hshow⟩ := Tracer.tree_ofSetup ht
  obtain ⟨c, -, hnested⟩ := nested_scan source
  obtain ⟨v, hv, -⟩ := hnested.applyAll CallTree.inv_empty
  have hstarted := hnested.started (fun d callees hd => ?_) CallTree.inv_empty hv
  · rw [← hempty] at hv
    have hoffsets := hnested.forall_events
      (Q := fun e => Decimal.fits e.location.start.offset = true) (fits_of_isDerived hlength)
    obtain ⟨t', activities, hrecord, rfl⟩ := Tracer.recordAll_of_applyAll hv hoffsets fun hon =>
      hnested.forall_events (Q := fun e => e.location.isWritable = true)
        (isWritable_of_isDerived (hsize (hshow ▸ hon)))
    exact ⟨t', activities, hrecord, hstarted⟩
  · obtain ⟨r, start, stop, -, hentered, hlocation, -⟩ := hd
    rw [hentered, hlocation]
    rfl

/-- The calls start where a value is expected. -/
theorem exists_opening_of_mem_starts {source : Text} {v : CallTree}
    (h : CallTree.empty.Started v ((scan source).reports.map (·.event source))) {o : Int}
    (ho : o ∈ v.starts) : ∃ n k : Nat, o = n ∧ n ≤ source.length ∧ Opening k (source.take n) := by
  rw [h.starts, CallTree.starts_empty, enterOffsets_event, List.singleton_append,
    List.mem_cons] at ho
  rcases ho with rfl | ho
  · exact ⟨0, 0, rfl, Nat.zero_le _, .start⟩
  · obtain ⟨r, hr, rfl⟩ := List.mem_map.1 ho
    have hin := (List.mem_filter.1 hr).1
    rw [reports_scan] at hin
    obtain ⟨⟨k, c, hc, hstart⟩, -⟩ := (inTurn_scan source).expected r hin
    obtain ⟨hopening, hle⟩ := hc.opening
    rw [hstart] at hopening hle
    exact ⟨r.start, k, rfl, hle, hopening⟩

/-! ## Texts that are accepted -/

/-- A text is one value, and a tracer with default options takes it and all reports of the
reader. -/
def IsAccepted (text : Text) : Prop :=
  ∃ reading v, read text = .ok reading ∧ reading.value = some v ∧ ∀ sink, ∃ t t' activities,
    Tracer.ofSetup { source := some text, sink } = .ok t ∧
    t.recordAll (reading.reports.map (·.event text)) = .ok (t', activities)

/-- A text without unsupported line boundaries is taken by a tracer with default options. -/
theorem exists_ofSetup {text : Text} (h : ∀ c ∈ text, Text.isUnsupportedBreak c = false)
    (sink : Sink) : ∃ t, Tracer.ofSetup { source := some text, sink } = .ok t := by
  rcases Source.ofText_cases text with ⟨-, hok⟩ | ⟨a, c, u, rfl, -, hc, -⟩
  · refine ⟨⟨{}, ⟨text.normalize.lines⟩, [], sink, .empty⟩, ?_⟩
    simp only [Tracer.ofSetup, Source.ofText?, hok]
    rfl
  · rw [h c (by simp)] at hc
    cases hc

theorem supported_of_ofSetup {setup : TracerSetup} {t : Tracer} (ht : Tracer.ofSetup setup = .ok t)
    {source : Text} (hsource : setup.source = some source) :
    ∀ c ∈ source, Text.isUnsupportedBreak c = false := by
  obtain ⟨s, hidden, hs, -⟩ := Tracer.ofSetup_eq_ok ht
  rw [hsource] at hs
  rcases Source.ofText_cases source with ⟨hall, -⟩ | ⟨a, c, u, -, -, -, herror⟩
  · exact hall
  · exact nomatch hs.symm.trans herror

theorem isAccepted_of_scan {text : Text} (hread : read text = .ok (scan text)) {v : Value}
    (hvalue : (scan text).value = some v) (hlength : Decimal.fits text.length = true)
    (hsupported : ∀ c ∈ text, Text.isUnsupportedBreak c = false) : IsAccepted text := by
  refine ⟨scan text, v, hread, hvalue, fun sink => ?_⟩
  obtain ⟨t, ht⟩ := exists_ofSetup hsupported sink
  obtain ⟨t', activities, hrecord, -⟩ := exists_recordAll_scan text ht hlength nofun
  exact ⟨t, t', activities, ht, hrecord⟩

/-- The text before an offset of a source has some more opening brackets than closing ones, and is
completed to a text that is accepted by a zero and so many closing brackets. -/
def IsViable (source : Text) (o : Int) : Prop :=
  ∃ n k : Nat, o = n ∧ n ≤ source.length ∧
    (source.take n).count '[' = (source.take n).count ']' + k ∧
    IsAccepted (source.take n ++ '0' :: List.replicate k ']')

/-- What comes before an offset that is viable starts no text that is refused whatever follows. -/
theorem IsViable.lt {source : Text} {o : Int} (h : IsViable source o) {m : Nat}
    (hm : ∀ u, source.take m <+: u → ¬IsAccepted u) : o < m := by
  obtain ⟨n, k, rfl, -, -, haccepted⟩ := h
  by_contra hle
  have hstart : source.take m <+: source.take n := List.take_prefix_take_left (by omega)
  exact hm _ (hstart.trans (List.prefix_append _ _)) haccepted

theorem isViable_of_opening {source : Text} (hfit : NumeralsFit source)
    (hlength : Decimal.fits (2 * source.length + 1) = true)
    (hsupported : ∀ c ∈ source, Text.isUnsupportedBreak c = false) {n k : Nat}
    (hn : n ≤ source.length) (h : Opening k (source.take n)) : IsViable source n := by
  have hstart := List.take_prefix n source
  obtain ⟨hread, v, hvalue⟩ := h.exists_value fun ds hds => hfit ds (hds.trans hstart.isInfix)
  -- at most as many brackets are open as there are characters
  have hopen : k ≤ n := by
    have hcount := h.count_brackets
    have hle := List.count_le_length (a := '[') (l := source.take n)
    rw [List.length_take] at hle
    omega
  have hcompleted : Decimal.fits (source.take n ++ '0' :: List.replicate k ']').length = true := by
    refine Decimal.fits_of_le ?_ hlength
    simp only [List.length_append, List.length_take, List.length_cons, List.length_replicate]
    omega
  refine ⟨n, k, rfl, hn, h.count_brackets,
    isAccepted_of_scan hread hvalue hcompleted fun c hc => ?_⟩
  simp only [List.mem_append, List.mem_cons, List.mem_replicate] at hc
  rcases hc with hc | rfl | ⟨-, rfl⟩
  · exact hsupported c (hstart.subset hc)
  · rfl
  · rfl

/-! ## Failures -/

/-- A source without numerals that are too long is read, and a tracer of it takes all reports of the
reader. What comes before a call that failed, and so what comes before the furthest failure, has no
more closing brackets than opening ones, and a zero with the closing brackets that are missing
completes it to a text that is accepted. If no text that starts as the source does is accepted, the
failures are before the end of that start. The log tells the offsets of failures and the live trace
columns, so the length of the source is to be one that can be written, and so is that of what
completes a part of it. -/
theorem recordAll_read_viable (source : Text) (hfit : NumeralsFit source)
    (hlength : Decimal.fits (2 * source.length + 1) = true) :
    ∃ reading, read source = .ok reading ∧ ∀ setup t, setup.source = some source →
      Tracer.ofSetup setup = .ok t → ∃ t' activities,
        t.recordAll (reading.reports.map (·.event source)) = .ok (t', activities) ∧
        ∀ o, (o = t'.tree.furthest ∨ ∃ i < t'.tree.nodes.length,
            (t'.tree.node i).state = .resolved .failed ∧
            (t'.tree.node i).location.start.offset = o) →
          IsViable source o ∧
            ∀ m : Nat, (∀ u, source.take m <+: u → ¬IsAccepted u) → o < m := by
  refine ⟨scan source, read_eq_ok hfit, fun setup t hsource ht => ?_⟩
  have hshort : Decimal.fits source.length = true := Decimal.fits_of_le (by omega) hlength
  have hcolumns : Decimal.fits (source.length + 1) = true :=
    Decimal.fits_of_le (by omega) hlength
  obtain ⟨t', activities, hrecord, hstarted⟩ :=
    exists_recordAll_scan source ht hshort fun _ => hcolumns
  refine ⟨t', activities, hrecord, fun o ho => ?_⟩
  have hstart : o ∈ t'.tree.starts := by
    rcases ho with rfl | ⟨i, hi, -, hoffset⟩
    · exact hstarted.furthest_mem
    · exact CallTree.mem_starts.2 ⟨i, hi, hoffset⟩
  obtain ⟨n, k, rfl, hn, hopening⟩ := exists_opening_of_mem_starts hstarted hstart
  have hviable := isViable_of_opening hfit hlength (supported_of_ofSetup ht hsource) hn hopening
  exact ⟨hviable, fun m => hviable.lt⟩

/-- A list in which a comma is missing: its furthest failure is after the first comma, since what
comes before it is all that a value is expected after. -/
theorem recordAll_read_viable_missingComma :
    let source := "[1, [2 3]]".toList
    NumeralsFit source ∧ Decimal.fits (2 * source.length + 1) = true ∧ IsViable source 3 ∧
      IsAccepted "[1,0]".toList := by
  intro source
  have hfit : NumeralsFit source := numeralsFit_of_length_le (by decide)
  have hlength : Decimal.fits (2 * source.length + 1) = true := by decide
  let t : Tracer := ⟨{}, ⟨[source]⟩, [], ⟨false, false⟩, .empty⟩
  have ht : Tracer.ofSetup { source := some source, sink := ⟨false, false⟩ } = .ok t := rfl
  have hfurthest : ∀ t' activities,
      t.recordAll ((scan source).reports.map (·.event source)) = .ok (t', activities) →
        t'.tree.furthest = 3 := by
    have heval : (t.recordAll ((scan source).reports.map (·.event source))).map
        (·.1.tree.furthest) = .ok 3 := by decide +kernel
    intro t' activities h
    rw [h] at heval
    exact Except.ok.inj heval
  obtain ⟨reading, hread, htrace⟩ := recordAll_read_viable source hfit hlength
  obtain rfl : scan source = reading := Except.ok.inj ((read_eq_ok hfit).symm.trans hread)
  obtain ⟨t', activities, hrecord, hviable⟩ := htrace _ t rfl ht
  have hthree : IsViable source 3 := (hviable 3 (.inl (hfurthest t' activities hrecord).symm)).1
  refine ⟨hfit, hlength, hthree, ?_⟩
  obtain ⟨n, k, hn, -, hk, haccepted⟩ := hthree
  obtain rfl : n = 3 := by omega
  obtain rfl : 1 = k := Nat.add_left_cancel hk
  exact haccepted

/-! ## The way through a source -/

/-- The places of the reports of the reader only grow. -/
theorem pairwise_starts_scan {source : Text} {v : CallTree}
    (h : CallTree.empty.Started v ((scan source).reports.map (·.event source))) :
    v.starts.Pairwise (· ≤ ·) := by
  rw [h.starts, CallTree.starts_empty, enterOffsets_event, List.singleton_append,
    List.pairwise_cons]
  refine ⟨fun o ho => ?_, ?_⟩
  · obtain ⟨r, -, rfl⟩ := List.mem_map.1 ho
    exact Int.natCast_nonneg r.start
  · have hsorted := (inTurn_scan source).sorted
    rw [← reports_scan, turns, List.pairwise_map] at hsorted
    refine List.pairwise_map.2 (hsorted.imp fun {r s} hlt => ?_)
    have hrank : s.rule.rank ≤ 3 := by cases s.rule <;> decide
    simp only [Report.turn] at hlt
    omega

theorem callCount_scan_le {source : Text} {v : CallTree}
    (h : CallTree.empty.Started v ((scan source).reports.map (·.event source))) :
    v.callCount ≤ 4 + 3 * (source.count '[' + source.count ',') := by
  have hlength := congrArg List.length h.starts
  rw [CallTree.length_starts, CallTree.starts_empty, enterOffsets_event, List.length_append,
    List.length_map, List.length_singleton] at hlength
  have hle := length_turns_scan_le source
  rw [turns, List.length_map] at hle
  rw [CallTree.callCount]
  omega

/-- The reader ends on every source, without any bound on the nesting or the count of items, and
each of its rules does at every place; a rule that fails leaves the place where it was entered. If
no numeral of the source is too long, then so it is read, and a tracer takes all its reports, if its
live trace is off or the greatest column of the source can be written. The calls start in the order
of their numbers then, and there are at most four, and three more for every opening bracket and
every comma. The log tells the offsets of failures, so the length of the source is to be one that
can be written. -/
theorem recordAll_read_onward (source : Text) (hfit : NumeralsFit source)
    (hlength : Decimal.fits source.length = true) :
    ∃ reading, read source = .ok reading ∧ Ends (scanUnbounded · source) reading ∧
      (∀ rule c, ∃ e, Ends (readBy · rule c) e ∧ (e.result = none → e.place = c)) ∧
      ∀ setup t, Tracer.ofSetup setup = .ok t →
        (setup.options.showTrace = true → Decimal.fits (source.length + 1) = true) →
        ∃ t' activities,
          t.recordAll (reading.reports.map (·.event source)) = .ok (t', activities) ∧
          (∀ i j, i ≤ j → j < t'.tree.nodes.length →
            (t'.tree.node i).location.start.offset ≤ (t'.tree.node j).location.start.offset) ∧
          t'.tree.callCount ≤ 4 + 3 * (source.count '[' + source.count ',') := by
  refine ⟨scan source, read_eq_ok hfit, ends_scanUnbounded source, ends_readBy,
    fun setup t ht hsize => ?_⟩
  obtain ⟨t', activities, hrecord, hstarted⟩ := exists_recordAll_scan source ht hlength hsize
  exact ⟨t', activities, hrecord,
    fun i j => CallTree.pairwise_starts (pairwise_starts_scan hstarted),
    callCount_scan_le hstarted⟩

/-- A list that breaks off after a comma, with two lists in it: at most nineteen calls are made, in
the order of their places. -/
theorem recordAll_read_onward_unclosed :
    let source := "[[], [1,".toList
    NumeralsFit source ∧ Decimal.fits source.length = true ∧
      ∃ reading t t' activities, Ends (scanUnbounded · source) reading ∧
        Tracer.ofSetup { source := some source, sink := ⟨true, false⟩ } = .ok t ∧
        t.recordAll (reading.reports.map (·.event source)) = .ok (t', activities) ∧
        t'.tree.starts = [0, 0, 0, 0, 0, 1, 1, 1, 2, 2, 2, 4, 4, 4, 6, 6, 8, 8, 8] ∧
        t'.tree.callCount ≤ 19 := by
  intro source
  have hfit : NumeralsFit source := numeralsFit_of_length_le (by decide)
  have hlength : Decimal.fits source.length = true := by decide
  let t : Tracer := ⟨{}, ⟨[source]⟩, [], ⟨true, false⟩, .empty⟩
  have ht : Tracer.ofSetup { source := some source, sink := ⟨true, false⟩ } = .ok t := rfl
  obtain ⟨reading, hread, hends, -, htrace⟩ := recordAll_read_onward source hfit hlength
  obtain rfl : scan source = reading := Except.ok.inj ((read_eq_ok hfit).symm.trans hread)
  obtain ⟨t', activities, hrecord, -, hcount⟩ := htrace _ t ht nofun
  have hstarts : (t.recordAll ((scan source).reports.map (·.event source))).map
      (·.1.tree.starts) = .ok [0, 0, 0, 0, 0, 1, 1, 1, 2, 2, 2, 4, 4, 4, 6, 6, 8, 8, 8] := by
    decide +kernel
  rw [hrecord] at hstarts
  exact ⟨hfit, hlength, scan source, t, t', activities, hends, ht, hrecord,
    Except.ok.inj hstarts, hcount⟩

end RuleTrace.BracketList
