import RuleTrace.BracketList.Command
import RuleTrace.Proofs.BracketList.Places
import RuleTrace.Proofs.Results
import RuleTrace.Proofs.Tracer.BrokenSink

/-!
# Printing and reading

The text that is printed for a value has a derivation, with a blank after every comma and no other
one, and this denotes the value. So it is read as the value again, if the integers of the value are
short enough to be written (`Value.fits`). All values that the reader comes to are such values.

* `Value.text_derivation`, `Value.value_derivation`: the derivation of a printed text.
* `scan_print`, `Value.numeralsFit_print`: a printed text is read as the value.
* `fits_of_read`: what is read can be printed.
* `run_print`: the command prints a printed text as it is, and so its own output.
-/

namespace RuleTrace

/-- A tracer whose live trace is off writes nothing for any events. -/
theorem Tracer.written_recordAll {t t' : Tracer} (h : t.options.showTrace = false) {es : List Event}
    {activities : List Activity} (hrecord : t.recordAll es = .ok (t', activities)) :
    activities.flatMap (·.written) = [] := by
  induction es generalizing t activities with
  | nil =>
    obtain ⟨-, rfl⟩ := Prod.mk.inj (Except.ok.inj hrecord)
    rfl
  | cons e es ih =>
    obtain ⟨htracer, hwritten⟩ := Tracer.record_of_silent h e
    have hshow : (t.record e).tracer.options.showTrace = false := by
      rw [htracer, Tracer.options_take, h]
    obtain ⟨_, -, hrecord⟩ := bind_eq_ok.1 hrecord
    obtain ⟨⟨t'', rest⟩, hrest, hrecord⟩ := bind_eq_ok.1 hrecord
    obtain ⟨rfl, rfl⟩ := Prod.mk.inj (Except.ok.inj hrecord)
    rw [List.flatMap_cons, hwritten, ih hshow hrest, List.nil_append]

namespace BracketList

/-! ## Values that can be printed -/

mutual

/-- Whether the integers of a value are short enough to be written. -/
def Value.fits : Value → Bool
  | .int i => Decimal.fits i
  | .list vs => allFit vs

/-- Whether the integers of all values of a list are short enough to be written. -/
def Value.allFit : List Value → Bool
  | [] => true
  | v :: vs => v.fits && allFit vs

end

/-! ## The derivation of a printed text -/

/-- One blank. -/
def Blanks.one : Blanks :=
  ⟨[' '], List.all_eq_true.1 rfl⟩

/-- The numeral that is written for an integer. -/
def Numeral.ofInt : Int → Numeral
  | .ofNat n => ⟨false, Decimal.digits n, Decimal.digits_ne_nil n,
      fun _ => Decimal.isDigit_of_mem_digits⟩
  | .negSucc n => ⟨true, Decimal.digits (n + 1), Decimal.digits_ne_nil (n + 1),
      fun _ => Decimal.isDigit_of_mem_digits⟩

theorem Numeral.text_ofInt (i : Int) : (ofInt i).text = Decimal.ofInt i := by
  cases i <;> rfl

theorem Numeral.value_ofInt (i : Int) : (ofInt i).value = i := by
  cases i with
  | ofNat n => exact congrArg Int.ofNat (Decimal.ofDigits_digits n)
  | negSucc n => exact congrArg (fun m : Nat => -(m : Int)) (Decimal.ofDigits_digits (n + 1))

mutual

/-- The derivation of what is printed for a value, after some blanks. -/
def Value.derivation (lead : Blanks) : Value → Derivation
  | .int i => .number lead (.ofInt i)
  | .list [] => .empty lead .none
  | .list (v :: vs) => .list lead (v.derivation .none) (continuationOf vs)

/-- The derivation of what is printed for the items of a list after the first one. -/
def Value.continuationOf : List Value → Continuation
  | [] => .close .none
  | v :: vs => .comma .none (v.derivation .one) (continuationOf vs)

end

namespace Value

mutual

theorem text_derivation (lead : Blanks) :
    ∀ v : Value, (v.derivation lead).text = lead.text ++ v.print
  | .int i => by
    rw [derivation, Derivation.text, Numeral.text_ofInt, print]
  | .list [] => by
    rw [derivation, Derivation.text, print]
    rfl
  | .list (v :: vs) => by
    rw [derivation, Derivation.text, v.text_derivation, text_continuationOf vs, print]
    rfl

theorem text_continuationOf : ∀ vs : List Value, (continuationOf vs).text = printRest vs
  | [] => rfl
  | v :: vs => by
    rw [continuationOf, Continuation.text, v.text_derivation, text_continuationOf vs, printRest]
    rfl

end

mutual

theorem value_derivation (lead : Blanks) : ∀ v : Value, (v.derivation lead).value = v
  | .int i => by
    rw [derivation, Derivation.value, Numeral.value_ofInt]
  | .list [] => rfl
  | .list (v :: vs) => by
    rw [derivation, Derivation.value, v.value_derivation, values_continuationOf vs]

theorem values_continuationOf : ∀ vs : List Value, (continuationOf vs).values = vs
  | [] => rfl
  | v :: vs => by
    rw [continuationOf, Continuation.values, v.value_derivation, values_continuationOf vs]

end

end Value

/-- A printed text is read as its value, if numerals of any length are. -/
theorem scan_print (v : Value) : (scan v.print).value = some v := by
  have h := value_scan_text (v.derivation .none)
  rw [v.text_derivation, v.value_derivation] at h
  exact h

/-! ## The characters of a printed text -/

/-- Whether a character is one of those that values are printed with. -/
def isPrinted (c : Char) : Bool :=
  c.isDigit || c ∈ ['-', '[', ']', ',', ' ']

theorem isPrinted_of_mem_ofInt {i : Int} {c : Char} (h : c ∈ Decimal.ofInt i) :
    isPrinted c = true := by
  have hdigit : ∀ {n : Nat}, c ∈ Decimal.digits n → isPrinted c = true := fun hc => by
    rw [isPrinted, Decimal.isDigit_of_mem_digits hc, Bool.true_or]
  cases i with
  | ofNat n => exact hdigit h
  | negSucc n =>
    rcases List.mem_cons.1 h with rfl | h
    · rfl
    · exact hdigit h

namespace Value

mutual

theorem isPrinted_of_mem_print {c : Char} : ∀ v : Value, c ∈ v.print → isPrinted c = true
  | .int i, h => isPrinted_of_mem_ofInt (by rwa [print] at h)
  | .list [], h => by
    have : c = '[' ∨ c = ']' := by simpa [print] using h
    rcases this with rfl | rfl <;> rfl
  | .list (v :: vs), h => by
    rw [print, List.cons_append, List.mem_cons, List.mem_append] at h
    rcases h with rfl | h | h
    · rfl
    · exact isPrinted_of_mem_print v h
    · exact isPrinted_of_mem_printRest vs h

theorem isPrinted_of_mem_printRest {c : Char} :
    ∀ vs : List Value, c ∈ printRest vs → isPrinted c = true
  | [], h => by
    obtain rfl := List.mem_singleton.1 h
    rfl
  | v :: vs, h => by
    rw [printRest, List.cons_append, List.cons_append, List.mem_cons, List.mem_cons,
      List.mem_append] at h
    rcases h with rfl | rfl | h | h
    · rfl
    · rfl
    · exact isPrinted_of_mem_print v h
    · exact isPrinted_of_mem_printRest vs h

end

end Value

theorem isUnsupportedBreak_of_isPrinted {c : Char} (h : isPrinted c = true) :
    Text.isUnsupportedBreak c = false := by
  cases hb : Text.isUnsupportedBreak c with
  | false => rfl
  | true =>
    simp only [Text.isUnsupportedBreak, decide_eq_true_eq, List.mem_cons, List.not_mem_nil,
      or_false] at hb
    rcases hb with rfl | rfl | rfl | rfl | rfl | rfl | rfl | rfl <;> cases h

theorem Value.print_ne_traceOption (v : Value) : v.print ≠ traceOption := by
  intro h
  have hmem : 't' ∈ v.print := by
    rw [h]
    decide
  cases v.isPrinted_of_mem_print hmem

/-! ## The numerals of a printed text -/

theorem numeralsFit_ofInt {i : Int} (h : Decimal.fits i = true) :
    NumeralsFit (Decimal.ofInt i) := by
  have hdigits : NumeralsFit (Decimal.digits i.natAbs) :=
    numeralsFit_of_length_le (by simpa [Decimal.fits] using h)
  cases i with
  | ofNat n => exact hdigits
  | negSucc n => exact hdigits.cons rfl

namespace Value

mutual

/-- The runs of digits of a printed text are those of its integers. -/
theorem numeralsFit_print : ∀ v : Value, v.fits = true → NumeralsFit v.print
  | .int i, h => by
    rw [print]
    exact numeralsFit_ofInt h
  | .list [], _ => numeralsFit_of_length_le (by decide)
  | .list (v :: vs), h => by
    rw [fits, allFit, Bool.and_eq_true] at h
    obtain ⟨hrest, hhead⟩ := numeralsFit_printRest vs h.2
    exact ((numeralsFit_print v h.1).append hrest (.inr hhead)).cons rfl

/-- What comes after an item starts with no digit. -/
theorem numeralsFit_printRest : ∀ vs : List Value, allFit vs = true →
    NumeralsFit (printRest vs) ∧ ∀ c ∈ (printRest vs).head?, c.isDigit = false
  | [], _ => by
    refine ⟨numeralsFit_of_length_le (by decide), fun c hc => ?_⟩
    cases hc
    rfl
  | v :: vs, h => by
    rw [allFit, Bool.and_eq_true] at h
    obtain ⟨hrest, hhead⟩ := numeralsFit_printRest vs h.2
    refine ⟨(((numeralsFit_print v h.1).append hrest (.inr hhead)).cons rfl).cons rfl,
      fun c hc => ?_⟩
    cases hc
    rfl

end

end Value

/-! ## The integers that are read -/

theorem Numeral.fits_value {n : Numeral} (h : n.digits.length ≤ Decimal.maxDigits) :
    Decimal.fits n.value = true := by
  have hlt := Decimal.ofDigits_lt n.digit
  have hle : 10 ^ n.digits.length ≤ 10 ^ Decimal.maxDigits := Nat.pow_le_pow_right (by decide) h
  have habs : n.value.natAbs = Decimal.ofDigits n.digits := by
    rw [Numeral.value]
    split
    · rw [Int.natAbs_neg, Int.natAbs_natCast]
    · rw [Int.natAbs_natCast]
  rw [Decimal.fits_iff, habs]
  exact Nat.lt_of_lt_of_le hlt hle

/-- The result of a run has a property, if no numeral that the run reports is too long. -/
def Run.Yields {α : Type} (source : Text) (good : α → Prop) (r : Run α) : Prop :=
  (∀ s ∈ r.reports, s.digitCount source ≤ Decimal.maxDigits) →
    ∀ a c, r.result = some (a, c) → good a

section
variable {α β : Type} {source : Text} {good : α → Prop} {good' : β → Prop}

theorem Run.yields_fail : (fail : Run α).Yields source good :=
  fun _ a c h => by cases h

theorem Run.yields_done {a : α} (c : Cursor) (h : good a) : (done a c).Yields source good :=
  fun _ b c' hb => by
    cases hb
    exact h

theorem Run.Yields.bind {r : Run α} {next : α → Cursor → Run β} (h : r.Yields source good)
    (hnext : ∀ a c, r.result = some (a, c) → good a → (next a c).Yields source good') :
    (r.bind next).Yields source good' := by
  intro hreports b c' hb
  obtain ⟨a, c, hr, hb⟩ := result_bind.1 hb
  simp only [Run.bind, hr, List.forall_mem_append] at hreports
  exact hnext a c hr (h hreports.1 a c hr) hreports.2 b c' hb

theorem Run.Yields.orElse {r : Run α} {other : Unit → Run α} (h : r.Yields source good)
    (hother : (other ()).Yields source good) : (r.orElse other).Yields source good := by
  unfold Run.orElse
  split
  · exact h
  · exact fun hreports => hother (List.forall_mem_append.1 hreports).2

theorem Run.Yields.called {rule : Rule} {c : Cursor} {body : Cursor → Run α}
    (h : (body c).Yields source good) : (called rule c body).Yields source good :=
  fun hreports => h fun s hs => hreports s (by simp [BracketList.called, hs])

end

section
variable {source : Text} {c : Cursor}

theorem yields_number (hc : c.Within source) :
    (number c).Yields source (·.fits = true) := by
  intro hreports v c' hv
  obtain ⟨lead, n, hr, -, rfl⟩ := result_number.1 hv
  have hmem : (⟨.leave .matched, .number, c.offset, c'.offset⟩ : Report) ∈ (number c).reports := by
    have hbody := hv
    simp only [number, called] at hbody ⊢
    simp [hbody]
  have hcount := hreports _ hmem
  rw [Report.digitCount, if_pos ⟨rfl, rfl⟩, hc.between hr, Derivation.text,
    countP_isDigit_numeral] at hcount
  exact Numeral.fits_value hcount

section
variable {n : Nat} (hitem : ∀ {c : Cursor}, c.Within source →
  (valueWithin n c).Yields source (·.fits = true))
include hitem

theorem yields_moreItems {m : Nat} (hc : c.Within source) :
    (moreItems (valueWithin n) m c).Yields source (Value.allFit · = true) := by
  induction m generalizing c with
  | zero => exact Run.yields_fail
  | succ m ih =>
    rw [moreItems]
    split
    · exact Run.yields_done c rfl
    · next c₁ hcomma =>
      have hc₁ := hc.char? rfl hcomma
      refine (hitem hc₁).bind fun v c₂ hv hfits => ?_
      have hc₂ := (inSource_valueWithin n hc₁).result v c₂ hv
      refine (ih hc₂).bind fun vs c₃ _ hall => Run.yields_done c₃ ?_
      rw [Value.allFit, hfits, hall, Bool.true_and]

theorem yields_items (hc : c.Within source) :
    (items (valueWithin n) c).Yields source (Value.allFit · = true) := by
  cases hv : (valueWithin n c).result with
  | none =>
    rw [items_of_result_eq_none hv]
    intro _ vs c' hvs
    cases hvs
    rfl
  | some r =>
    rw [items_of_result_eq_some hv]
    refine (hitem hc).bind fun v c₁ hv hfits => ?_
    have hc₁ := (inSource_valueWithin n hc).result v c₁ hv
    refine (yields_moreItems hitem hc₁).bind fun vs c₂ _ hall => Run.yields_done c₂ ?_
    rw [Value.allFit, hfits, hall, Bool.true_and]

theorem yields_list (hc : c.Within source) :
    (list (valueWithin n) c).Yields source (·.fits = true) := by
  refine Run.Yields.called ?_
  split
  · exact Run.yields_fail
  · next c₁ hopen =>
    refine (yields_items hitem (hc.char? rfl hopen)).bind fun vs c₂ _ hall => ?_
    split
    · exact Run.yields_fail
    · next c₃ hclose => exact Run.yields_done c₃ hall

end

theorem yields_valueWithin (n : Nat) (hc : c.Within source) :
    (valueWithin n c).Yields source (·.fits = true) := by
  induction n generalizing c with
  | zero => exact Run.yields_fail
  | succ n ih => exact ((yields_number hc).orElse (yields_list ih hc)).called

end

/-- A source is read as by `scan`, and has no numeral that is too long where it is read. -/
theorem scan_of_read {source : Text} {reading : Reading} (h : read source = .ok reading) :
    scan source = reading ∧
      ∀ s ∈ (scan source).reports, s.digitCount source ≤ Decimal.maxDigits := by
  simp only [read] at h
  split at h
  · cases h
  · next hfind =>
    refine ⟨Except.ok.inj h, fun s hs => ?_⟩
    have hle := List.find?_eq_none.1 hfind _ (List.mem_map_of_mem hs)
    simpa using hle

/-- What is read has integers that are short enough to be written. -/
theorem fits_of_read {source : Text} {reading : Reading} {v : Value}
    (hread : read source = .ok reading) (hvalue : reading.value = some v) : v.fits = true := by
  obtain ⟨rfl, hcounts⟩ := scan_of_read hread
  have hyields : (called .start ⟨0, source⟩ value).Yields source (·.fits = true) :=
    (yields_valueWithin _ (Cursor.within_start source)).called
  rw [reports_scan] at hcounts
  simp only [scan] at hvalue
  split at hvalue
  · next w c hr =>
    obtain ⟨-, heq⟩ := Option.ite_none_right_eq_some.1 hvalue
    obtain rfl := Option.some.inj heq
    exact hyields hcounts w c hr
  · cases hvalue

/-! ## The command -/

/-- The command prints the value that its source is read as, and nothing else. -/
theorem run_eq_ok {source : Text} (hread : read source = .ok (scan source)) {v : Value}
    (hvalue : (scan source).value = some v) (hlength : Decimal.fits source.length = true)
    (hsupported : ∀ c ∈ source, Text.isUnsupportedBreak c = false)
    (hoption : source ≠ traceOption) (isTerminal : Bool) :
    run [source] isTerminal = .ok ⟨0, v.print ++ ['\n'], []⟩ := by
  obtain ⟨t, ht⟩ := exists_ofSetup hsupported ⟨isTerminal, false⟩
  obtain ⟨t', activities, hrecord, -⟩ := exists_recordAll_scan source ht hlength nofun
  have hsource : sourceOf [source] = source := by simp [sourceOf, hoption]
  have hwritten := Tracer.written_recordAll (Tracer.tree_ofSetup ht).2 hrecord
  have hall : traceOption ∉ [source] := by simpa using Ne.symm hoption
  simp only [run, hsource, mapError_eq_ok.2 ht, mapError_eq_ok.2 hread, mapError_eq_ok.2 hrecord,
    hvalue, hwritten, if_neg hall, bind, Except.bind, pure, Except.pure, List.append_nil]

/-- The command reads its source and prints the value, or says that the source is not read. -/
theorem read_of_run {args : List Text} {isTerminal : Bool} {r : CommandResult}
    (h : run args isTerminal = .ok r) (hcode : r.code = 0) :
    ∃ reading v, read (sourceOf args) = .ok reading ∧ reading.value = some v ∧
      r.stdout = v.print ++ ['\n'] := by
  obtain ⟨t, -, h⟩ := bind_eq_ok.1 h
  obtain ⟨reading, hread, h⟩ := bind_eq_ok.1 h
  obtain ⟨⟨t', activities⟩, -, h⟩ := bind_eq_ok.1 h
  refine ⟨reading, ?_⟩
  cases hvalue : reading.value with
  | some v =>
    refine ⟨v, mapError_eq_ok.1 hread, rfl, ?_⟩
    simp only [hvalue] at h
    split at h
    all_goals
      obtain ⟨trace, -, h⟩ := bind_eq_ok.1 h
      exact congrArg CommandResult.stdout (Except.ok.inj h).symm
  | none =>
    simp only [hvalue] at h
    split at h
    all_goals
      obtain ⟨trace, -, h⟩ := bind_eq_ok.1 h
      obtain ⟨text, -, h⟩ := bind_eq_ok.1 h
      obtain rfl := Except.ok.inj h
      cases hcode

/-- The printed text of a value is read as the value, and the command prints it as it is and writes
nothing else, if the integers of the value are short enough to be written. What the command prints
for any arguments that it accepts is the text of such a value, so it prints its own output again.
The command's tracer logs the offsets of failures, so the length of the text that it is given is to
be one that can be written. -/
theorem run_print :
    (∀ v : Value, v.fits = true →
      (∃ reading, read v.print = .ok reading ∧ reading.value = some v) ∧
      (Decimal.fits v.print.length = true →
        ∀ isTerminal, run [v.print] isTerminal = .ok ⟨0, v.print ++ ['\n'], []⟩)) ∧
    ∀ args isTerminal r, run args isTerminal = .ok r → r.code = 0 →
      ∃ v : Value, v.fits = true ∧ r.stdout = v.print ++ ['\n'] ∧
        (Decimal.fits v.print.length = true →
          ∀ isTerminal', run [v.print] isTerminal' = .ok ⟨0, r.stdout, []⟩) := by
  have hread : ∀ v : Value, v.fits = true → read v.print = .ok (scan v.print) :=
    fun v hv => read_eq_ok (v.numeralsFit_print hv)
  have hrun : ∀ v : Value, v.fits = true → Decimal.fits v.print.length = true → ∀ isTerminal,
      run [v.print] isTerminal = .ok ⟨0, v.print ++ ['\n'], []⟩ := by
    intro v hv hlength isTerminal
    refine run_eq_ok (hread v hv) (scan_print v) hlength (fun c hc => ?_) v.print_ne_traceOption
      isTerminal
    exact isUnsupportedBreak_of_isPrinted (v.isPrinted_of_mem_print hc)
  refine ⟨fun v hv => ⟨⟨scan v.print, hread v hv, scan_print v⟩, hrun v hv⟩,
    fun args isTerminal r h hcode => ?_⟩
  obtain ⟨reading, v, hreading, hvalue, hstdout⟩ := read_of_run h hcode
  have hfits := fits_of_read hreading hvalue
  refine ⟨v, hfits, hstdout, fun hlength isTerminal' => ?_⟩
  rw [hstdout]
  exact hrun v hfits hlength isTerminal'

/-- A list with a negative number and lists in it, one of them without items; and a source with
blanks and a leading zero, whose output comes back as it is. -/
theorem run_print_nested :
    let v : Value := .list [.int (-12), .list [], .list [.int 0]]
    v.fits = true ∧ v.print = "[-12, [], [0]]".toList ∧ Decimal.fits v.print.length = true ∧
      run ["[-12, [], [0]]".toList] false = .ok ⟨0, "[-12, [], [0]]\n".toList, []⟩ ∧
      run ["[ 07,[]\n]".toList] true = .ok ⟨0, "[7, []]\n".toList, []⟩ ∧
      run ["[7, []]".toList] false = .ok ⟨0, "[7, []]\n".toList, []⟩ := by
  intro v
  have hfits : v.fits = true := by decide +kernel
  have hprint : v.print = "[-12, [], [0]]".toList := by decide +kernel
  have hlength : Decimal.fits v.print.length = true := by
    rw [hprint]
    decide
  have hfirst : run ["[ 07,[]\n]".toList] true = .ok ⟨0, "[7, []]\n".toList, []⟩ := by
    decide +kernel
  refine ⟨hfits, hprint, hlength, ?_, hfirst, ?_⟩
  · have hrun := (run_print.1 v hfits).2 hlength false
    rw [hprint] at hrun
    exact hrun
  · obtain ⟨w, -, hstdout, hagain⟩ := run_print.2 _ _ _ hfirst rfl
    have hw : w.print = "[7, []]".toList := List.append_cancel_right hstdout.symm
    have hrun := hagain (by rw [hw]; decide) false
    rw [hw] at hrun
    exact hrun

end BracketList

end RuleTrace
