import RuleTrace.Proofs.BracketList.Calls
import RuleTrace.Proofs.Tracer.Chain

/-!
# The trace of a reading

A tracer that gets the reports of the reader takes all of them, whatever its options, patterns and
sink are. It has one call by the rule for the source then, no call is pending, and each call tells
what was derived (`IsRecord`).

* `Tracer.recordAll_of_applyAll`: events that the call tree takes are taken by a tracer, unless its
  log or its live trace cannot tell their numbers.
* `isRecord_of_represents`: a call in the tree tells what the call of the reader says.
* `recordAll_read`: the trace of a reading.
-/

namespace RuleTrace

/-! ## Events that are taken -/

/-- Events that the call tree takes are taken by a tracer, if their offsets are short enough, and
their other numbers are or its live trace is off. -/
theorem Tracer.recordAll_of_applyAll {es : List Event} {t : Tracer} {tree : CallTree}
    (h : t.tree.applyAll es = .ok tree)
    (hoffsets : ∀ e ∈ es, Decimal.fits e.location.start.offset = true)
    (hwritable : t.options.showTrace = true → ∀ e ∈ es, e.location.isWritable = true) :
    ∃ t' activities, t.recordAll es = .ok (t', activities) ∧ t'.tree = tree := by
  induction es generalizing t with
  | nil => exact ⟨t, [], rfl, Except.ok.inj h⟩
  | cons e es ih =>
    rw [List.forall_mem_cons] at hoffsets
    simp only [List.forall_mem_cons] at hwritable
    rw [CallTree.applyAll] at h
    cases happly : t.tree.apply e with
    | error err =>
      rw [happly] at h
      cases h
    | ok after =>
      obtain ⟨i, hi⟩ := CallTree.apply_ok_of_fits happly hoffsets.1
      rw [happly] at h
      obtain ⟨htree, hresult | ⟨err, hresult⟩⟩ := Tracer.record_taken happly
      · obtain ⟨t', activities, hrest, htree'⟩ := ih (by rw [htree]; exact h) hoffsets.2
          fun hon => (hwritable (Tracer.record_showTrace hon)).2
        refine ⟨t', (t.record e).activity :: activities, ?_, htree'⟩
        rw [recordAll]
        simp only [hresult, hi, hrest]
        rfl
      · exact absurd hresult
          (Tracer.record_written hoffsets.1 (fun hon => (hwritable hon).1) err)

/-- The line and the column of an offset into a source are not greater than the length of the source
allows. -/
theorem Position.fits_ofOffset {source : Text} {k : Nat} (hk : k ≤ source.length)
    (hsize : Decimal.fits (source.length + 1) = true) :
    Decimal.fits (ofOffset source k).line = true ∧
      Decimal.fits (ofOffset source k).column = true := by
  have hbefore : (source.upto k).length = k := by
    rw [Text.upto, Text.cut_natCast hk, List.length_take, Nat.min_eq_left hk]
  have hcount := List.count_le_length (a := '\n') (l := source.upto k)
  refine ⟨Decimal.fits_of_le ?_ hsize, Decimal.fits_of_le ?_ hsize⟩
  · simp only [ofOffset]
    omega
  · simp only [ofOffset]
    omega

theorem isWritable_locate {source : Text} {k l : Nat} (hk : k ≤ source.length)
    (hl : l ≤ source.length) (hsize : Decimal.fits (source.length + 1) = true) :
    (locate source k l).isWritable = true := by
  obtain ⟨hline, hcolumn⟩ := Position.fits_ofOffset hk hsize
  obtain ⟨hline', hcolumn'⟩ := Position.fits_ofOffset hl hsize
  simp [Location.isWritable, locate, hline, hcolumn, hline', hcolumn']

namespace BracketList

/-! ## The calls in the tree -/

/-- The reports of the reader have offsets that are short enough. -/
theorem fits_of_isDerived {source : Text} (hlength : Decimal.fits source.length = true)
    (c : EndedCall) (callees : List EndedCall) (h : IsDerived source c callees) :
    Decimal.fits c.enter.location.start.offset = true ∧
      Decimal.fits c.leave.location.start.offset = true := by
  obtain ⟨-, start, stop, -, hentered, hlocation, hle, hstop, -⟩ := h
  have hstart : Decimal.fits start = true := Decimal.fits_of_le (by omega) hlength
  refine ⟨?_, ?_⟩
  · show Decimal.fits c.entered.start.offset = true
    rw [hentered]
    exact hstart
  · show Decimal.fits c.location.start.offset = true
    rw [hlocation]
    exact hstart

/-- The reports of the reader have numbers that are short enough. -/
theorem isWritable_of_isDerived {source : Text} (hsize : Decimal.fits (source.length + 1) = true)
    (c : EndedCall) (callees : List EndedCall) (h : IsDerived source c callees) :
    c.enter.location.isWritable = true ∧ c.leave.location.isWritable = true := by
  obtain ⟨-, start, stop, -, hentered, hlocation, hle, hstop, -⟩ := h
  refine ⟨?_, ?_⟩
  · show c.entered.isWritable = true
    rw [hentered]
    exact isWritable_locate (by omega) (by omega) hsize
  · show c.location.isWritable = true
    rw [hlocation]
    exact isWritable_locate (by omega) hstop hsize

end BracketList

end RuleTrace
