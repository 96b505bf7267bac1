import RuleTrace.Proofs.Source.Marked
import RuleTrace.Proofs.Style.Shows

/-!
# The ink of a quote

The parts of lines that a quote paints have their ends in order, as long as the range does not
start before its first column. So a quote in any ink shows the plain one.

* `LineRange.ordered_of_extentOn?`: the ends of what is painted are in order.
* `Source.shows_quote`: the rows of a quote show those of the plain one.
-/

namespace RuleTrace

/-! ## Sources without escape characters -/

namespace Text

/-- The normal form of a text has no escape character if the text has none. -/
theorem escapeChar_notMem_normalize {t : Text} (h : escapeChar ∉ t) : escapeChar ∉ normalize t := by
  intro hm
  rcases mem_normalize hm with heq | heq | ⟨hm, -⟩
  · exact absurd heq (by decide)
  · exact absurd heq (by decide)
  · exact h hm

end Text

namespace Source

/-- Whether no line of a source has an escape character. -/
def IsClean (s : Source) : Prop :=
  ∀ line ∈ s.lines, escapeChar ∉ line

theorem isClean_of_ofText {t : Text} {s : Source} (h : ofText t = .ok s) (ht : escapeChar ∉ t) :
    s.IsClean := by
  intro line hline hc
  rw [lines_of_ofText h] at hline
  exact Text.escapeChar_notMem_normalize ht (Text.mem_of_mem_lines hline hc).1

theorem IsClean.line {s : Source} (h : s.IsClean) (i : Int) : escapeChar ∉ s.line i := by
  rw [Source.line]
  split
  · exact List.not_mem_nil
  · rw [List.getD]
    cases hget : s.lines[i.toNat]? with
    | none => exact List.not_mem_nil
    | some line => exact h line (List.mem_of_getElem? hget)

end Source

/-! ## Painted parts -/

theorem Text.cut_mono {n : Nat} {a b : Int} (ha : 0 ≤ a) (hab : a ≤ b) : cut n a ≤ cut n b := by
  unfold cut
  split <;> split <;> omega

/-- Whether a range does not start before its first column, or is empty. -/
def LineRange.StartsInside (r : LineRange) : Prop :=
  0 ≤ r.startColumn ∨ r.stopColumn ≤ r.startColumn

/-- The part of a line that belongs to a range has its ends in order. -/
theorem LineRange.ordered_of_extentOn? {r : LineRange} (h : r.StartsInside) {i : Nat}
    {extent : Extent} (he : r.extentOn? i = some extent) (line : Text) : extent.Ordered line := by
  rw [extentOn?] at he
  split at he
  · split at he
    · next hlt =>
      obtain rfl := Option.some.inj he
      have hstart : 0 ≤ r.startColumn := h.resolve_right (by omega)
      rw [Extent.Ordered, Extent.stopIn, if_neg (by omega)]
      exact Text.cut_mono hstart (by omega)
    · cases he
  · split at he
    · split at he
      · obtain rfl := Option.some.inj he
        rw [Extent.Ordered, Extent.stopIn, Text.cut_natCast (Nat.le_refl _)]
        exact Text.cut_le _ _
      · split at he
        · obtain rfl := Option.some.inj he
          have hzero : Text.cut line.length 0 = 0 := Text.cut_natCast (Nat.zero_le _)
          rw [Extent.Ordered, hzero]
          exact Nat.zero_le _
        · obtain rfl := Option.some.inj he
          trivial
    · cases he

/-! ## Quotes -/

theorem forall₂_elide {R : Text → Text → Prop} (hdots : R "...".toList "...".toList)
    (limit : Nat) {lines lines' : List Text} (h : List.Forall₂ R lines lines') :
    List.Forall₂ R (elide limit lines) (elide limit lines') := by
  rw [elide, elide, h.length_eq]
  split
  · exact h
  · exact List.rel_append (List.forall₂_take _ h) (.cons hdots (List.forall₂_drop _ h))

theorem shows_marker (ink : Ink) (highlight : Option Style) (indent count : Int) {c : Char}
    (hc : c ≠ escapeChar) :
    Shows (QuoteStyle.marker ⟨ink, highlight⟩ indent count c)
      (QuoteStyle.marker ⟨.plain, highlight⟩ indent count c) := by
  refine ink.shows_paint_whole highlight ?_
  rw [makeLine, List.mem_append, not_or]
  refine ⟨fun h => absurd (List.eq_of_mem_replicate h) (by decide), fun h => ?_⟩
  obtain ⟨mark, hmark, hmem⟩ := List.mem_flatten.1 h
  rw [List.eq_of_mem_replicate hmark, List.mem_singleton] at hmem
  exact hc hmem.symm

namespace Source

section
variable {s : Source} (hs : s.IsClean) (ink : Ink) (highlight : Option Style) {r : LineRange}
include hs

theorem shows_paintedExcerpt (hr : r.StartsInside) :
    List.Forall₂ Shows (s.paintedExcerpt ⟨ink, highlight⟩ r)
      (s.paintedExcerpt ⟨.plain, highlight⟩ r) := by
  rw [paintedExcerpt_plain, paintedExcerpt]
  refine List.forall₂_iff_get.2 ⟨by simp, fun i _ hi => ?_⟩
  have hline : escapeChar ∉ (s.excerpt r)[i] := by
    simp only [excerpt, List.getElem_map]
    exact hs.line _
  simp only [List.get_eq_getElem, List.getElem_mapIdx]
  cases he : r.extentOn? i with
  | none => exact .of_notMem hline
  | some extent =>
    exact ink.shows_paint highlight hline (LineRange.ordered_of_extentOn? hr he _)

/-- The rows of a quote show those of the plain one. -/
theorem shows_quote {lead : Text} (hlead : escapeChar ∉ lead) (hr : r.StartsInside)
    (maxLines : Option Int) :
    List.Forall₂ Shows (s.quote ⟨ink, highlight⟩ lead r maxLines)
      (s.quote ⟨.plain, highlight⟩ lead r maxLines) := by
  have hupper : List.Forall₂ Shows (s.upperMarker ⟨ink, highlight⟩ r)
      (s.upperMarker ⟨.plain, highlight⟩ r) := by
    unfold upperMarker
    split
    · exact .cons (shows_marker ink highlight _ _ (by decide)) .nil
    · exact .nil
  have hlower : List.Forall₂ Shows (lowerMarker ⟨ink, highlight⟩ r)
      (lowerMarker ⟨.plain, highlight⟩ r) := by
    unfold lowerMarker
    split
    · exact .cons (shows_marker ink highlight _ _ (by decide)) .nil
    · split
      · exact .cons (shows_marker ink highlight _ _ (by decide)) .nil
      · exact .nil
  have hlines := forall₂_elide (.of_notMem (by decide)) (quoteLimit maxLines)
    (shows_paintedExcerpt hs ink highlight hr)
  exact List.rel_map (fun _ _ hrow => (Shows.of_notMem hlead).append hrow)
    (List.rel_append (List.rel_append hupper hlines) hlower)

end

end Source

end RuleTrace
