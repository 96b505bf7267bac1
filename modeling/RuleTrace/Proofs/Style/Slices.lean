import RuleTrace.Proofs.Style.Shows

/-!
# Painted slices

A style on a slice of a text puts its code at the place where the slice starts and a reset at the
place where it ends. The places are cut from the text one by one, so the end may come first: then
the text between the two places is written twice, and the slice is empty.

* `tokens_paint_slice`: the painted text is read back as the text in front of the slice, the code,
  the slice, the reset and the text after it.
* `stripEscapes_paint_slice`: without escape sequences it is the text up to the first place and from
  the second one on.
* `Ink.paint_slice`: it shows the text if and only if the slice does not end before it starts.
-/

namespace RuleTrace

/-- The code of a style is a color code, unless the style names nothing. -/
theorem styleCode_eq_escapeSequence {style : Option Style} (h : styleCode style ≠ []) :
    ∃ ps, (∀ c ∈ ps, Token.isParameter c = true) ∧ styleCode style = escapeSequence ps 'm' := by
  cases style with
  | none => exact absurd rfl h
  | some s =>
    have hps := isParameter_joinParameters (isParameter_parameters s)
    rw [styleCode, Style.code] at h ⊢
    split
    · next hnone =>
      rw [hnone] at h
      exact absurd rfl h
    · exact ⟨_, List.all_eq_true.1 hps, rfl⟩

/-- What painting a slice writes, for a style with a code. -/
theorem Ink.paint_slice_eq {style : Option Style} (hcode : styleCode style ≠ []) (t : Text)
    (start : Int) (stop : Option Int) :
    Ink.colored.paint style t (.slice start stop) =
      t.upto start ++ styleCode style ++ t.between start (Extent.stopIn t stop) ++ resetCode ++
        t.onward (Extent.stopIn t stop) := by
  rw [Ink.paint]
  split
  · next hnone => exact absurd hnone hcode
  · rfl

section
variable {t : Text} (ht : escapeChar ∉ t)
include ht

theorem escapeChar_notMem_parts (start stop : Int) :
    escapeChar ∉ t.upto start ∧ escapeChar ∉ t.between start stop ∧ escapeChar ∉ t.onward stop :=
  ⟨fun h => ht (List.mem_of_mem_take h),
    fun h => ht (List.mem_of_mem_take (List.mem_of_mem_drop h)),
    fun h => ht (List.mem_of_mem_drop h)⟩

variable {style : Option Style} (hcode : styleCode style ≠ []) (start : Int) (stop : Option Int)
include hcode

/-- A painted slice is between the code of its style and a reset, and nothing else of the painted
text is a sequence. -/
theorem tokens_paint_slice :
    ∃ ps, styleCode style = escapeSequence ps 'm' ∧
      tokens (Ink.colored.paint style t (.slice start stop)) =
        (t.upto start).map .char ++ .sequence ps 'm' ::
          ((t.between start (Extent.stopIn t stop)).map .char ++ .sequence ['0'] 'm' ::
            (t.onward (Extent.stopIn t stop)).map .char) := by
  obtain ⟨ps, hps, hsequence⟩ := styleCode_eq_escapeSequence hcode
  obtain ⟨hupto, hbetween, honward⟩ := escapeChar_notMem_parts ht start (Extent.stopIn t stop)
  have hlast := tokens_append_of_notMem honward []
  rw [List.append_nil] at hlast
  have hzero : ∀ c ∈ ['0'], Token.isParameter c = true := List.forall_mem_singleton.2 rfl
  refine ⟨ps, hsequence, ?_⟩
  simp only [Ink.paint_slice_eq hcode, hsequence, resetCode, List.append_assoc]
  rw [tokens_append_of_notMem hupto, tokens_escapeSequence_append hps (by decide) (by decide),
    tokens_append_of_notMem hbetween,
    tokens_escapeSequence_append hzero (by decide) (by decide), hlast]
  simp [tokens]

/-- Without its sequences a painted text is the text up to the start of the slice, the slice, and
the text from its end on. -/
theorem stripEscapes_paint_slice :
    stripEscapes (Ink.colored.paint style t (.slice start stop)) =
      t.upto start ++ t.between start (Extent.stopIn t stop) ++
        t.onward (Extent.stopIn t stop) := by
  obtain ⟨hupto, hbetween, honward⟩ := escapeChar_notMem_parts ht start (Extent.stopIn t stop)
  have hslice := (shows_styleCode style).append ((Shows.of_notMem hbetween).append shows_resetCode)
  have hshows := ((Shows.of_notMem hupto).append hslice).append (.of_notMem honward)
  rw [List.nil_append, List.append_nil] at hshows
  rw [Ink.paint_slice_eq hcode, ← hshows.stripEscapes_eq]
  simp only [List.append_assoc]

end

namespace Ink

/-- A style on a slice keeps the text if and only if the slice does not end before it starts. The
characters between the code of the style and the reset are those of the slice. A slice that ends
before it starts is empty, and the painted text shows the text between the two places twice. -/
theorem paint_slice {t : Text} (ht : escapeChar ∉ t) {style : Option Style}
    (hcode : styleCode style ≠ []) (start : Int) (stop : Option Int) :
    let painted := Ink.colored.paint style t (.slice start stop)
    let first := Text.cut t.length start
    let last := Text.cut t.length (Extent.stopIn t stop)
    (∃ ps, styleCode style = escapeSequence ps 'm' ∧
      tokens painted = (t.take first).map .char ++ .sequence ps 'm' ::
        (((t.take last).drop first).map .char ++ .sequence ['0'] 'm' ::
          (t.drop last).map .char)) ∧
    (stripEscapes painted = t ↔ first ≤ last) ∧
    (last < first → stripEscapes painted = t.take first ++ t.drop last ∧
      (stripEscapes painted).length = t.length + (first - last)) := by
  intro painted first last
  have hstrip : stripEscapes painted = t.take first ++ (t.take last).drop first ++ t.drop last :=
    stripEscapes_paint_slice ht hcode start stop
  have hfirst : first ≤ t.length := Text.cut_le _ _
  have hlast : last ≤ t.length := Text.cut_le _ _
  have hlength : last < first → (stripEscapes painted).length = t.length + (first - last) := by
    intro h
    rw [hstrip, List.length_append, List.length_append, List.length_take, List.length_drop,
      List.length_take, List.length_drop]
    omega
  refine ⟨tokens_paint_slice ht hcode start stop, ⟨fun hsame => ?_, fun hle => ?_⟩, fun h => ?_⟩
  · by_contra hlt
    have := hlength (Nat.lt_of_not_le hlt)
    rw [hsame] at this
    omega
  · rw [hstrip]
    exact Text.upto_between_onward hle
  · have hempty : (t.take last).drop first = [] :=
      List.drop_eq_nil_of_le (Nat.le_trans (List.length_take_le _ _) (Nat.le_of_lt h))
    refine ⟨?_, hlength h⟩
    rw [hstrip, hempty, List.append_nil]

/-- A slice from the third place of a text to the first one, counted from the end, in a text that
looks like parts of codes. -/
theorem paint_slice_reversed :
    let t : Text := "0m[1".toList
    let style : Option Style := some { color := some "red".toList, effect := some "glow".toList }
    escapeChar ∉ t ∧ styleCode style ≠ [] ∧
      stripEscapes (Ink.colored.paint style t (.slice 3 (some (-3)))) = "0m[m[1".toList := by
  intro t style
  have ht : escapeChar ∉ t := by decide
  have hcode : styleCode style ≠ [] := by decide
  obtain ⟨-, -, hreversed⟩ := paint_slice ht hcode 3 (some (-3))
  exact ⟨ht, hcode, (hreversed (by decide)).1⟩

end Ink

end RuleTrace
