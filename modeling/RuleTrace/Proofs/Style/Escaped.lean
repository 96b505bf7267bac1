import Mathlib.Data.List.Infix
import RuleTrace.Proofs.Style.Shows

/-!
# What is left of escape sequences

`stripEscapes` goes over a text once. What stood on both sides of a sequence comes together, and may
then be a sequence. For that, one side has an escape character that opened none: escape characters
are left if and only if there was one of those.

* `stripEscapes_eq_self_iff`: a text stays as it is if and only if there is no sequence in it.
* `hasSequence_stripEscapes_iff`: when a sequence is left of a text.
* `isWellEscaped_iff`: no escape character is left of a text if and only if each of them opens a
  sequence.
* `IsWellEscaped.append`, `IsWellEscaped.of_suffix`, `Shows.isWellEscaped`: what such texts are made
  of.
* `Ink.CanPaint.isWellEscaped_paint`: codes can be put into a text that has no escape characters.
-/

namespace RuleTrace

/-- Whether a text starts with an escape sequence. -/
def OpensSequence (t : Text) : Prop :=
  ∃ ps final rest, (∀ c ∈ ps, Token.isParameter c = true) ∧ final.isAlpha = true ∧
    t = escapeSequence ps final ++ rest

/-- Whether there is an escape sequence in a text. -/
def HasSequence (t : Text) : Prop :=
  ∃ u, u <:+ t ∧ OpensSequence u

/-- Whether every escape character of a text opens a sequence. -/
def IsWellEscaped (t : Text) : Prop :=
  ∀ u, escapeChar :: u <:+ t → OpensSequence (escapeChar :: u)

theorem OpensSequence.append {t : Text} (h : OpensSequence t) (u : Text) :
    OpensSequence (t ++ u) := by
  obtain ⟨ps, final, rest, hps, hfinal, rfl⟩ := h
  exact ⟨ps, final, rest ++ u, hps, hfinal, by simp⟩

theorem OpensSequence.exists_cons {t : Text} (h : OpensSequence t) : ∃ u, t = escapeChar :: u := by
  obtain ⟨ps, final, rest, -, -, rfl⟩ := h
  exact ⟨_, rfl⟩

theorem hasSequence_cons {c : Char} {t : Text} :
    HasSequence (c :: t) ↔ OpensSequence (c :: t) ∨ HasSequence t := by
  simp only [HasSequence, List.suffix_cons_iff, or_and_right, exists_or, exists_eq_left]

theorem isWellEscaped_cons {c : Char} {t : Text} :
    IsWellEscaped (c :: t) ↔ (c = escapeChar → OpensSequence (c :: t)) ∧ IsWellEscaped t := by
  simp only [IsWellEscaped, List.suffix_cons_iff, or_imp, forall_and, List.cons.injEq]
  refine and_congr_left fun _ => ⟨fun h hc => ?_, fun h u hu => ?_⟩
  · rw [hc]
    exact h t ⟨hc.symm, rfl⟩
  · rw [hu.1, hu.2]
    exact h hu.1.symm

/-- There is an escape character wherever there is a sequence. -/
theorem HasSequence.escapeChar_mem {t : Text} (h : HasSequence t) : escapeChar ∈ t := by
  obtain ⟨u, hsuffix, hopens⟩ := h
  obtain ⟨v, rfl⟩ := hopens.exists_cons
  exact hsuffix.subset List.mem_cons_self

/-! ## One pass over a text -/

/-- What a token leaves in a text. -/
def Token.unescaped : Token → Text
  | .char c => [c]
  | .sequence _ _ => []

theorem stripEscapes_eq (t : Text) : stripEscapes t = (tokens t).flatMap Token.unescaped := rfl

theorem Token.isParameter_of_isAlpha {c : Char} (h : c.isAlpha = true) : isParameter c = false := by
  have hletter : 65 ≤ c.toNat := by
    rcases Bool.or_eq_true_iff.1 h with hupper | hlower
    · exact UInt32.le_iff_toNat_le.1 (of_decide_eq_true hupper).1
    · have hle := UInt32.le_iff_toNat_le.1 (of_decide_eq_true (Bool.and_eq_true_iff.1 hlower).1)
      exact Nat.le_trans (by decide) hle
  have hdigit : c.isDigit = false := by
    refine Bool.eq_false_iff.2 fun hd => ?_
    have hle : c.toNat ≤ 57 :=
      UInt32.le_iff_toNat_le.1 (of_decide_eq_true (Bool.and_eq_true_iff.1 hd).2)
    omega
  have hsemicolon : c ≠ ';' := by
    rintro rfl
    exact absurd h (by decide)
  rw [isParameter, hdigit, beq_false_of_ne hsemicolon, Bool.or_false]

/-- A character is kept, or it opens a sequence. Of that, and of the text after the character, the
same is left but for the rest of the sequence. -/
theorem tokens_cons_cases (c : Char) (t : Text) :
    (¬OpensSequence (c :: t) ∧ tokens (c :: t) = .char c :: tokens t) ∨
      OpensSequence (c :: t) ∧ ∃ ps final ts, tokens (c :: t) = .sequence ps final :: ts ∧
        escapeChar ∉ '[' :: ps ++ [final] ∧
        stripEscapes t = '[' :: ps ++ [final] ++ ts.flatMap Token.unescaped := by
  rcases Token.prepend_cases c (tokens t) with
    hchar | ⟨ps, final, ts, hps, hfinal, rfl, hts, hsequence⟩
  · refine .inl ⟨?_, hchar⟩
    rintro ⟨ps, final, rest, hps, hfinal, heq⟩
    have htokens := tokens_escapeSequence_append hps hfinal (Token.isParameter_of_isAlpha hfinal)
      rest
    rw [← heq] at htokens
    cases htokens.symm.trans hchar
  · have htext : t = '[' :: ps ++ final :: ts.flatMap Token.text := by
      rw [← flatMap_text_tokens t, hts]
      simp [Token.text, List.flatMap_map]
    have hopens : escapeChar :: t = escapeSequence ps final ++ ts.flatMap Token.text := by
      rw [htext]
      simp [escapeSequence]
    refine .inr ⟨⟨ps, final, _, hps, hfinal, hopens⟩, ps, final, ts, hsequence, ?_, ?_⟩
    · simp only [List.cons_append, List.mem_cons, List.mem_append, List.not_mem_nil, or_false,
        not_or]
      refine ⟨by decide, fun h => Token.ne_escapeChar_of_isParameter (hps _ h) rfl, ?_⟩
      rintro rfl
      exact absurd hfinal (by decide)
    · rw [stripEscapes_eq, hts]
      simp [Token.unescaped, List.flatMap_map]

theorem length_stripEscapes_le (t : Text) : (stripEscapes t).length ≤ t.length := by
  induction t with
  | nil => exact Nat.le_refl 0
  | cons c t ih =>
    rcases tokens_cons_cases c t with ⟨-, hchar⟩ | ⟨-, ps, final, ts, hsequence, -, hstrip⟩
    · rw [stripEscapes_eq, hchar]
      exact Nat.succ_le_succ ih
    · rw [hstrip, List.length_append] at ih
      rw [stripEscapes_eq, hsequence, List.flatMap_cons, Token.unescaped, List.nil_append,
        List.length_cons]
      omega

/-- A text stays as it is if and only if there is no sequence in it. -/
theorem stripEscapes_eq_self_iff {t : Text} : stripEscapes t = t ↔ ¬HasSequence t := by
  induction t with
  | nil => exact iff_of_true rfl fun h => absurd h.escapeChar_mem List.not_mem_nil
  | cons c t ih =>
    rw [hasSequence_cons, stripEscapes_eq]
    rcases tokens_cons_cases c t with
      ⟨hopens, hchar⟩ | ⟨hopens, ps, final, ts, hsequence, -, hstrip⟩
    · rw [hchar, or_iff_right hopens, ← ih]
      exact List.cons_inj_right c
    · refine iff_of_false (fun heq => ?_) (not_not_intro (.inl hopens))
      have hle := length_stripEscapes_le t
      rw [hstrip, List.length_append] at hle
      rw [hsequence, List.flatMap_cons, Token.unescaped, List.nil_append] at heq
      rw [heq, List.length_cons] at hle
      omega

theorem hasSequence_append_of_notMem {t : Text} (h : escapeChar ∉ t) (u : Text) :
    HasSequence (t ++ u) ↔ HasSequence u := by
  induction t with
  | nil => rfl
  | cons c t ih =>
    rw [List.mem_cons, not_or] at h
    rw [List.cons_append, hasSequence_cons, ih h.2]
    refine or_iff_right fun hopens => ?_
    obtain ⟨v, heq⟩ := hopens.exists_cons
    exact h.1 (List.cons.inj heq).1.symm

/-- A sequence is left of a text if and only if some escape character that opened none opens one
once those after it are taken out. -/
theorem hasSequence_stripEscapes_iff {t : Text} :
    HasSequence (stripEscapes t) ↔ ∃ u, escapeChar :: u <:+ t ∧
      ¬OpensSequence (escapeChar :: u) ∧ OpensSequence (escapeChar :: stripEscapes u) := by
  induction t with
  | nil =>
    refine iff_of_false (fun h => absurd h.escapeChar_mem List.not_mem_nil) ?_
    rintro ⟨u, hsuffix, -⟩
    exact absurd (hsuffix.subset List.mem_cons_self) List.not_mem_nil
  | cons c t ih =>
    rw [stripEscapes_eq (c :: t)]
    simp only [List.suffix_cons_iff, or_and_right, exists_or, ← ih]
    rcases tokens_cons_cases c t with
      ⟨hopens, hchar⟩ | ⟨hopens, ps, final, ts, hsequence, hbody, hstrip⟩
    · rw [hchar, List.flatMap_cons, Token.unescaped, List.singleton_append, ← stripEscapes_eq,
        hasSequence_cons]
      refine or_congr_left ⟨fun hjoined => ?_, ?_⟩
      · obtain ⟨v, heq⟩ := hjoined.exists_cons
        obtain ⟨rfl, -⟩ := List.cons.inj heq
        exact ⟨t, rfl, hopens, hjoined⟩
      · rintro ⟨u, heq, -, hjoined⟩
        obtain ⟨rfl, rfl⟩ := List.cons.inj heq
        exact hjoined
    · rw [hsequence, List.flatMap_cons, Token.unescaped, List.nil_append, hstrip,
        hasSequence_append_of_notMem hbody]
      refine (or_iff_right ?_).symm
      rintro ⟨u, heq, hstray, -⟩
      exact hstray (heq ▸ hopens)

instance (t : Text) : Decidable (HasSequence t) :=
  decidable_of_iff (stripEscapes t ≠ t) (by rw [ne_eq, stripEscapes_eq_self_iff, not_not])

/-- No escape character is left of a text if and only if each of them opens a sequence. -/
theorem isWellEscaped_iff {t : Text} : IsWellEscaped t ↔ escapeChar ∉ stripEscapes t := by
  induction t with
  | nil => exact iff_of_true (fun u h => absurd h.subset (by simp)) List.not_mem_nil
  | cons c t ih =>
    rw [isWellEscaped_cons, ih, stripEscapes_eq (c :: t)]
    rcases tokens_cons_cases c t with
      ⟨hopens, hchar⟩ | ⟨hopens, ps, final, ts, hsequence, hbody, hstrip⟩
    · rw [hchar, List.flatMap_cons, Token.unescaped, List.singleton_append, List.mem_cons, not_or,
        ← stripEscapes_eq, imp_iff_not hopens, eq_comm]
    · rw [hsequence, List.flatMap_cons, Token.unescaped, List.nil_append, hstrip, List.mem_append,
        or_iff_right hbody]
      exact and_iff_right fun _ => hopens

instance (t : Text) : Decidable (IsWellEscaped t) :=
  decidable_of_iff _ isWellEscaped_iff.symm

/-! ## Texts whose escape characters all open sequences -/

section
variable {t u : Text}

theorem IsWellEscaped.of_notMem (h : escapeChar ∉ t) : IsWellEscaped t :=
  fun _ hsuffix => absurd (hsuffix.subset List.mem_cons_self) h

theorem IsWellEscaped.of_suffix (h : IsWellEscaped t) (hu : u <:+ t) : IsWellEscaped u :=
  fun v hv => h v (hv.trans hu)

theorem IsWellEscaped.append (h : IsWellEscaped t) (hu : IsWellEscaped u) :
    IsWellEscaped (t ++ u) := by
  induction t with
  | nil => exact hu
  | cons c t ih =>
    obtain ⟨hopens, ht⟩ := isWellEscaped_cons.1 h
    exact isWellEscaped_cons.2 ⟨fun hc => (hopens hc).append u, ih ht⟩

theorem IsWellEscaped.unlines {ls : List Text} (h : ∀ l ∈ ls, IsWellEscaped l) :
    IsWellEscaped (Text.unlines ls) := by
  fun_induction Text.unlines ls with
  | case1 => exact .of_notMem List.not_mem_nil
  | case2 line => exact h line List.mem_cons_self
  | case3 line rest _ ih =>
    have hnewline : IsWellEscaped ['\n'] := by decide
    exact (h line List.mem_cons_self).append
      (hnewline.append (ih fun l hl => h l (List.mem_cons_of_mem line hl)))

/-- A text that shows another one has no other escape characters. -/
theorem Shows.isWellEscaped (h : Shows t u) : IsWellEscaped t := by
  rw [isWellEscaped_iff, h.stripEscapes_eq]
  exact h.clean

theorem isWellEscaped_of_forall₂ {ts shown : List Text} (h : List.Forall₂ Shows ts shown) :
    ∀ t ∈ ts, IsWellEscaped t := by
  induction h with
  | nil => exact fun _ ht => absurd ht List.not_mem_nil
  | cons hshows _ ih => exact List.forall_mem_cons.2 ⟨hshows.isWellEscaped, ih⟩

end

/-! ## Painting -/

namespace Ink

/-- Whether any part of a text can be painted. Codes are put into the text, so that nothing may be
a sequence there. -/
def CanPaint : Ink → Text → Prop
  | .plain, t => IsWellEscaped t
  | .colored, t => escapeChar ∉ t

instance : (ink : Ink) → (t : Text) → Decidable (ink.CanPaint t)
  | .plain, t => inferInstanceAs (Decidable (IsWellEscaped t))
  | .colored, t => inferInstanceAs (Decidable (escapeChar ∉ t))

section
variable {ink : Ink} {t : Text}

theorem canPaint_of_notMem (h : escapeChar ∉ t) : ink.CanPaint t := by
  cases ink with
  | plain => exact .of_notMem h
  | colored => exact h

theorem CanPaint.isWellEscaped (h : ink.CanPaint t) : IsWellEscaped t := by
  cases ink with
  | plain => exact h
  | colored => exact .of_notMem h

theorem CanPaint.isWellEscaped_paint (h : ink.CanPaint t) (style : Option Style)
    (extent : Extent) : IsWellEscaped (ink.paint style t extent) := by
  cases ink with
  | plain => exact h
  | colored =>
    have hpart : ∀ u, u ⊆ t → IsWellEscaped u := fun u hu => .of_notMem fun hm => h (hu hm)
    have hcode := (shows_styleCode style).isWellEscaped
    have hreset := shows_resetCode.isWellEscaped
    rw [paint]
    split
    · exact .of_notMem h
    · cases extent with
      | whole => exact (hcode.append (.of_notMem h)).append hreset
      | slice start stop =>
        have hupto := hpart (t.upto start) (List.take_subset _ _)
        have hbetween := hpart (t.between start (Extent.stopIn t stop))
          (List.Subset.trans (List.drop_subset _ _) (List.take_subset _ _))
        have honward := hpart (t.onward (Extent.stopIn t stop)) (List.drop_subset _ _)
        exact (((hupto.append hcode).append hbetween).append hreset).append honward

-- A code that is put into a sequence keeps it from being taken out.
example : stripEscapes (colored.paint (some (.ofColor "cyan".toList)) "\x1b[31m".toList
    (.slice 0 (some 1))) = "\x1b[31m".toList := by decide

/-- A text that is painted as a whole may have sequences in it. -/
theorem isWellEscaped_paint_whole (ink : Ink) (style : Option Style) (h : IsWellEscaped t) :
    IsWellEscaped (ink.paint style t) := by
  cases ink with
  | plain => exact h
  | colored =>
    rw [paint]
    split
    · exact h
    · exact ((shows_styleCode style).isWellEscaped.append h).append shows_resetCode.isWellEscaped

end

end Ink

end RuleTrace
