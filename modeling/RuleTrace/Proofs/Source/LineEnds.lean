import RuleTrace.Proofs.Source.Marked

/-!
# Line ends

A line ends with a newline, with a carriage return, or with the two in a row, which are one line
end. The normal form of a text takes several passes over it. `Text.scanLines` reads the lines in one
pass from the left.

* `Text.scanLines_eq`: one pass reads the lines of the normal form.
* `Text.count_newline_normalize`, `Text.length_normalize`: the line ends of the normal form, and its
  length.
* `Source.ofText_scanned`: which texts are sources, what their lines are, and what the refusal of
  any other text names.
-/

namespace RuleTrace

namespace Text

/-- The characters that end a line wherever all line boundaries are told from other characters. -/
def lineBoundaries : Text :=
  ['\n', '\x0b', '\x0c', '\r', '\x1c', '\x1d', '\x1e', '\u0085', '\u2028', '\u2029']

/-- How many carriage returns have no newline after them. -/
def loneReturns : Text → Nat
  | [] => 0
  | c :: t => loneReturns t + if c = '\r' ∧ t.head? ≠ some '\n' then 1 else 0

/-- How many line ends there are: newlines, whether or not a carriage return is before them, and
lone carriage returns. -/
def lineEndCount (t : Text) : Nat :=
  t.count '\n' + t.loneReturns

/-- Reads lines from the left. A carriage return ends a line, and a newline does so unless a
carriage return was right before it; a tab is read as a space. The first argument says whether there
was one, the second has what was read of the current line. -/
def scanLines : Bool → Text → Text → List Text
  | _, line, [] => [line]
  | afterReturn, line, c :: t =>
    if c = '\n' then
      if afterReturn then scanLines false line t else line :: scanLines false [] t
    else if c = '\r' then line :: scanLines true [] t
    else scanLines false (line ++ [if c = '\t' then ' ' else c]) t

/-! ## The normal form -/

theorem loneReturns_pair (t : Text) : loneReturns ('\r' :: '\n' :: t) = loneReturns t := by
  simp [loneReturns]

theorem loneReturns_lone {t : Text} (h : t.head? ≠ some '\n') :
    loneReturns ('\r' :: t) = loneReturns t + 1 := by
  simp [loneReturns, h]

theorem loneReturns_cons {c : Char} (hc : c ≠ '\r') (t : Text) :
    loneReturns (c :: t) = loneReturns t := by
  simp [loneReturns, hc]

/-- The newlines of the normal form are the line ends. -/
theorem count_newline_normalize (t : Text) : (normalize t).count '\n' = t.lineEndCount := by
  unfold lineEndCount
  induction t using lineEnd_induction with
  | nil => rfl
  | pair t ih =>
    rw [normalize_pair, loneReturns_pair, List.count_cons_self, ih,
      List.count_cons_of_ne (by decide), List.count_cons_self, Nat.add_right_comm]
  | lone t ht ih =>
    rw [normalize_lone ht, loneReturns_lone ht, List.count_cons_self, ih,
      List.count_cons_of_ne (by decide), Nat.add_assoc]
  | other c t hc ih =>
    rw [normalize_cons hc, loneReturns_cons hc, List.count_cons, ih, List.count_cons]
    by_cases htab : c = '\t'
    · simp [htab]
    · rw [if_neg htab, Nat.add_right_comm]

/-- The normal form has every character but the carriage returns that stand before a newline. -/
theorem length_normalize (t : Text) :
    (normalize t).length + t.count '\r' = t.length + t.loneReturns := by
  induction t using lineEnd_induction with
  | nil => rfl
  | pair t ih =>
    rw [normalize_pair, loneReturns_pair, List.count_cons_self, List.count_cons_of_ne (by decide),
      List.length_cons, List.length_cons, List.length_cons]
    omega
  | lone t ht ih =>
    rw [normalize_lone ht, loneReturns_lone ht, List.count_cons_self, List.length_cons,
      List.length_cons]
    omega
  | other c t hc ih =>
    rw [normalize_cons hc, loneReturns_cons hc, List.count_cons_of_ne hc, List.length_cons,
      List.length_cons]
    omega

/-! ## One pass -/

theorem scanLines_afterReturn {t : Text} (h : t.head? ≠ some '\n') (line : Text) :
    scanLines true line t = scanLines false line t := by
  cases t with
  | nil => rfl
  | cons c t =>
    have hc : c ≠ '\n' := by simpa using h
    simp [scanLines, hc]

theorem lines_append_newline {line : Text} (h : '\n' ∉ line) (t : Text) :
    lines (line ++ '\n' :: t) = line :: lines t := by
  have hline : lines line = [] ++ [line] := lines_of_notMem h
  rw [lines_append hline (lines_newline t), List.nil_append, List.append_nil]

/-- One pass reads the lines of the normal form. -/
theorem scanLines_eq (t : Text) {line : Text} (h : '\n' ∉ line) :
    scanLines false line t = lines (line ++ normalize t) := by
  induction t using lineEnd_induction generalizing line with
  | nil => simpa [scanLines, normalize, expandTabs, joinLineEnds, replaceReturns] using
      (lines_of_notMem h).symm
  | pair t ih =>
    rw [normalize_pair, lines_append_newline h]
    simpa [scanLines] using ih List.not_mem_nil
  | lone t ht ih =>
    rw [normalize_lone ht, lines_append_newline h]
    simpa [scanLines, scanLines_afterReturn ht] using ih List.not_mem_nil
  | other c t hc ih =>
    rw [normalize_cons hc]
    by_cases hnl : c = '\n'
    · subst hnl
      rw [if_neg (by decide), lines_append_newline h]
      simpa [scanLines] using ih List.not_mem_nil
    · have hline : '\n' ∉ line ++ [if c = '\t' then ' ' else c] := by
        rw [List.mem_append, List.mem_singleton, not_or]
        refine ⟨h, ?_⟩
        split
        · decide
        · exact Ne.symm hnl
      simpa [scanLines, hnl, hc] using ih hline

/-! ## Unsupported boundaries -/

theorem isUnsupportedBreak_iff (c : Char) :
    isUnsupportedBreak c = true ↔ c ∈ lineBoundaries ∧ c ≠ '\n' ∧ c ≠ '\r' := by
  rw [isUnsupportedBreak, decide_eq_true_iff, lineBoundaries]
  constructor
  · intro h
    refine ⟨by simp only [List.mem_cons] at h ⊢; tauto, ?_, ?_⟩ <;> rintro rfl <;>
      exact absurd h (by decide)
  · rintro ⟨h, hnl, hr⟩
    simpa [hnl, hr] using h

theorem isUnsupportedBreak_eq_false_iff (c : Char) :
    isUnsupportedBreak c = false ↔ (c ∈ lineBoundaries → c = '\n' ∨ c = '\r') := by
  rw [← Bool.not_eq_true, isUnsupportedBreak_iff]
  tauto

theorem unsupportedBreak?_append {a : Text} (ha : ∀ b ∈ a, isUnsupportedBreak b = false)
    {c : Char} (hc : isUnsupportedBreak c = true) (u : Text) :
    (a ++ c :: u).unsupportedBreak? = some (c, a.length) := by
  induction a with
  | nil => simp [unsupportedBreak?, hc]
  | cons b a ih =>
    obtain ⟨hb, ha⟩ := List.forall_mem_cons.1 ha
    simp [unsupportedBreak?, hb, ih ha]

theorem unsupportedBreak?_eq_none {t : Text} (h : ∀ c ∈ t, isUnsupportedBreak c = false) :
    t.unsupportedBreak? = none := by
  induction t with
  | nil => rfl
  | cons c t ih =>
    obtain ⟨hc, h⟩ := List.forall_mem_cons.1 h
    simp [unsupportedBreak?, hc, ih h]

/-- The normal form has no unsupported boundary if the text has none. -/
theorem forall_mem_normalize {t : Text} (h : ∀ c ∈ t, isUnsupportedBreak c = false) :
    ∀ c ∈ normalize t, isUnsupportedBreak c = false := by
  intro c hc
  rcases mem_normalize hc with rfl | rfl | ⟨hc, -⟩
  · decide
  · decide
  · exact h c hc

/-- No tab and no line boundary is left in the lines of the normal form. -/
theorem ordinary_of_mem_lines {t line : Text} (h : ∀ c ∈ t, isUnsupportedBreak c = false)
    (hline : line ∈ (normalize t).lines) {c : Char} (hc : c ∈ line) :
    c ≠ '\t' ∧ c ∉ lineBoundaries := by
  obtain ⟨hmem, hnl⟩ := mem_of_mem_lines hline hc
  rcases mem_normalize hmem with rfl | rfl | ⟨hmem, htab, hr⟩
  · exact absurd rfl hnl
  · decide
  · exact ⟨htab, fun hb => ((isUnsupportedBreak_eq_false_iff c).1 (h c hmem) hb).elim hnl hr⟩

/-- An unsupported boundary is kept in the normal form. -/
theorem normalize_append_cons (a u : Text) {c : Char} (hc : isUnsupportedBreak c = true) :
    normalize (a ++ c :: u) = normalize a ++ c :: normalize u := by
  have hkept : c ≠ '\n' ∧ c ≠ '\r' ∧ c ≠ '\t' := by
    refine ⟨?_, ?_, ?_⟩ <;> rintro rfl <;> exact absurd hc (by decide)
  have hcut : ¬Splits a (c :: u) := fun hs => hkept.1 (by simpa using hs.2)
  rw [normalize_append hcut, normalize_cons hkept.2.1, if_neg hkept.2.2]

end Text

namespace Source

theorem ofText_append_cons {a : Text} (ha : ∀ b ∈ a, Text.isUnsupportedBreak b = false) {c : Char}
    (hc : Text.isUnsupportedBreak c = true) (u : Text) :
    ofText (a ++ c :: u) = .error (.unsupportedBreak c (Text.normalize a).length) := by
  rw [ofText, Text.normalize_append_cons a u hc,
    Text.unsupportedBreak?_append (Text.forall_mem_normalize ha) hc]

/-- A text has no unsupported boundary and is a source, or it has a first one, which the refusal is
about. -/
theorem ofText_cases (t : Text) :
    (∀ c ∈ t, Text.isUnsupportedBreak c = false) ∧ ofText t = .ok ⟨t.normalize.lines⟩ ∨
      ∃ a c u, t = a ++ c :: u ∧ (∀ b ∈ a, Text.isUnsupportedBreak b = false) ∧
        Text.isUnsupportedBreak c = true ∧
        ofText t = .error (.unsupportedBreak c (Text.normalize a).length) := by
  cases hfirst : t.find? Text.isUnsupportedBreak with
  | none =>
    have hall : ∀ c ∈ t, Text.isUnsupportedBreak c = false := fun c hc => by
      simpa using List.find?_eq_none.1 hfirst c hc
    have hnone := Text.unsupportedBreak?_eq_none (Text.forall_mem_normalize hall)
    exact .inl ⟨hall, by rw [ofText, hnone]⟩
  | some c =>
    obtain ⟨hc, a, u, rfl, ha⟩ := List.find?_eq_some_iff_append.1 hfirst
    have ha' : ∀ b ∈ a, Text.isUnsupportedBreak b = false := fun b hb => by simpa using ha b hb
    exact .inr ⟨a, c, u, rfl, ha', hc, ofText_append_cons ha' hc u⟩

/-- A text is a source if it has no line boundaries but newlines and carriage returns. Its lines are
then those that one pass from the left reads, one more than it has line ends, and no tab and no line
boundary is left in them. For any other text the refusal names the first boundary that is neither,
and where it is if tabs and line ends are one character each: of the carriage returns before it only
the lone ones count. -/
theorem ofText_scanned (t : Text) :
    ((∃ s, ofText t = .ok s) ↔ ∀ c ∈ t, c ∈ Text.lineBoundaries → c = '\n' ∨ c = '\r') ∧
    (∀ s, ofText t = .ok s → s.lines = Text.scanLines false [] t ∧
      s.lines.length = t.lineEndCount + 1 ∧
      ∀ line ∈ s.lines, ∀ c ∈ line, c ≠ '\t' ∧ c ∉ Text.lineBoundaries) ∧
    ∀ e, ofText t = .error e ↔ ∃ before c after offset, t = before ++ c :: after ∧
      (∀ b ∈ before, b ∈ Text.lineBoundaries → b = '\n' ∨ b = '\r') ∧
      c ∈ Text.lineBoundaries ∧ c ≠ '\n' ∧ c ≠ '\r' ∧
      offset + before.count '\r' = before.length + Text.loneReturns before ∧
      e = .unsupportedBreak c offset ∧
      e.message = "Unsupported line break ".toList ++ Quoted.quote [c] ++ " at offset ".toList ++
        Decimal.digits offset ++ ", lines must end with '\\n'".toList := by
  have hplain : ∀ u : Text, (∀ b ∈ u, b ∈ Text.lineBoundaries → b = '\n' ∨ b = '\r') ↔
      ∀ b ∈ u, Text.isUnsupportedBreak b = false := fun u =>
    forall₂_congr fun b _ => (Text.isUnsupportedBreak_eq_false_iff b).symm
  have hcases := ofText_cases t
  refine ⟨?_, fun s hs => ?_, fun e => ⟨fun he => ?_, ?_⟩⟩
  · rw [hplain]
    constructor
    · rintro ⟨s, hs⟩
      rcases hcases with ⟨hall, -⟩ | ⟨a, c, u, -, -, -, he⟩
      · exact hall
      · exact nomatch hs.symm.trans he
    · intro hall
      rcases hcases with ⟨-, hs⟩ | ⟨a, c, u, rfl, -, hc, -⟩
      · exact ⟨_, hs⟩
      · exact absurd hc (by simp [hall c (by simp)])
  · rcases hcases with ⟨hall, hok⟩ | ⟨a, c, u, -, -, -, he⟩
    · cases hs.symm.trans hok
      obtain ⟨xs, x, hx⟩ := Text.exists_lines_eq_concat t.normalize
      have hcount := (Text.length_of_lines_eq hx).1
      rw [Text.count_newline_normalize] at hcount
      refine ⟨(Text.scanLines_eq t List.not_mem_nil).symm, ?_, fun line hline c hc =>
        Text.ordinary_of_mem_lines hall hline hc⟩
      show t.normalize.lines.length = _
      rw [hx, List.length_append, hcount, List.length_singleton]
    · exact nomatch hs.symm.trans he
  · rcases hcases with ⟨-, hs⟩ | ⟨a, c, u, rfl, ha, hc, herror⟩
    · exact nomatch hs.symm.trans he
    · cases he.symm.trans herror
      obtain ⟨hc, hnl, hr⟩ := (Text.isUnsupportedBreak_iff c).1 hc
      exact ⟨a, c, u, _, rfl, (hplain a).2 ha, hc, hnl, hr, Text.length_normalize a, rfl, rfl⟩
  · rintro ⟨a, c, u, offset, rfl, ha, hc, hnl, hr, hoffset, rfl, -⟩
    have hlength := Text.length_normalize a
    rw [ofText_append_cons ((hplain a).1 ha) ((Text.isUnsupportedBreak_iff c).2 ⟨hc, hnl, hr⟩),
      show (Text.normalize a).length = offset by omega]

/-- A text with each kind of line end in it, two of them in a row, has five lines. With a vertical
tab in it, the refusal says that it is at the offset 5, since the seven characters before it are
five in the normal form. -/
theorem ofText_scanned_mixedEnds :
    (∃ s, ofText "a\r\n\tb\r\r\nc\nd".toList = .ok s ∧
      s.lines = Text.scanLines false [] "a\r\n\tb\r\r\nc\nd".toList ∧ s.lines.length = 5) ∧
    ofText "a\r\nb\r\r\n\x0b".toList = .error (.unsupportedBreak '\x0b' 5) := by
  constructor
  · have hok : ofText "a\r\n\tb\r\r\nc\nd".toList =
        .ok ⟨["a".toList, " b".toList, [], "c".toList, "d".toList]⟩ := by rfl
    obtain ⟨hlines, hcount, -⟩ := (ofText_scanned _).2.1 _ hok
    exact ⟨_, hok, hlines, hcount⟩
  · have hbefore : ∀ b ∈ "a\r\nb\r\r\n".toList, b ∈ Text.lineBoundaries → b = '\n' ∨ b = '\r' := by
      simp [Text.lineBoundaries]
    exact ((ofText_scanned _).2.2 _).2 ⟨"a\r\nb\r\r\n".toList, '\x0b', [], 5, rfl, hbefore,
      by decide, by decide, by decide, by decide, rfl, rfl⟩

end Source

end RuleTrace
