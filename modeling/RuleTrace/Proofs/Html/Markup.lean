import RuleTrace.Html.Fragment
import RuleTrace.Proofs.Style.Shows

/-!
# Page text and its tags

Page text splits into tags and characters in just one way. That of a graph has no tags but spans,
each with classes of the stylesheet and closed before the next one opens (`IsSpans`), and without
the tags it is the escaped text of the graph without its color codes. This is so for every writer
that does what is documented of the library (`Writer.IsDocumented`).

* `eq_of_text_eq`: the pieces of page text.
* `unescape_escape`: escaped text is read back.
* `flatMap_segments`: the segments of a line.
* `Writer.isDocumented_standard`: a writer that does what is documented.
* `carries_body`: the page text of a terminal text.
-/

namespace RuleTrace.Html

/-! ## Pieces -/

/-- A piece of page text: a character, or a tag with what stands in its brackets. -/
inductive Piece where
  | char (c : Char)
  | tag (inside : Text)
deriving DecidableEq, Repr

namespace Piece

/-- The text of a piece. -/
def text : Piece → Text
  | .char c => [c]
  | .tag inside => '<' :: inside ++ ['>']

/-- Whether a character opens no tag, and a tag has no brackets inside. -/
def IsProper : Piece → Prop
  | .char c => c ≠ '<'
  | .tag inside => '<' ∉ inside ∧ '>' ∉ inside

/-- The character of a piece, none for a tag. -/
def shown : Piece → Text
  | .char c => [c]
  | .tag _ => []

end Piece

/-- A tag ends at the first closing bracket. -/
theorem tag_inj {a b t u : Text} (ha : '>' ∉ a) (hb : '>' ∉ b) (h : a ++ '>' :: t = b ++ '>' :: u) :
    a = b ∧ t = u := by
  induction a generalizing b with
  | nil =>
    cases b with
    | nil => exact ⟨rfl, (List.cons.inj h).2⟩
    | cons d b =>
      obtain ⟨rfl, -⟩ := List.cons.inj h
      exact absurd List.mem_cons_self hb
  | cons c a ih =>
    cases b with
    | nil =>
      obtain ⟨rfl, -⟩ := List.cons.inj h
      exact absurd List.mem_cons_self ha
    | cons d b =>
      obtain ⟨rfl, hrest⟩ := List.cons.inj h
      obtain ⟨rfl, rfl⟩ := ih (fun m => ha (List.mem_cons_of_mem _ m))
        (fun m => hb (List.mem_cons_of_mem _ m)) hrest
      exact ⟨rfl, rfl⟩

/-- Page text is made of pieces in one way. -/
theorem eq_of_text_eq {ps qs : List Piece} (hps : ∀ p ∈ ps, p.IsProper)
    (hqs : ∀ q ∈ qs, q.IsProper) (h : ps.flatMap Piece.text = qs.flatMap Piece.text) : ps = qs := by
  induction ps generalizing qs with
  | nil =>
    cases qs with
    | nil => rfl
    | cons q qs => cases q <;> cases h
  | cons p ps ih =>
    rw [List.forall_mem_cons] at hps
    cases qs with
    | nil => cases p <;> cases h
    | cons q qs =>
      rw [List.forall_mem_cons] at hqs
      rw [List.flatMap_cons, List.flatMap_cons] at h
      cases p with
      | char c =>
        cases q with
        | char d =>
          obtain ⟨rfl, hrest⟩ := List.cons.inj h
          rw [ih hps.2 hqs.2 hrest]
        | tag b => exact absurd (List.cons.inj h).1 hps.1
      | tag a =>
        cases q with
        | char d => exact absurd (List.cons.inj h).1.symm hqs.1
        | tag b =>
          simp only [Piece.text, List.cons_append, List.append_assoc, List.nil_append,
            List.cons.injEq, true_and] at h
          obtain ⟨rfl, hrest⟩ := tag_inj hps.1.2 hqs.1.2 h
          rw [ih hps.2 hqs.2 hrest]

/-! ## Spans -/

/-- The names of the classes that color codes select. -/
def classNames : List Text :=
  Segment.classes.map (·.2)

/-- Whether a tag opens a span with classes that color codes select. -/
def OpensSpan (inside : Text) : Prop :=
  ∃ names, names ≠ [] ∧ (∀ name ∈ names, name ∈ classNames) ∧
    inside = "span class=\"".toList ++ classAttribute names ++ ['"']

/-- Whether all tags are spans that open and close in turn, the first one closing if a span is open
before. -/
def IsSpans : Bool → List Piece → Prop
  | isOpen, [] => isOpen = false
  | isOpen, .char _ :: ps => IsSpans isOpen ps
  | false, .tag inside :: ps => OpensSpan inside ∧ IsSpans true ps
  | true, .tag inside :: ps => inside = "/span".toList ∧ IsSpans false ps

theorem IsSpans.append {ps qs : List Piece} {isOpen : Bool} (hps : IsSpans isOpen ps)
    (hqs : IsSpans false qs) : IsSpans isOpen (ps ++ qs) := by
  induction ps generalizing isOpen with
  | nil => exact (show isOpen = false from hps) ▸ hqs
  | cons p ps ih =>
    cases p with
    | char c => exact ih hps
    | tag inside =>
      cases isOpen with
      | false => exact ⟨hps.1, ih hps.2⟩
      | true => exact ⟨hps.1, ih hps.2⟩

/-- Characters neither open nor close a span. -/
theorem isSpans_chars_append {isOpen : Bool} (t : Text) {ps : List Piece}
    (h : IsSpans isOpen ps) : IsSpans isOpen (t.map .char ++ ps) := by
  induction t with
  | nil => exact h
  | cons c t ih => exact ih

/-! ## Escaped text -/

/-- Page text with its entities read back. -/
def unescape : Text → Text
  | '&' :: 'l' :: 't' :: ';' :: t => '<' :: unescape t
  | '&' :: 'a' :: 'm' :: 'p' :: ';' :: t => '&' :: unescape t
  | c :: t => c :: unescape t
  | [] => []

theorem unescape_cons_of_ne {c : Char} (h : c ≠ '&') (t : Text) :
    unescape (c :: t) = c :: unescape t := by
  rw [unescape]
  · rintro u rfl -
    exact h rfl
  · rintro u rfl -
    exact h rfl

/-- Escaped text is read back. -/
theorem unescape_escape (t : Text) : unescape (t.flatMap escape) = t := by
  induction t with
  | nil => rfl
  | cons c t ih =>
    rw [List.flatMap_cons]
    by_cases hamp : c = '&'
    · subst hamp
      exact congrArg ('&' :: ·) ih
    · by_cases hlt : c = '<'
      · subst hlt
        exact congrArg ('<' :: ·) ih
      · have hc : escape c = [c] := by simp [escape, hamp, hlt]
        rw [hc, List.singleton_append, unescape_cons_of_ne hamp, ih]

theorem ne_of_mem_escape (t : Text) : ∀ c ∈ t.flatMap escape, c ≠ '<' := by
  intro c hc
  obtain ⟨d, -, hd⟩ := List.mem_flatMap.1 hc
  unfold escape at hd
  split at hd
  · rintro rfl
    exact absurd hd (by decide)
  · split at hd
    · rintro rfl
      exact absurd hd (by decide)
    · next h =>
      rw [List.mem_singleton.1 hd]
      exact h

/-! ## The page text of a graph -/

/-- Page text that shows a text: its pieces are characters and spans, and the characters are those
of the escaped text. -/
structure IsMarkup (pieces : List Piece) (shown u : Text) : Prop where
  proper : ∀ p ∈ pieces, p.IsProper
  text : pieces.flatMap Piece.text = u
  spans : IsSpans false pieces
  shown : pieces.flatMap Piece.shown = shown.flatMap escape

theorem IsMarkup.append {ps qs : List Piece} {t u a b : Text} (h : IsMarkup ps t a)
    (h' : IsMarkup qs u b) : IsMarkup (ps ++ qs) (t ++ u) (a ++ b) where
  proper := List.forall_mem_append.2 ⟨h.proper, h'.proper⟩
  text := by rw [List.flatMap_append, h.text, h'.text]
  spans := h.spans.append h'.spans
  shown := by rw [List.flatMap_append, List.flatMap_append, h.shown, h'.shown]

/-- Text without classes is characters only. -/
theorem isMarkup_escape (t : Text) :
    IsMarkup ((t.flatMap escape).map .char) t (t.flatMap escape) where
  proper := List.forall_mem_map.2 (ne_of_mem_escape t)
  text := by
    rw [List.flatMap_map]
    exact List.flatMap_singleton' _
  spans := by
    have hnone : IsSpans false [] := rfl
    simpa using isSpans_chars_append (t.flatMap escape) hnone
  shown := by
    rw [List.flatMap_map]
    exact List.flatMap_singleton' _

/-! ## Segments -/

/-- The texts of the runs of some tokens make up what is left without color codes. -/
theorem uncolored_runs (ts : List Token) :
    (Segment.runs ts).1 ++ (Segment.runs ts).2.flatMap (·.2) = ts.flatMap Token.uncolored := by
  induction ts with
  | nil => rfl
  | cons token ts ih =>
    rw [List.flatMap_cons, ← ih]
    rcases hruns : Segment.runs ts with ⟨t, rest⟩
    simp only [Segment.runs, hruns, Token.uncolored]
    split <;> simp

theorem flatMap_ofText (t : Text) (selected : List Text) :
    (Segment.ofText t selected).flatMap (·.1) = t := by
  unfold Segment.ofText
  split
  · next h => exact (List.isEmpty_iff.1 h).symm
  · simp

theorem flatMap_ofRuns (selected : List Text) (runs : List (Text × Text)) :
    (Segment.ofRuns selected runs).flatMap (·.1) = runs.flatMap (·.2) := by
  induction runs generalizing selected with
  | nil => rfl
  | cons run runs ih =>
    simp only [Segment.ofRuns, List.flatMap_append, flatMap_ofText, ih, List.flatMap_cons]

/-- The texts of the segments of a line make up the line without its color codes. -/
theorem flatMap_segments (line : Text) : (segments line).flatMap (·.1) = stripColors line := by
  rw [segments, List.flatMap_append, flatMap_ofText, flatMap_ofRuns, uncolored_runs,
    ← stripColors_eq]

theorem mem_classNames_of_mem_select (parameters : Text) {before : List Text}
    (h : ∀ name ∈ before, name ∈ classNames) :
    ∀ name ∈ Segment.select parameters before, name ∈ classNames := by
  intro name hname
  rw [Segment.select] at hname
  split at hname
  · cases hname
  · rcases List.mem_append.1 hname with hname | hname
    · exact h name hname
    · obtain ⟨p, -, hp⟩ := List.mem_filterMap.1 hname
      exact List.mem_map_of_mem (mem_of_lookup hp)

theorem snd_of_mem_ofText {t : Text} {selected : List Text} {s : Text × List Text}
    (h : s ∈ Segment.ofText t selected) : s.2 = selected := by
  unfold Segment.ofText at h
  split at h
  · cases h
  · rw [List.mem_singleton.1 h]

theorem mem_classNames_of_mem_ofRuns {selected : List Text} {runs : List (Text × Text)}
    (h : ∀ name ∈ selected, name ∈ classNames) :
    ∀ s ∈ Segment.ofRuns selected runs, ∀ name ∈ s.2, name ∈ classNames := by
  induction runs generalizing selected with
  | nil => simp [Segment.ofRuns]
  | cons run runs ih =>
    intro s hs
    have hselect := mem_classNames_of_mem_select run.1 h
    rcases List.mem_append.1 hs with hs | hs
    · rw [snd_of_mem_ofText hs]
      exact hselect
    · exact ih hselect s hs

/-- Segments have no classes but those that color codes select. -/
theorem mem_classNames_of_mem_segments {line : Text} :
    ∀ s ∈ segments line, ∀ name ∈ s.2, name ∈ classNames := by
  intro s hs
  rcases List.mem_append.1 hs with hs | hs
  · rw [snd_of_mem_ofText hs]
    exact fun name hname => absurd hname List.not_mem_nil
  · exact mem_classNames_of_mem_ofRuns (fun name hname => absurd hname List.not_mem_nil) s hs

/-! ## The library -/

/-- The elements of a fragment. -/
def elements : List Text :=
  ["div".toList, "pre".toList, "span".toList]

/-- Whether a character may stand in names of classes or between them. -/
def isNameChar (c : Char) : Bool :=
  c.isAlpha || c = '-' || c = ' '

/-- What is documented of the library that writes page text. An element is opened and closed by its
name in brackets, with class names in quotes unless they are one plain word; a text has its `&` and
`<` escaped and nothing else; and a stylesheet is written as it is. -/
structure Writer.IsDocumented (w : Writer) : Prop where
  opening_word : ∀ element ∈ elements, ∀ value, value ≠ [] → (∀ c ∈ value, c.isAlpha = true) →
    w.opening element value = '<' :: element ++ " class=".toList ++ value ++ ['>']
  opening_names : ∀ element ∈ elements, ∀ value, '-' ∈ value → (∀ c ∈ value, isNameChar c = true) →
    w.opening element value = '<' :: element ++ " class=\"".toList ++ value ++ "\">".toList
  closing : ∀ element ∈ elements, w.closing element = "</".toList ++ element ++ ['>']
  text : ∀ t, w.text t = t.flatMap escape
  style : ∀ sheet, '<' ∉ sheet → w.style sheet = "<style>".toList ++ sheet ++ "</style>".toList

theorem Writer.isDocumented_standard : Writer.standard.IsDocumented where
  opening_word element _ value _ hvalue := by
    have hword : value.all Char.isAlphanum = true :=
      List.all_eq_true.2 fun c hc => by rw [Char.isAlphanum, hvalue c hc, Bool.true_or]
    simp only [standard, hword, if_true]
  opening_names element _ value hyphen _ := by
    have hnames : ¬value.all Char.isAlphanum = true := fun hall =>
      absurd (List.all_eq_true.1 hall '-' hyphen) (by decide)
    simp only [standard, if_neg hnames]
    simp
  closing _ _ := rfl
  text _ := rfl
  style _ _ := rfl

/-! ## Lines -/

theorem notMem_classAttribute {c : Char} (hblank : c ≠ ' ') {names : List Text}
    (h : ∀ name ∈ names, c ∉ name) : c ∉ classAttribute names := by
  fun_induction classAttribute names with
  | case1 => exact List.not_mem_nil
  | case2 name => exact h name List.mem_cons_self
  | case3 name rest _ ih =>
    rw [List.mem_append, List.mem_cons, not_or, not_or]
    exact ⟨h name List.mem_cons_self, hblank, ih fun d hd => h d (List.mem_cons_of_mem name hd)⟩

/-- The tag that opens a span has no brackets inside. -/
theorem OpensSpan.isProper {inside : Text} (h : OpensSpan inside) :
    (Piece.tag inside).IsProper := by
  obtain ⟨names, -, hnames, rfl⟩ := h
  have hclean : ∀ name ∈ classNames, '<' ∉ name ∧ '>' ∉ name := by decide
  simp only [Piece.IsProper, List.mem_append, not_or]
  exact ⟨⟨⟨by decide, notMem_classAttribute (by decide) fun name hname =>
      (hclean name (hnames name hname)).1⟩, by decide⟩,
    ⟨by decide, notMem_classAttribute (by decide) fun name hname =>
      (hclean name (hnames name hname)).2⟩, by decide⟩

theorem isNameChar_classAttribute {names : List Text}
    (h : ∀ name ∈ names, ∀ c ∈ name, isNameChar c = true) :
    ∀ c ∈ classAttribute names, isNameChar c = true := by
  fun_induction classAttribute names with
  | case1 => exact fun c hc => absurd hc List.not_mem_nil
  | case2 name => exact h name List.mem_cons_self
  | case3 name rest _ ih =>
    simp only [List.forall_mem_append, List.forall_mem_cons]
    exact ⟨h name List.mem_cons_self, rfl, ih fun d hd => h d (List.mem_cons_of_mem name hd)⟩

section
variable {w : Writer} (hw : w.IsDocumented)
include hw

/-- The tag that opens a span. -/
theorem opening_span {names : List Text} (hne : names ≠ [])
    (h : ∀ name ∈ names, name ∈ classNames) :
    w.opening "span".toList (classAttribute names) =
      '<' :: ("span class=\"".toList ++ classAttribute names ++ ['"']) ++ ['>'] := by
  have hclass : ∀ name ∈ classNames, '-' ∈ name ∧ name.all isNameChar = true := by decide
  have hyphen : '-' ∈ classAttribute names := by
    match names, hne with
    | [name], _ => exact (hclass name (h name List.mem_cons_self)).1
    | name :: next :: rest, _ =>
      exact List.mem_append_left _ (hclass name (h name List.mem_cons_self)).1
  have hchars := isNameChar_classAttribute fun name hname =>
    List.all_eq_true.1 (hclass name (h name hname)).2
  rw [hw.opening_names _ (by decide) _ hyphen hchars]
  simp

/-- A segment is text, in a span if it has classes. -/
theorem exists_isMarkup_segment {s : Text × List Text} (h : ∀ name ∈ s.2, name ∈ classNames) :
    ∃ ps, IsMarkup ps s.1 (segment w s) := by
  obtain ⟨t, names⟩ := s
  cases names with
  | nil =>
    rw [segment, hw.text]
    exact ⟨_, isMarkup_escape t⟩
  | cons name rest =>
    let inside := "span class=\"".toList ++ classAttribute (name :: rest) ++ ['"']
    have hopens : OpensSpan inside := ⟨name :: rest, List.cons_ne_nil name rest, h, rfl⟩
    refine ⟨.tag inside :: ((t.flatMap escape).map .char ++ [.tag "/span".toList]), ?_, ?_, ?_, ?_⟩
    · rw [List.forall_mem_cons, List.forall_mem_append]
      exact ⟨hopens.isProper, (isMarkup_escape t).proper, by simp [Piece.IsProper]⟩
    · have hsegment : segment w (t, name :: rest) = w.opening "span".toList
          (classAttribute (name :: rest)) ++ w.text t ++ w.closing "span".toList := rfl
      rw [List.flatMap_cons, List.flatMap_append, (isMarkup_escape t).text, hsegment,
        opening_span hw (List.cons_ne_nil name rest) h, hw.text, hw.closing _ (by decide)]
      simp [Piece.text, inside]
    · exact ⟨hopens, isSpans_chars_append _ ⟨rfl, rfl⟩⟩
    · rw [List.flatMap_cons, List.flatMap_append, (isMarkup_escape t).shown]
      simp [Piece.shown]

theorem exists_isMarkup_flatMap {ss : List (Text × List Text)}
    (h : ∀ s ∈ ss, ∀ name ∈ s.2, name ∈ classNames) :
    ∃ ps, IsMarkup ps (ss.flatMap (·.1)) (ss.flatMap (segment w)) := by
  induction ss with
  | nil => exact ⟨[], by simp, rfl, rfl, rfl⟩
  | cons s ss ih =>
    rw [List.forall_mem_cons] at h
    obtain ⟨ps, hps⟩ := exists_isMarkup_segment hw h.1
    obtain ⟨qs, hqs⟩ := ih h.2
    exact ⟨ps ++ qs, hps.append hqs⟩

/-- The page text of lines shows the lines without their color codes. -/
theorem exists_isMarkup_unlines (ls : List Text) :
    ∃ ps, IsMarkup ps (Text.unlines (ls.map stripColors))
      ((w.text ['\n']).intercalate (ls.map fun line => (segments line).flatMap (segment w))) := by
  have hline : ∀ line, ∃ ps,
      IsMarkup ps (stripColors line) ((segments line).flatMap (segment w)) := by
    intro line
    rw [← flatMap_segments]
    exact exists_isMarkup_flatMap hw mem_classNames_of_mem_segments
  fun_induction Text.unlines ls with
  | case1 => exact ⟨[], by simp, rfl, rfl, rfl⟩
  | case2 line =>
    rw [List.map_singleton, List.map_singleton, List.intercalate_singleton]
    exact hline line
  | case3 line rest hrest ih =>
    obtain ⟨next, others, rfl⟩ := List.exists_cons_of_ne_nil hrest
    obtain ⟨ps, hps⟩ := hline line
    obtain ⟨qs, hqs⟩ := ih
    have hbreak := isMarkup_escape ['\n']
    rw [← hw.text] at hbreak
    have hrows : (w.text ['\n']).intercalate
        ((line :: next :: others).map fun line => (segments line).flatMap (segment w)) =
          (segments line).flatMap (segment w) ++ (w.text ['\n'] ++ (w.text ['\n']).intercalate
            ((next :: others).map fun line => (segments line).flatMap (segment w))) := by
      rw [List.map_cons, List.map_cons, List.intercalate_cons_cons, List.append_assoc]
    rw [hrows]
    exact ⟨_, hps.append (hbreak.append hqs)⟩

/-- The page text of a terminal text shows the text without its color codes. -/
theorem exists_isMarkup_body (t : Text) : ∃ ps, IsMarkup ps (stripColors t) (body w t) := by
  obtain ⟨ps, hps⟩ := exists_isMarkup_unlines hw t.lines
  rw [← stripColors_unlines, Text.unlines_lines] at hps
  exact ⟨ps, hps⟩

end

/-- Page text carries a text: it splits into proper pieces in one way, has no tags but spans that
open and close in turn, and without the tags and with its entities read back it is the text. -/
def Carries (content shown : Text) : Prop :=
  ∃ ps : List Piece, (∀ p ∈ ps, p.IsProper) ∧ ps.flatMap Piece.text = content ∧
    (∀ qs : List Piece, (∀ q ∈ qs, q.IsProper) → qs.flatMap Piece.text = content → qs = ps) ∧
    IsSpans false ps ∧ unescape (ps.flatMap Piece.shown) = shown

/-- The page text of a terminal text carries the text without its color codes. -/
theorem carries_body {w : Writer} (hw : w.IsDocumented) (t : Text) :
    Carries (body w t) (stripColors t) := by
  obtain ⟨ps, hps⟩ := exists_isMarkup_body hw t
  refine ⟨ps, hps.proper, hps.text, fun qs hqs htext => ?_, hps.spans, ?_⟩
  · exact eq_of_text_eq hqs hps.proper (htext.trans hps.text.symm)
  · rw [hps.shown, unescape_escape]

end RuleTrace.Html
