import RuleTrace.Proofs.Style.Shows
import RuleTrace.Style.Segment

/-!
# Reading painted text back

A stroke is a text with a style on part of it, and a line is painted stroke by stroke. Cutting the
line at its color codes (`segments`) gives back every character, with the classes of its style if it
is in that part and with none if it is not. Every stroke begins and ends with no classes in force,
so strokes can be read one by one, whatever is written after them.

* `expand_segments`: segments are what is read token by token, with the classes that the codes
  select (`readTokens`).
* `Style.select_parameters`: the code of a style selects its classes.
* `readTokens_painted`: a stroke is read back, whatever follows it.
* `segments_painted`: so is a line.
-/

namespace RuleTrace

/-! ## Strokes -/

namespace Style

/-- The class for a name, if a table knows it. -/
def className? (kind : Text) (table : List (Text × Text)) (name : Text) : Option Text :=
  (table.lookup name).map fun _ => kind ++ name

/-- The classes of a style: its color, white if that is unknown; its background, black if that is
unknown; its effect, if that is known. -/
def classes (s : Style) : List Text :=
  (s.color.map fun name => (className? "fg-".toList colors name).getD "fg-white".toList).toList ++
    (s.background.map fun name =>
      (className? "bg-".toList backgrounds name).getD "bg-black".toList).toList ++
    (s.effect.bind (className? "attr-".toList effects)).toList

end Style

/-- Whether the character at a place of a text is in a part of it. -/
def Extent.covers (t : Text) : Extent → Nat → Bool
  | .whole, _ => true
  | .slice start stop, i => Text.cut t.length start ≤ i && i < Text.cut t.length (stopIn t stop)

theorem Extent.covers_slice {t : Text} {start : Int} {stop : Option Int} {i : Nat} :
    (slice start stop).covers t i = true ↔
      Text.cut t.length start ≤ i ∧ i < Text.cut t.length (stopIn t stop) := by
  simp [covers]

instance (t : Text) : (e : Extent) → Decidable (e.Ordered t)
  | .whole => isTrue trivial
  | .slice _ _ => inferInstanceAs (Decidable (_ ≤ _))

/-- A text with a style on part of it. -/
structure Stroke where
  text : Text
  style : Option Style := none
  extent : Extent := .whole
deriving DecidableEq, Repr

namespace Stroke

/-- The text as it is painted. -/
def painted (s : Stroke) : Text :=
  Ink.colored.paint s.style s.text s.extent

/-- The classes of the style, if there is one. -/
def classes (s : Stroke) : List Text :=
  s.style.elim [] Style.classes

/-- The characters, each with the classes that it is shown with. -/
def chars (s : Stroke) : List (Char × List Text) :=
  s.text.mapIdx fun i c => (c, if s.extent.covers s.text i then s.classes else [])

end Stroke

namespace Segment

/-- The characters of segments, each with the classes of its segment. -/
def expand (l : List (Text × List Text)) : List (Char × List Text) :=
  l.flatMap fun (t, selected) => t.map (·, selected)

/-! ## Reading token by token -/

/-- The characters of tokens other than color codes, each with the classes in force at it. -/
def readTokens (selected : List Text) : List Token → List (Char × List Text)
  | [] => []
  | .sequence parameters 'm' :: ts => readTokens (select parameters selected) ts
  | token :: ts => token.text.map (·, selected) ++ readTokens selected ts

theorem expand_append (l m : List (Text × List Text)) : expand (l ++ m) = expand l ++ expand m :=
  List.flatMap_append

theorem expand_ofText (t : Text) (selected : List Text) :
    expand (ofText t selected) = t.map (·, selected) := by
  unfold ofText
  split
  · next h => simp [expand, List.isEmpty_iff.1 h]
  · simp [expand]

theorem expand_runs (selected : List Text) (ts : List Token) :
    (runs ts).1.map (·, selected) ++ expand (ofRuns selected (runs ts).2) =
      readTokens selected ts := by
  fun_induction readTokens selected ts with
  | case1 selected => rfl
  | case2 selected parameters ts ih =>
    simp [runs, ofRuns, expand_append, expand_ofText, ih]
  | case3 selected token ts hcode ih =>
    rw [← ih]
    simp [runs]

theorem expand_segments (line : Text) : expand (segments line) = readTokens [] (tokens line) := by
  rw [segments, expand_append, expand_ofText, expand_runs]

theorem ne_nil_of_mem_ofText {t : Text} {selected : List Text} {s : Text × List Text}
    (h : s ∈ ofText t selected) : s.1 ≠ [] := by
  unfold ofText at h
  split at h
  · cases h
  · next ht =>
    rw [List.mem_singleton.1 h]
    exact fun heq => ht (List.isEmpty_iff.2 heq)

/-- No segment is empty. -/
theorem ne_nil_of_mem_segments {line : Text} {s : Text × List Text} (h : s ∈ segments line) :
    s.1 ≠ [] := by
  have hruns : ∀ selected rs, s ∈ ofRuns selected rs → s.1 ≠ [] := by
    intro selected rs hs
    induction rs generalizing selected with
    | nil => cases hs
    | cons run rs ih =>
      rcases List.mem_append.1 hs with hs | hs
      · exact ne_nil_of_mem_ofText hs
      · exact ih _ hs
  rcases List.mem_append.1 h with h | h
  · exact ne_nil_of_mem_ofText h
  · exact hruns _ _ h

theorem readTokens_append_of_notMem {t : Text} (h : escapeChar ∉ t) (selected : List Text)
    (rest : Text) : readTokens selected (tokens (t ++ rest)) =
      t.map (·, selected) ++ readTokens selected (tokens rest) := by
  rw [tokens_append_of_notMem h]
  induction t with
  | nil => rfl
  | cons c t ih =>
    have ih := ih fun hm => h (List.mem_cons_of_mem c hm)
    simp [readTokens, Token.text, ih]

theorem readTokens_color_append {ps : Text} (h : ps.all Token.isParameter) (selected : List Text)
    (rest : Text) : readTokens selected (tokens (escapeSequence ps 'm' ++ rest)) =
      readTokens (select ps selected) (tokens rest) := by
  rw [tokens_escapeSequence_append (List.all_eq_true.1 h) (by decide) (by decide), readTokens]

/-! ## Parameters -/

/-- The first of the parameters ends at a semicolon or with the text. -/
theorem parameterList_append {p t : Text} (h0 : p ≠ []) (hp : ';' ∉ p)
    (ht : ∀ c ∈ t.head?, c = ';') : parameterList (p ++ t) = p :: parameterList t := by
  induction p with
  | nil => exact absurd rfl h0
  | cons c p ih =>
    rw [List.mem_cons, not_or] at hp
    have hc : c ≠ ';' := Ne.symm hp.1
    cases p with
    | nil =>
      cases t with
      | nil => simp [parameterList, hc]
      | cons d t =>
        obtain rfl := ht d rfl
        simp [parameterList, hc]
    | cons d p =>
      have hd : d ≠ ';' := fun heq => hp.2 (heq ▸ List.mem_cons_self)
      have ih : parameterList (d :: (p ++ t)) = (d :: p) :: parameterList t :=
        ih (List.cons_ne_nil d p) hp.2
      rw [List.cons_append, List.cons_append, parameterList.eq_def]
      simp only [if_neg hc, if_neg hd, ih]

theorem parameterList_joinParameters {ps : List Text} (h : ∀ p ∈ ps, ';' ∉ p) :
    parameterList (joinParameters ps) = ps.filter (· ≠ []) := by
  fun_induction joinParameters ps with
  | case1 => rfl
  | case2 p =>
    by_cases h0 : p = []
    · simp [h0, parameterList]
    · have hlist := parameterList_append (t := []) h0 (h p List.mem_cons_self) (by simp)
      rw [List.append_nil] at hlist
      simp [h0, hlist, parameterList]
  | case3 p ps _ ih =>
    have ih := ih fun q hq => h q (List.mem_cons_of_mem p hq)
    have hskip : parameterList (';' :: joinParameters ps) = ps.filter (· ≠ []) := by
      simp [parameterList, ih]
    by_cases h0 : p = []
    · rw [h0, List.nil_append, hskip]
      simp
    · rw [parameterList_append h0 (h p List.mem_cons_self) (by simp), hskip]
      simp [h0]

/-- What a table gives for a name selects the class of the name, if the table knows it. -/
theorem lookup_parameter (kind : Text) {table : List (Text × Text)} (unknown : Text)
    (htable : ∀ entry ∈ table, classes.lookup entry.2 = some (kind ++ entry.1))
    (name : Text) : classes.lookup ((table.lookup name).getD unknown) =
      (Style.className? kind table name).or (classes.lookup unknown) := by
  unfold Style.className?
  cases h : table.lookup name with
  | none => rfl
  | some parameter => exact htable _ (mem_of_lookup h)

theorem filterMap_parameters (s : Style) :
    s.parameters.filterMap (fun p => classes.lookup p) = s.classes := by
  have hcolor := lookup_parameter "fg-".toList "37".toList
    (show ∀ entry ∈ Style.colors, _ by decide)
  have hbackground := lookup_parameter "bg-".toList "40".toList
    (show ∀ entry ∈ Style.backgrounds, _ by decide)
  have heffect := lookup_parameter "attr-".toList [] (show ∀ entry ∈ Style.effects, _ by decide)
  have hwhite : classes.lookup "37".toList = some "fg-white".toList := by decide
  have hblack : classes.lookup "40".toList = some "bg-black".toList := by decide
  have hnone : classes.lookup [] = none := by decide
  simp only [hwhite, Option.or_some] at hcolor
  simp only [hblack, Option.or_some] at hbackground
  simp only [hnone, Option.or_none] at heffect
  rw [Style.parameters, Style.classes, List.filterMap_append, List.filterMap_append]
  congr 1
  · congr 1
    · cases s.color with
      | none => rfl
      | some name => exact List.filterMap_cons_some (hcolor name)
    · cases s.background with
      | none => rfl
      | some name => exact List.filterMap_cons_some (hbackground name)
  · cases s.effect with
    | none => rfl
    | some name =>
      have hselected := heffect name
      rw [Option.bind_some]
      cases hname : Style.className? "attr-".toList Style.effects name with
      | none => exact List.filterMap_cons_none (hselected.trans hname)
      | some _ => exact List.filterMap_cons_some (hselected.trans hname)

/-- The code of a style selects its classes. -/
theorem select_parameters (s : Style) : select (joinParameters s.parameters) [] = s.classes := by
  have hcodes : ∀ p ∈ Style.allParameters, ';' ∉ p ∧ p ≠ ['0'] := by decide
  have hps : ∀ p ∈ s.parameters, ';' ∉ p ∧ p ≠ ['0'] := fun p hp =>
    hcodes p (Style.mem_allParameters hp)
  have hlist := parameterList_joinParameters fun p hp => (hps p hp).1
  have hzero : (s.parameters.filter (· ≠ [])).contains ['0'] = false := by
    simpa using fun hp => absurd rfl (hps _ hp).2
  have hclasses : (s.parameters.filter (· ≠ [])).filterMap (fun p => classes.lookup p) =
      s.classes := by
    rw [← filterMap_parameters, List.filterMap_filter]
    refine List.filterMap_congr fun p _ => ?_
    by_cases h0 : p = []
    · subst h0
      decide
    · simp [h0]
  rw [select, hlist, hzero, Bool.or_false]
  split
  · next hempty => rw [← hclasses, List.isEmpty_iff.1 hempty, List.filterMap_nil]
  · rw [List.nil_append, hclasses]

theorem select_reset (selected : List Text) : select ['0'] selected = [] := by
  have hlist : parameterList ['0'] = [['0']] := by decide
  rw [select, hlist]
  rfl

/-! ## Strokes -/

theorem readTokens_reset (selected : List Text) (rest : Text) :
    readTokens selected (tokens (resetCode ++ rest)) = readTokens [] (tokens rest) := by
  rw [resetCode, readTokens_color_append (by decide), select_reset]

theorem classes_of_styleCode_eq_nil {style : Option Style} (h : styleCode style = []) :
    style.elim [] Style.classes = [] := by
  cases style with
  | none => rfl
  | some s =>
    rw [styleCode, Style.code] at h
    split at h
    · next hnone => rw [Option.elim_some, ← filterMap_parameters, hnone, List.filterMap_nil]
    · cases h

/-- After the code of a style its classes are in force. -/
theorem readTokens_styleCode (style : Option Style) (rest : Text) :
    readTokens [] (tokens (styleCode style ++ rest)) =
      readTokens (style.elim [] Style.classes) (tokens rest) := by
  by_cases h : styleCode style = []
  · rw [h, classes_of_styleCode_eq_nil h, List.nil_append]
  · cases style with
    | none => exact absurd rfl h
    | some s =>
      have hparameters := isParameter_joinParameters (isParameter_parameters s)
      rw [styleCode, Style.code] at h ⊢
      split
      · next hnone => simp [hnone] at h
      · rw [readTokens_color_append hparameters, select_parameters, Option.elim_some]

theorem length_upto (t : Text) (stop : Int) : (t.upto stop).length = Text.cut t.length stop := by
  rw [Text.upto, List.length_take, Nat.min_eq_left (Text.cut_le _ _)]

/-- The characters of a stroke have the classes of its style between the ends of the slice. -/
theorem chars_slice {t : Text} (style : Option Style) {start : Int} {stop : Option Int}
    (h : (Extent.slice start stop).Ordered t) :
    Stroke.chars ⟨t, style, .slice start stop⟩ =
      (t.upto start).map (·, []) ++
          (t.between start (Extent.stopIn t stop)).map (·, style.elim [] Style.classes) ++
        (t.onward (Extent.stopIn t stop)).map (·, []) := by
  have hfront := length_upto t start
  have hmiddle := congrArg List.length (Text.upto_append_between h)
  rw [length_upto] at hmiddle
  have hparts : ∀ f : Nat → Char → Char × List Text, t.mapIdx f =
      (t.upto start).mapIdx f ++
          (t.between start (Extent.stopIn t stop)).mapIdx
            (fun i => f (i + Text.cut t.length start)) ++
        (t.onward (Extent.stopIn t stop)).mapIdx
          fun i => f (i + Text.cut t.length (Extent.stopIn t stop)) := by
    intro f
    conv => lhs; rw [← Text.upto_between_onward h]
    rw [List.mapIdx_append, List.mapIdx_append, hfront, hmiddle]
  rw [List.length_append, hfront] at hmiddle
  unfold Stroke.chars
  dsimp only
  rw [hparts]
  congr 1
  · congr 1
    · refine mapIdx_of_forall fun i hi c => ?_
      rw [if_neg (by rw [Extent.covers_slice]; omega)]
    · refine mapIdx_of_forall fun i hi c => ?_
      rw [if_pos (by rw [Extent.covers_slice]; omega)]
      rfl
  · refine mapIdx_of_forall fun i hi c => ?_
    rw [if_neg (by rw [Extent.covers_slice]; omega)]

/-- A stroke is read back, whatever is written after it. -/
theorem readTokens_painted {s : Stroke} (ht : escapeChar ∉ s.text) (h : s.extent.Ordered s.text)
    (rest : Text) :
    readTokens [] (tokens (s.painted ++ rest)) = s.chars ++ readTokens [] (tokens rest) := by
  obtain ⟨t, style, extent⟩ := s
  have hcode := readTokens_styleCode style
  unfold Stroke.painted Ink.paint
  simp only
  split
  · next hnone =>
    have hclasses := classes_of_styleCode_eq_nil hnone
    rw [readTokens_append_of_notMem ht, Stroke.chars]
    simp [Stroke.classes, hclasses, mapIdx_of_forall]
  · cases extent with
    | whole =>
      simp only [List.append_assoc]
      rw [hcode, readTokens_append_of_notMem ht, readTokens_reset, Stroke.chars]
      simp [Extent.covers, Stroke.classes, mapIdx_of_forall]
    | slice start stop =>
      have hparts := ht
      rw [← Text.upto_between_onward h, List.mem_append, List.mem_append, not_or, not_or] at hparts
      obtain ⟨⟨hupto, hbetween⟩, honward⟩ := hparts
      simp only [List.append_assoc]
      rw [readTokens_append_of_notMem hupto, hcode, readTokens_append_of_notMem hbetween,
        readTokens_reset, readTokens_append_of_notMem honward, chars_slice style h,
        List.append_assoc, List.append_assoc]

end Segment

/-- Painted text is read back. Cutting a line of strokes at its color codes gives every character of
every stroke in order, with the classes of its style if it is in the part with the style, and with
none if it is not. No segment is empty, and no class is left in force for what is written after the
line. -/
theorem segments_painted {strokes : List Stroke}
    (h : ∀ s ∈ strokes, escapeChar ∉ s.text ∧ s.extent.Ordered s.text) :
    let line := strokes.flatMap Stroke.painted
    Segment.expand (segments line) = strokes.flatMap Stroke.chars ∧
      (∀ segment ∈ segments line, segment.1 ≠ []) ∧
      ∀ rest, Segment.expand (segments (line ++ rest)) =
        strokes.flatMap Stroke.chars ++ Segment.expand (segments rest) := by
  intro line
  have hread : ∀ rest, Segment.expand (segments (line ++ rest)) =
      strokes.flatMap Stroke.chars ++ Segment.expand (segments rest) := by
    intro rest
    rw [Segment.expand_segments, Segment.expand_segments]
    induction strokes with
    | nil => rfl
    | cons s strokes ih =>
      rw [List.forall_mem_cons] at h
      simp only [line, List.flatMap_cons, List.append_assoc] at ih ⊢
      rw [Segment.readTokens_painted h.1.1 h.1.2, ih h.2]
  refine ⟨?_, fun _ hs => Segment.ne_nil_of_mem_segments hs, hread⟩
  have hnil : Segment.expand (segments []) = [] := rfl
  have hline := hread []
  rwa [List.append_nil, hnil, List.append_nil] at hline

/-- An unknown color is shown as white and an unknown effect not at all. The first stroke has its
style from the second character on. -/
theorem segments_painted_unknownNames :
    let strokes : List Stroke :=
      [⟨"ab".toList, some { color := some "red".toList, effect := some "glow".toList },
          .slice (-1) (some 0)⟩,
        ⟨"c".toList, none, .whole⟩,
        ⟨"d".toList, some { color := some "teal".toList, effect := some "bold".toList }, .whole⟩]
    (∀ s ∈ strokes, escapeChar ∉ s.text ∧ s.extent.Ordered s.text) ∧
      Segment.expand (segments (strokes.flatMap Stroke.painted)) =
        [('a', []), ('b', ["fg-red".toList]), ('c', []),
          ('d', ["fg-white".toList, "attr-bold".toList])] := by
  intro strokes
  have h : ∀ s ∈ strokes, escapeChar ∉ s.text ∧ s.extent.Ordered s.text := by decide
  exact ⟨h, (segments_painted h).1.trans (by decide)⟩

end RuleTrace
