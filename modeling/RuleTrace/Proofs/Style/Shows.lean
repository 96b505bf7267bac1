import Mathlib.Data.List.Forall2
import RuleTrace.Proofs.Style.Colors

/-!
# What painted text shows

A text shows another one if that is what is left of it without its escape sequences, whatever is
written after it, and its sequences are color codes. Text without escape characters shows itself, a
style shows nothing, and texts that are put together show what their parts do. So a painted text
shows the text.

* `Ink.shows_paint`: painting all of a text, or a part whose ends are in order, shows the text.
* `Shows.stripEscapes_eq`, `Shows.stripColors_eq`: what is left of a text is what it shows.
-/

namespace RuleTrace

/-- A text shows another one, which has no escape characters. -/
structure Shows (t shown : Text) : Prop where
  clean : escapeChar ∉ shown
  strip : ∀ rest, stripEscapes (t ++ rest) = shown ++ stripEscapes rest
  colors : ∀ rest, stripColors (t ++ rest) = shown ++ stripColors rest

section
variable {t u p q : Text}

theorem Shows.stripEscapes_eq (h : Shows t p) : stripEscapes t = p := by
  simpa [stripEscapes, tokens] using h.strip []

theorem Shows.stripColors_eq (h : Shows t p) : stripColors t = p := by
  simpa [stripColors] using h.colors []

theorem Shows.nil : Shows [] [] :=
  ⟨List.not_mem_nil, fun _ => rfl, fun _ => rfl⟩

theorem Shows.append (h : Shows t p) (h' : Shows u q) : Shows (t ++ u) (p ++ q) where
  clean := by
    rw [List.mem_append, not_or]
    exact ⟨h.clean, h'.clean⟩
  strip rest := by rw [List.append_assoc, h.strip, h'.strip, List.append_assoc]
  colors rest := by rw [List.append_assoc, h.colors, h'.colors, List.append_assoc]

/-- Text without escape characters shows itself. -/
theorem Shows.of_notMem (h : escapeChar ∉ t) : Shows t t where
  clean := h
  strip rest := by
    rw [stripEscapes, tokens_append_of_notMem h, List.flatMap_append, List.flatMap_map,
      List.flatMap_singleton']
    rfl
  colors := stripColors_append_of_notMem h

theorem Shows.flatten {ts ps : List Text} (h : List.Forall₂ Shows ts ps) :
    Shows ts.flatten ps.flatten := by
  induction h with
  | nil => exact .nil
  | cons ht _ ih => exact ht.append ih

theorem Shows.unlines {ts ps : List Text} (h : List.Forall₂ Shows ts ps) :
    Shows (Text.unlines ts) (Text.unlines ps) := by
  induction h with
  | nil => exact .nil
  | cons ht hts ih =>
    cases hts with
    | nil => exact ht
    | cons =>
      have hnl : Shows ['\n'] ['\n'] := .of_notMem (by decide)
      exact ht.append (hnl.append ih)

end

/-- The lines of a list, without their escape sequences, are those that they show. -/
theorem map_stripEscapes_eq {ts ps : List Text} (h : List.Forall₂ Shows ts ps) :
    ts.map stripEscapes = ps := by
  induction h with
  | nil => rfl
  | cons ht _ ih => rw [List.map_cons, ht.stripEscapes_eq, ih]

/-- What holds of the elements of two lists in pairs holds of what is made from them in order. -/
theorem forall₂_mapIdx {α β γ δ : Type} {R : α → β → Prop} {S : γ → δ → Prop} {f : Nat → α → γ}
    {g : Nat → β → δ} (hfg : ∀ i a b, R a b → S (f i a) (g i b)) {l : List α} {m : List β}
    (h : List.Forall₂ R l m) : List.Forall₂ S (l.mapIdx f) (m.mapIdx g) := by
  induction h generalizing f g with
  | nil => exact .nil
  | cons hr _ ih =>
    rw [List.mapIdx_cons, List.mapIdx_cons]
    exact .cons (hfg 0 _ _ hr) (ih fun i => hfg (i + 1))

/-- What is made from the elements of a list and their places, when the places make no
difference. -/
theorem mapIdx_of_forall {α β : Type} {l : List α} {f : Nat → α → β} {g : α → β}
    (h : ∀ i < l.length, ∀ a, f i a = g a) : l.mapIdx f = l.map g := by
  refine List.ext_getElem (by simp) fun i hi _ => ?_
  rw [List.getElem_mapIdx, List.getElem_map]
  exact h i (by simpa using hi) _

/-! ## Escape sequences -/

theorem mem_of_lookup {table : List (Text × Text)} {name parameter : Text}
    (h : table.lookup name = some parameter) : (name, parameter) ∈ table := by
  obtain ⟨l, r, hsplit, -⟩ := List.lookup_eq_some_iff.1 h
  simp [hsplit]

/-- The parameters that a style can have. -/
def Style.allParameters : List Text :=
  [] :: (colors ++ backgrounds ++ effects).map (·.2)

theorem Style.mem_allParameters {s : Style} {p : Text} (h : p ∈ s.parameters) :
    p ∈ allParameters := by
  -- the parameter of a known name is in its table, and that of an unknown one is in the list too
  have hlookup : ∀ {table : List (Text × Text)} {unknown : Text} (name : Text),
      (∀ entry ∈ table, entry.2 ∈ allParameters) → unknown ∈ allParameters →
        (table.lookup name).getD unknown ∈ allParameters := by
    intro table unknown name htable hunknown
    cases hname : table.lookup name with
    | none => exact hunknown
    | some parameter => exact htable _ (mem_of_lookup hname)
  simp only [parameters, List.mem_append, Option.mem_toList, Option.map_eq_some_iff] at h
  rcases h with (⟨name, -, rfl⟩ | ⟨name, -, rfl⟩) | ⟨name, -, rfl⟩
  · exact hlookup name (by decide) (by decide)
  · exact hlookup name (by decide) (by decide)
  · exact hlookup name (by decide) (by decide)

theorem isParameter_parameters (s : Style) : ∀ p ∈ s.parameters, p.all Token.isParameter := by
  have hall : ∀ p ∈ Style.allParameters, p.all Token.isParameter := by decide
  exact fun p hp => hall p (Style.mem_allParameters hp)

theorem isParameter_joinParameters {ps : List Text} (h : ∀ p ∈ ps, p.all Token.isParameter) :
    (joinParameters ps).all Token.isParameter := by
  fun_induction joinParameters ps with
  | case1 => rfl
  | case2 p => exact h p (List.mem_singleton_self p)
  | case3 p ps _ ih =>
    have hsemicolon : Token.isParameter ';' = true := by decide
    rw [List.all_append, List.all_cons, h p List.mem_cons_self, hsemicolon,
      ih fun q hq => h q (List.mem_cons_of_mem p hq)]
    rfl

theorem shows_escapeSequence {parameters : Text} (h : parameters.all Token.isParameter) :
    Shows (escapeSequence parameters 'm') [] where
  clean := List.not_mem_nil
  strip rest := by
    rw [stripEscapes, tokens_escapeSequence_append (List.all_eq_true.1 h) (by decide) (by decide)]
    rfl
  colors := stripColors_color_append (List.all_eq_true.1 h)

theorem shows_resetCode : Shows resetCode [] :=
  shows_escapeSequence (by decide)

theorem shows_styleCode (style : Option Style) : Shows (styleCode style) [] := by
  cases style with
  | none => exact .nil
  | some s =>
    rw [styleCode, Style.code]
    split
    · exact .nil
    · exact shows_escapeSequence (isParameter_joinParameters (isParameter_parameters s))

/-! ## Painting -/

/-- Whether a part of a text does not end before it starts. -/
def Extent.Ordered (t : Text) : Extent → Prop
  | .whole => True
  | .slice start stop =>
    Text.cut t.length start ≤ Text.cut t.length (stopIn t stop)

/-- A slice of a text and the texts around it make up the text, if its ends are in order. -/
theorem Text.upto_append_between {t : Text} {start stop : Int}
    (h : cut t.length start ≤ cut t.length stop) :
    t.upto start ++ t.between start stop = t.upto stop := by
  have hupto : t.upto start = (t.upto stop).take (cut t.length start) := by
    rw [upto, upto, List.take_take, Nat.min_eq_left h]
  rw [hupto, between]
  exact List.take_append_drop _ _

theorem Text.upto_between_onward {t : Text} {start stop : Int}
    (h : cut t.length start ≤ cut t.length stop) :
    t.upto start ++ t.between start stop ++ t.onward stop = t := by
  rw [upto_append_between h, upto_append_onward]

/-- A painted text shows the text. -/
theorem Ink.shows_paint (ink : Ink) (style : Option Style) {t : Text} {extent : Extent}
    (ht : escapeChar ∉ t) (h : extent.Ordered t) : Shows (ink.paint style t extent) t := by
  have hcode := shows_styleCode style
  cases ink with
  | plain => exact .of_notMem ht
  | colored =>
    rw [paint]
    split
    · exact .of_notMem ht
    · cases extent with
      | whole => simpa using (hcode.append (.of_notMem ht)).append shows_resetCode
      | slice start stop =>
        have hsplit := Text.upto_between_onward h
        have hparts := ht
        rw [← hsplit, List.mem_append, List.mem_append, not_or, not_or] at hparts
        obtain ⟨⟨hupto, hbetween⟩, honward⟩ := hparts
        have hshows := (((Shows.of_notMem hupto).append hcode).append
          ((Shows.of_notMem hbetween).append shows_resetCode)).append (.of_notMem honward)
        rw [List.append_nil, List.append_nil, hsplit] at hshows
        simpa using hshows

/-- All of a text that is painted shows the text. -/
theorem Ink.shows_paint_whole (ink : Ink) (style : Option Style) {t : Text}
    (ht : escapeChar ∉ t) : Shows (ink.paint style t) t :=
  ink.shows_paint style ht trivial

end RuleTrace
