import Mathlib.Data.List.TakeWhile
import RuleTrace.Proofs.BracketList.Numerals

/-!
# The language that is read

A whole source is read as the value of its longest start that has a derivation.

* `isLongest_of_endsBefore`: a derivation that ends before what is no part of it is the longest one
  of the source.
* `scan_cases`: where reading stops, and with which value.
* `read_iff_derivation`: a source is read exactly when it is derived, up to blanks at its end.
-/

namespace RuleTrace.BracketList

/-! ## Longest derivations -/

/-- The text of a derivation is a start of the source, and no derivation has a longer one. -/
def Derivation.IsLongest (source : Text) (d : Derivation) : Prop :=
  d.text <+: source ∧ ∀ d' : Derivation, d'.text <+: source → d'.text.length ≤ d.text.length

/-- A derivation goes on to the last of the digits that come next. -/
theorem Derivation.exists_endsBefore (d : Derivation) {source x : Text}
    (h : source = d.text ++ x) : ∃ (e : Derivation) (y : Text), source = e.text ++ y ∧
      e.EndsBefore y ∧ d.text.length ≤ e.text.length := by
  cases d with
  | empty lead inner => exact ⟨_, x, h, trivial, Nat.le_refl _⟩
  | list lead first more => exact ⟨_, x, h, trivial, Nat.le_refl _⟩
  | number lead n =>
    obtain ⟨hr, hall, hstop⟩ := (⟨0, x⟩ : Cursor).reads_takeWhile Char.isDigit
    have hx := hr.rest
    generalize x.takeWhile Char.isDigit = ds at hx hall hstop
    generalize ((⟨0, x⟩ : Cursor).advance ds.length).rest = y at hx hstop
    have hdigit : ∀ c ∈ n.digits ++ ds, c.isDigit = true := by
      intro c hc
      rcases List.mem_append.1 hc with hc | hc
      · exact n.digit c hc
      · exact hall c hc
    let n' : Numeral := ⟨n.negative, n.digits ++ ds, by simp [n.nonempty], hdigit⟩
    have htext : n'.text = n.text ++ ds := by
      cases hn : n.negative <;> simp [n', Numeral.text, hn]
    refine ⟨.number lead n', y, ?_, hstop, ?_⟩
    · simp only [text, htext, List.append_assoc] at h ⊢
      rw [h, ← hx]
    · simp only [text, htext, List.length_append]
      omega

theorem isLongest_of_endsBefore {source y : Text} {d : Derivation} (h : source = d.text ++ y)
    (hd : d.EndsBefore y) : d.IsLongest source := by
  refine ⟨⟨y, h.symm⟩, fun d' ⟨x, hx⟩ => ?_⟩
  obtain ⟨e, z, hz, he, hle⟩ := d'.exists_endsBefore hx.symm
  obtain ⟨rfl, -⟩ := Derivation.unique he hd (hz.symm.trans h)
  exact hle

/-! ## Whole sources -/

/-- Blanks and nothing else are left to read. -/
theorem Cursor.isEmpty_skipBlanks {c : Cursor} :
    c.skipBlanks.rest.isEmpty = true ↔ ∃ b : Blanks, c.rest = b.text := by
  obtain ⟨b, hb, hstop⟩ := c.reads_skipBlanks
  rw [List.isEmpty_iff]
  refine ⟨fun h => ⟨b, ?_⟩, fun ⟨b', h⟩ => ?_⟩
  · rw [hb.rest, h, List.append_nil]
  · obtain ⟨-, hnil⟩ := Blanks.unique (x := c.skipBlanks.rest) (y := []) hstop
      (by simp) (hb.rest.symm.trans (h.trans (List.append_nil _).symm))
    exact hnil

theorem Cursor.offset_skipBlanks (c : Cursor) :
    c.skipBlanks.offset = c.offset + (c.rest.takeWhile isBlank).length := rfl

/-- A source is read as the value of a derivation that ends before what is no part of it, or it
does not start with a derivation at all. -/
theorem scan_cases (source : Text) :
    (∃ (d : Derivation) (y : Text), source = d.text ++ y ∧ d.EndsBefore y ∧
      (scan source).position = d.text.length + (y.takeWhile isBlank).length ∧
      (∀ v, (scan source).value = some v ↔ d.value = v ∧ ∃ b : Blanks, y = b.text)) ∨
    (∀ d : Derivation, ¬d.text <+: source) ∧ (scan source).value = none ∧
      (scan source).position = (source.takeWhile isBlank).length := by
  have hcalled : ∀ (c : Cursor), (called .start c value).result = (value c).result := fun _ => rfl
  cases hv : (value ⟨0, source⟩).result with
  | some r =>
    obtain ⟨v, c⟩ := r
    obtain ⟨d, hr, hd, rfl⟩ := derivation_of_valueWithin _ _ _ _ hv
    refine .inl ⟨d, c.rest, hr.rest, hd, ?_⟩
    simp only [scan, hcalled, hv]
    refine ⟨?_, fun w => ?_⟩
    · rw [c.offset_skipBlanks, hr.offset, Nat.zero_add]
    · rw [← Cursor.isEmpty_skipBlanks]
      by_cases he : c.skipBlanks.rest.isEmpty = true <;> simp [he]
  | none =>
    refine .inr ⟨fun d ⟨x, hx⟩ => ?_, ?_⟩
    · obtain ⟨e, y, hy, he, -⟩ := d.exists_endsBefore hx.symm
      have hlen : e.text.length ≤ source.length := by
        rw [hy, List.length_append]
        omega
      have hread : (value ⟨0, source⟩).result = some (e.value, ⟨0 + e.text.length, y⟩) :=
        e.read (Cursor.reads_of_append hy) he (Nat.lt_succ_of_le hlen)
      rw [hread] at hv
      cases hv
    · simp only [scan, hcalled, hv]
      exact ⟨trivial, Nat.zero_add _⟩

/-- The text of a derivation is read as its value. -/
theorem value_scan_text (d : Derivation) : (scan d.text).value = some d.value := by
  have hends : d.EndsBefore [] := by
    cases d with
    | number lead n => exact nofun
    | empty lead inner => trivial
    | list lead first more => trivial
  have hread : (value ⟨0, d.text⟩).result = some (d.value, ⟨0 + d.text.length, []⟩) :=
    d.read (Cursor.reads_of_append (List.append_nil _).symm) hends (Nat.lt_succ_self _)
  have hcalled : (called .start ⟨0, d.text⟩ value).result = (value ⟨0, d.text⟩).result := rfl
  simp [scan, hcalled, hread, Cursor.skipBlanks, Cursor.advance]

/-- A source without numerals that are too long is read exactly when it has a derivation with
blanks after it, and as the value of that one derivation. Reading stops at the end of the source
then. Otherwise it stops after the longest start of the source that has a derivation and the blanks
after it, or, when there is none, after the blanks at the start of the source. -/
theorem read_iff_derivation (source : Text) (hfit : NumeralsFit source) :
    ∃ reading, read source = .ok reading ∧
      (∀ v, reading.value = some v ↔
        ∃ (d : Derivation) (b : Blanks), source = d.text ++ b.text ∧ d.value = v) ∧
      (∀ (d d' : Derivation) (b b' : Blanks), source = d.text ++ b.text →
        source = d'.text ++ b'.text → d = d' ∧ b = b') ∧
      (reading.value ≠ none → reading.position = source.length) ∧
      ((∀ d : Derivation, ¬d.text <+: source) →
        reading.position = (source.takeWhile isBlank).length) ∧
      ((∃ d : Derivation, d.text <+: source) → ∃ d : Derivation, d.IsLongest source ∧
        reading.position =
          d.text.length + ((source.drop d.text.length).takeWhile isBlank).length) := by
  refine ⟨scan source, read_eq_ok hfit, ?_⟩
  have hblanks : ∀ (d : Derivation) (b : Blanks), d.EndsBefore b.text := by
    intro d b
    cases d with
    | empty lead inner => trivial
    | list lead first more => trivial
    | number lead n =>
      exact fun c hc => isDigit_eq_false_of_isBlank (b.blank c (List.mem_of_mem_head? hc))
  have hunique : ∀ (d d' : Derivation) (b b' : Blanks), source = d.text ++ b.text →
      source = d'.text ++ b'.text → d = d' ∧ b = b' := by
    intro d d' b b' h h'
    obtain ⟨rfl, hb⟩ := Derivation.unique (hblanks d b) (hblanks d' b') (h.symm.trans h')
    exact ⟨rfl, Blanks.ext_text hb⟩
  rcases scan_cases source with ⟨d, y, hy, hd, hpos, hval⟩ | ⟨hnone, hval, hpos⟩
  · have hlongest := isLongest_of_endsBefore hy hd
    refine ⟨fun v => ?_, hunique, fun hsome => ?_, fun hnone => ?_, fun _ => ⟨d, hlongest, ?_⟩⟩
    · rw [hval v]
      refine ⟨fun ⟨hv, b, hb⟩ => ⟨d, b, hb ▸ hy, hv⟩, fun ⟨d', b, h, hv⟩ => ?_⟩
      obtain ⟨rfl, hyb⟩ := Derivation.unique hd (hblanks d' b) (hy.symm.trans h)
      exact ⟨hv, b, hyb⟩
    · obtain ⟨v, hv⟩ := Option.ne_none_iff_exists'.1 hsome
      obtain ⟨-, b, rfl⟩ := (hval v).1 hv
      have hall : b.text.takeWhile isBlank = b.text := List.takeWhile_eq_self_iff.2 b.blank
      rw [hpos, hall, hy, List.length_append]
    · exact absurd ⟨y, hy.symm⟩ (hnone d)
    · rw [hpos, hy, List.drop_left]
  · refine ⟨fun v => ?_, hunique, fun hsome => absurd hval hsome, fun _ => hpos, fun ⟨d, hd⟩ => ?_⟩
    · rw [hval]
      refine ⟨nofun, fun ⟨d, b, h, _⟩ => ?_⟩
      exact absurd ⟨b.text, h.symm⟩ (hnone d)
    · exact absurd hd (hnone d)

/-- A list with an empty list in it, and a blank after it. -/
theorem read_iff_derivation_nested :
    let source := "[1, []] ".toList
    NumeralsFit source ∧ ∃ reading, read source = .ok reading ∧
      reading.value = some (.list [.int 1, .list []]) ∧ reading.position = 8 := by
  intro source
  have hfit : NumeralsFit source := by
    intro ds hds _
    exact Nat.le_trans hds.length_le (by decide)
  obtain ⟨reading, hread, hvalue, -, hend, -⟩ := read_iff_derivation source hfit
  let tight : Blanks := ⟨[], List.all_eq_true.1 rfl⟩
  let spaced : Blanks := ⟨[' '], List.all_eq_true.1 rfl⟩
  let one : Numeral := ⟨false, ['1'], by decide, List.all_eq_true.1 rfl⟩
  let d : Derivation := .list tight (.number tight one)
    (.comma tight (.empty spaced tight) (.close tight))
  have hsome : reading.value = some (.list [.int 1, .list []]) :=
    (hvalue _).2 ⟨d, spaced, rfl, rfl⟩
  exact ⟨hfit, reading, hread, hsome, hend (by rw [hsome]; exact nofun)⟩

end RuleTrace.BracketList
