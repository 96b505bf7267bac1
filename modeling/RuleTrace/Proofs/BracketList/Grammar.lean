import RuleTrace.BracketList.Parser

/-!
# The grammar of nested lists

A `Derivation` is one way to read a text as a value: a numeral, or a list in brackets with commas
between its items, every token after any number of blanks. `Derivation.text` is the text that it
derives and `Derivation.value` the value that it denotes.

* `Derivation.unique`: a text has one derivation at most, and so has every start of a text that is
  not a numeral with more digits after it (`Derivation.EndsBefore`).
-/

namespace RuleTrace.BracketList

/-- Blanks, as they stand before a token. -/
structure Blanks where
  text : Text
  blank : ∀ c ∈ text, isBlank c = true

/-- A numeral: digits, and perhaps a minus sign before them. -/
structure Numeral where
  negative : Bool
  digits : Text
  nonempty : digits ≠ []
  digit : ∀ c ∈ digits, c.isDigit = true

namespace Numeral

/-- A numeral as text. -/
def text (n : Numeral) : Text :=
  if n.negative then '-' :: n.digits else n.digits

/-- The integer that a numeral stands for. -/
def value (n : Numeral) : Int :=
  if n.negative then -(Decimal.ofDigits n.digits : Int) else Decimal.ofDigits n.digits

end Numeral

mutual

/-- A derivation of a value: a number, a list without items, or a list with a first item and what
comes after it. -/
inductive Derivation where
  | number (lead : Blanks) (n : Numeral)
  | empty (lead inner : Blanks)
  | list (lead : Blanks) (first : Derivation) (more : Continuation)

/-- What comes after an item of a list: the closing bracket, or a comma and one more item. -/
inductive Continuation where
  | close (lead : Blanks)
  | comma (lead : Blanks) (item : Derivation) (more : Continuation)

end

mutual

/-- The text that is derived. -/
def Derivation.text : Derivation → Text
  | .number lead n => lead.text ++ n.text
  | .empty lead inner => lead.text ++ '[' :: (inner.text ++ [']'])
  | .list lead first more => lead.text ++ '[' :: (first.text ++ more.text)

/-- The text after an item. -/
def Continuation.text : Continuation → Text
  | .close lead => lead.text ++ [']']
  | .comma lead item more => lead.text ++ ',' :: (item.text ++ more.text)

end

mutual

/-- The value that a derivation denotes. -/
def Derivation.value : Derivation → Value
  | .number _ n => .int n.value
  | .empty _ _ => .list []
  | .list _ first more => .list (first.value :: more.values)

/-- The items that come after an item. -/
def Continuation.values : Continuation → List Value
  | .close _ => []
  | .comma _ item more => item.value :: more.values

end

/-- Whether what follows a derived text is no part of it: there is no further digit after a
number. -/
def Derivation.EndsBefore : Derivation → Text → Prop
  | .number .., rest => ∀ c ∈ rest.head?, c.isDigit = false
  | _, _ => True

/-! ## Characters -/

section
variable {c : Char}

theorem isDigit_eq_false_of_isBlank (h : isBlank c = true) : c.isDigit = false := by
  have : c = ' ' ∨ c = '\n' := by simpa [isBlank] using h
  rcases this with rfl | rfl <;> rfl

theorem isBlank_eq_false_of_isDigit (h : c.isDigit = true) : isBlank c = false := by
  cases hb : isBlank c with
  | false => rfl
  | true => rw [isDigit_eq_false_of_isBlank hb] at h; cases h

/-- A digit is none of the other characters that tokens start with. -/
theorem ne_of_isDigit (h : c.isDigit = true) {e : Char} (he : e.isDigit = false) : c ≠ e := by
  rintro rfl
  rw [he] at h
  cases h

end

/-! ## Runs of characters -/

/-- Two texts that agree, each a run of characters of a kind and then something else, agree in
both parts. -/
theorem eq_of_append_eq {p : Char → Bool} {a b x y : Text} (ha : ∀ c ∈ a, p c = true)
    (hb : ∀ c ∈ b, p c = true) (hx : ∀ c ∈ x.head?, p c = false) (hy : ∀ c ∈ y.head?, p c = false)
    (h : a ++ x = b ++ y) : a = b ∧ x = y := by
  have htake : ∀ {a x : Text}, (∀ c ∈ a, p c = true) → (∀ c ∈ x.head?, p c = false) →
      (a ++ x).takeWhile p = a := by
    intro a x ha hx
    rw [List.takeWhile_append_of_pos ha]
    cases x with
    | nil => simp
    | cons c x => simp [hx c rfl]
  have hab : a = b := by rw [← htake ha hx, h, htake hb hy]
  subst hab
  exact ⟨rfl, List.append_cancel_left h⟩

namespace Blanks

theorem ext_text {b b' : Blanks} (h : b.text = b'.text) : b = b' := by
  cases b
  cases b'
  simpa using h

/-- Blanks before a token are all that stand there. -/
theorem unique {b b' : Blanks} {x y : Text} (hx : ∀ c ∈ x.head?, isBlank c = false)
    (hy : ∀ c ∈ y.head?, isBlank c = false) (h : b.text ++ x = b'.text ++ y) : b = b' ∧ x = y := by
  obtain ⟨hb, hxy⟩ := eq_of_append_eq b.blank b'.blank hx hy h
  exact ⟨ext_text hb, hxy⟩

end Blanks

namespace Numeral

/-- The digits of a numeral go on to the end of the run of digits. -/
theorem unique {n n' : Numeral} {x y : Text} (hx : ∀ c ∈ x.head?, c.isDigit = false)
    (hy : ∀ c ∈ y.head?, c.isDigit = false) (h : n.text ++ x = n'.text ++ y) :
    n = n' ∧ x = y := by
  obtain ⟨s, ds, hne, hd⟩ := n
  obtain ⟨s', ds', hne', hd'⟩ := n'
  obtain ⟨d, ds₀, rfl⟩ := List.exists_cons_of_ne_nil hne
  obtain ⟨d', ds₀', rfl⟩ := List.exists_cons_of_ne_nil hne'
  have hminus : ∀ e : Char, e.isDigit = true → e ≠ '-' := fun e he => ne_of_isDigit he rfl
  have hfirst := hminus d (hd d List.mem_cons_self)
  have hfirst' := hminus d' (hd' d' List.mem_cons_self)
  -- a minus sign on one side only would have to be a digit
  cases s <;> cases s' <;> simp only [text, if_true, List.cons_append,
    List.cons.injEq, true_and, Bool.false_eq_true, if_false] at h
  · obtain ⟨he, hxy⟩ := eq_of_append_eq hd hd' hx hy (by simpa using h)
    exact ⟨by simpa using he, hxy⟩
  · exact absurd h.1 hfirst
  · exact absurd h.1.symm hfirst'
  · obtain ⟨he, hxy⟩ := eq_of_append_eq hd hd' hx hy (by simpa using h)
    exact ⟨by simpa using he, hxy⟩

end Numeral

/-! ## First characters -/

/-- A character that values start with after their blanks. -/
def StartsValue (c : Char) : Prop :=
  c = '-' ∨ c.isDigit = true ∨ c = '['

theorem StartsValue.not_blank {c : Char} (h : StartsValue c) : isBlank c = false := by
  rcases h with rfl | hd | rfl
  · rfl
  · exact isBlank_eq_false_of_isDigit hd
  · rfl

theorem StartsValue.ne_close {c : Char} (h : StartsValue c) : c ≠ ']' := by
  rcases h with rfl | hd | rfl
  · decide
  · exact ne_of_isDigit hd rfl
  · decide

theorem Numeral.starts (n : Numeral) (rest : Text) :
    ∃ c t, n.text ++ rest = c :: t ∧ StartsValue c ∧ c ≠ '[' := by
  obtain ⟨negative, digits, hne, hd⟩ := n
  obtain ⟨d, ds, rfl⟩ := List.exists_cons_of_ne_nil hne
  have hdigit := hd d List.mem_cons_self
  cases negative with
  | true => exact ⟨'-', _, rfl, .inl rfl, by decide⟩
  | false => exact ⟨d, _, rfl, .inr (.inl hdigit), ne_of_isDigit hdigit rfl⟩

theorem Derivation.starts (d : Derivation) (rest : Text) :
    ∃ (lead : Blanks) (c : Char) (t : Text), d.text ++ rest = lead.text ++ c :: t ∧
      StartsValue c := by
  cases d with
  | number lead n =>
    obtain ⟨c, t, ht, hc, -⟩ := n.starts rest
    exact ⟨lead, c, t, by rw [text, List.append_assoc, ht], hc⟩
  | empty lead inner => exact ⟨lead, '[', _, by rw [text, List.append_assoc]; rfl, .inr (.inr rfl)⟩
  | list lead first more =>
    exact ⟨lead, '[', _, by rw [text, List.append_assoc]; rfl, .inr (.inr rfl)⟩

theorem Continuation.starts (m : Continuation) (rest : Text) :
    ∃ (lead : Blanks) (c : Char) (t : Text), m.text ++ rest = lead.text ++ c :: t ∧
      (c = ',' ∨ c = ']') := by
  cases m with
  | close lead => exact ⟨lead, ']', _, by rw [text, List.append_assoc]; rfl, .inr rfl⟩
  | comma lead item more =>
    exact ⟨lead, ',', _, by rw [text, List.append_assoc]; rfl, .inl rfl⟩

/-- What comes after an item does not go on with its digits. -/
theorem Derivation.endsBefore_continuation (d : Derivation) (m : Continuation) (rest : Text) :
    d.EndsBefore (m.text ++ rest) := by
  cases d with
  | empty lead inner => trivial
  | list lead first more => trivial
  | number lead n =>
    intro c hc
    obtain ⟨lead, e, t, ht, he⟩ := m.starts rest
    rw [ht] at hc
    cases hlead : lead.text with
    | nil =>
      rw [hlead, List.nil_append, List.head?_cons, Option.mem_def, Option.some.injEq] at hc
      subst hc
      rcases he with rfl | rfl <;> rfl
    | cons b bs =>
      rw [hlead, List.cons_append, List.head?_cons, Option.mem_def, Option.some.injEq] at hc
      subst hc
      exact isDigit_eq_false_of_isBlank (lead.blank b (hlead ▸ List.mem_cons_self))

/-! ## One derivation at most -/

/-- Blanks before tokens are told apart from the tokens. -/
theorem Blanks.unique_cons {b b' : Blanks} {c c' : Char} {x y : Text} (hc : isBlank c = false)
    (hc' : isBlank c' = false) (h : b.text ++ c :: x = b'.text ++ c' :: y) :
    b = b' ∧ c = c' ∧ x = y := by
  have hx : ∀ e ∈ (c :: x).head?, isBlank e = false := by
    rintro e ⟨⟩
    exact hc
  have hy : ∀ e ∈ (c' :: y).head?, isBlank e = false := by
    rintro e ⟨⟩
    exact hc'
  obtain ⟨hb, hxy⟩ := Blanks.unique hx hy h
  exact ⟨hb, List.cons.inj hxy⟩

/-- A list without items is no list with items. -/
theorem Derivation.close_ne (d : Derivation) {inner : Blanks} {x y : Text} :
    inner.text ++ ']' :: x ≠ d.text ++ y := by
  intro h
  obtain ⟨lead, c, t, ht, hc⟩ := d.starts y
  rw [ht] at h
  exact hc.ne_close (Blanks.unique_cons rfl hc.not_blank h).2.1.symm

/-- A number is no list. -/
theorem Numeral.bracket_ne (n : Numeral) {lead lead' : Blanks} {x y : Text} :
    lead.text ++ (n.text ++ x) ≠ lead'.text ++ '[' :: y := by
  intro h
  obtain ⟨c, t, ht, hc, hne⟩ := n.starts x
  rw [ht] at h
  exact hne (Blanks.unique_cons hc.not_blank rfl h).2.1

mutual

/-- A text has one derivation at most, wherever it ends. -/
theorem Derivation.unique : ∀ {d d' : Derivation} {x y : Text}, d.EndsBefore x →
    d'.EndsBefore y → d.text ++ x = d'.text ++ y → d = d' ∧ x = y
  | .number lead n, .number lead' n', x, y, hx, hy, h => by
    simp only [Derivation.text, List.append_assoc] at h
    obtain ⟨c, t, ht, hc, -⟩ := n.starts x
    obtain ⟨c', t', ht', hc', -⟩ := n'.starts y
    rw [ht, ht'] at h
    obtain ⟨rfl, rfl, rfl⟩ := Blanks.unique_cons hc.not_blank hc'.not_blank h
    obtain ⟨rfl, rfl⟩ := Numeral.unique hx hy (ht.trans ht'.symm)
    exact ⟨rfl, rfl⟩
  | .number lead n, .empty lead' inner, x, y, _, _, h => by
    simp only [Derivation.text, List.append_assoc] at h
    exact absurd h n.bracket_ne
  | .number lead n, .list lead' first more, x, y, _, _, h => by
    simp only [Derivation.text, List.append_assoc] at h
    exact absurd h n.bracket_ne
  | .empty lead inner, .number lead' n, x, y, _, _, h => by
    simp only [Derivation.text, List.append_assoc] at h
    exact absurd h.symm n.bracket_ne
  | .list lead first more, .number lead' n, x, y, _, _, h => by
    simp only [Derivation.text, List.append_assoc] at h
    exact absurd h.symm n.bracket_ne
  | .empty lead inner, .empty lead' inner', x, y, _, _, h => by
    simp only [Derivation.text, List.append_assoc, List.cons_append] at h
    obtain ⟨rfl, -, h⟩ := Blanks.unique_cons rfl rfl h
    obtain ⟨rfl, -, rfl⟩ := Blanks.unique_cons rfl rfl h
    exact ⟨rfl, rfl⟩
  | .empty lead inner, .list lead' first more, x, y, _, _, h => by
    simp only [Derivation.text, List.append_assoc, List.cons_append] at h
    exact absurd (Blanks.unique_cons rfl rfl h).2.2 first.close_ne
  | .list lead first more, .empty lead' inner, x, y, _, _, h => by
    simp only [Derivation.text, List.append_assoc, List.cons_append] at h
    exact absurd (Blanks.unique_cons rfl rfl h).2.2.symm first.close_ne
  | .list lead first more, .list lead' first' more', x, y, _, _, h => by
    simp only [Derivation.text, List.append_assoc, List.cons_append] at h
    obtain ⟨rfl, -, h⟩ := Blanks.unique_cons rfl rfl h
    obtain ⟨rfl, hmore⟩ := Derivation.unique (first.endsBefore_continuation more x)
      (first'.endsBefore_continuation more' y) h
    obtain ⟨rfl, rfl⟩ := Continuation.unique hmore
    exact ⟨rfl, rfl⟩

theorem Continuation.unique : ∀ {m m' : Continuation} {x y : Text},
    m.text ++ x = m'.text ++ y → m = m' ∧ x = y
  | .close lead, .close lead', x, y, h => by
    simp only [Continuation.text, List.append_assoc, List.cons_append] at h
    obtain ⟨rfl, -, h⟩ := Blanks.unique_cons rfl rfl h
    exact ⟨rfl, h⟩
  | .close lead, .comma lead' item more, x, y, h => by
    simp only [Continuation.text, List.append_assoc, List.cons_append] at h
    exact absurd (Blanks.unique_cons rfl rfl h).2.1 (by decide)
  | .comma lead item more, .close lead', x, y, h => by
    simp only [Continuation.text, List.append_assoc, List.cons_append] at h
    exact absurd (Blanks.unique_cons rfl rfl h).2.1 (by decide)
  | .comma lead item more, .comma lead' item' more', x, y, h => by
    simp only [Continuation.text, List.append_assoc, List.cons_append] at h
    obtain ⟨rfl, -, h⟩ := Blanks.unique_cons rfl rfl h
    obtain ⟨rfl, hmore⟩ := Derivation.unique (item.endsBefore_continuation more x)
      (item'.endsBefore_continuation more' y) h
    obtain ⟨rfl, rfl⟩ := Continuation.unique hmore
    exact ⟨rfl, rfl⟩

end

end RuleTrace.BracketList
