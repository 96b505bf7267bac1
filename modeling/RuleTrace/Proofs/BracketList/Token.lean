import RuleTrace.Proofs.BracketList.Grammar

/-!
# Tokens at a place of a source

`Cursor.Reads c t c'`: the text `t` comes next at the place `c`, and `c'` is the place after it.

* `char?_eq_some_iff`, `int?_eq_some_iff`: a token is read exactly when blanks and the token come
  next, and digits are read up to the last one.
-/

namespace RuleTrace.BracketList

/-! ## Places -/

namespace Cursor

/-- The text `t` comes next at `c`, and `c'` is the place after it. -/
structure Reads (c : Cursor) (t : Text) (c' : Cursor) : Prop where
  rest : c.rest = t ++ c'.rest
  offset : c'.offset = c.offset + t.length

section
variable {c c' c'' : Cursor} {t u : Text}

theorem reads_of_append {r : Text} (h : c.rest = t ++ r) :
    c.Reads t ⟨c.offset + t.length, r⟩ :=
  ⟨h, rfl⟩

theorem Reads.append (h : c.Reads t c') (h' : c'.Reads u c'') : c.Reads (t ++ u) c'' where
  rest := by rw [h.rest, h'.rest, List.append_assoc]
  offset := by rw [h'.offset, h.offset, List.length_append, Nat.add_assoc]

/-- A text that comes next is read in parts. -/
theorem Reads.split (h : c.Reads (t ++ u) c') : ∃ m, c.Reads t m ∧ m.Reads u c' :=
  ⟨⟨c.offset + t.length, u ++ c'.rest⟩, ⟨by rw [h.rest, List.append_assoc], rfl⟩, rfl, by
    rw [h.offset, List.length_append, Nat.add_assoc]⟩

theorem Reads.unique (h : c.Reads t c') (h' : c.Reads t c'') : c' = c'' := by
  have hrest : c'.rest = c''.rest := List.append_cancel_left (h.rest.symm.trans h'.rest)
  have hoff : c'.offset = c''.offset := h.offset.trans h'.offset.symm
  cases c'
  cases c''
  simp_all

theorem Reads.advance (h : c.Reads t c') : c.advance t.length = c' := by
  refine Reads.unique (c := c) (t := t) ⟨?_, rfl⟩ h
  rw [Cursor.advance, h.rest, List.drop_left]

theorem Reads.length (h : c.Reads t c') : c.rest.length = t.length + c'.rest.length := by
  rw [h.rest, List.length_append]

/-- The characters of a kind that come next are read up to one that is not of the kind. -/
theorem reads_takeWhile (c : Cursor) (p : Char → Bool) :
    c.Reads (c.rest.takeWhile p) (c.advance (c.rest.takeWhile p).length) ∧
      (∀ e ∈ c.rest.takeWhile p, p e = true) ∧
      ∀ e ∈ (c.advance (c.rest.takeWhile p).length).rest.head?, p e = false := by
  have h := reads_of_append (List.takeWhile_append_dropWhile (p := p) (l := c.rest)).symm
  rw [h.advance]
  refine ⟨h, fun e he => List.all_eq_true.1 List.all_takeWhile e he, fun e he => ?_⟩
  have hhead := List.head?_dropWhile_not p c.rest
  rw [Option.mem_def.1 he] at hhead
  simpa using hhead

end

/-! ## Tokens -/

section
variable {c c' : Cursor}

theorem reads_skipBlanks (c : Cursor) :
    ∃ b : Blanks, c.Reads b.text c.skipBlanks ∧
      ∀ e ∈ c.skipBlanks.rest.head?, isBlank e = false := by
  obtain ⟨h, hall, hstop⟩ := c.reads_takeWhile isBlank
  exact ⟨⟨_, hall⟩, h, hstop⟩

/-- The place after blanks is before what is no blank. -/
theorem skipBlanks_eq {b : Blanks} (h : c.Reads b.text c')
    (hc : ∀ e ∈ c'.rest.head?, isBlank e = false) : c.skipBlanks = c' := by
  obtain ⟨b', hb', hc'⟩ := c.reads_skipBlanks
  obtain ⟨rfl, -⟩ := Blanks.unique hc' hc (hb'.rest.symm.trans h.rest)
  exact hb'.unique h

theorem skipBlanks_eq_of_cons {b : Blanks} {e : Char} {t : Text} (he : isBlank e = false)
    (h : c.Reads b.text c') (hc : c'.rest = e :: t) : c.skipBlanks = c' := by
  refine skipBlanks_eq h fun x hx => ?_
  rw [hc] at hx
  cases hx
  exact he

/-- The place after a first character. -/
theorem reads_advance_one {e : Char} (h : c.rest.head? = some e) : c.Reads [e] (c.advance 1) := by
  obtain ⟨t, ht⟩ := List.head?_eq_some_iff.1 h
  have hr := reads_of_append (c := c) (t := [e]) (r := t) (by rw [ht]; rfl)
  have hadv : c.advance 1 = _ := hr.advance
  rw [hadv]
  exact hr

theorem char?_eq_some_iff {e : Char} (he : isBlank e = false) :
    c.char? e = some c' ↔ ∃ b : Blanks, c.Reads (b.text ++ [e]) c' := by
  simp only [char?]
  refine ⟨fun h => ?_, fun ⟨b, hr⟩ => ?_⟩
  · split at h
    · next hhead =>
      obtain ⟨b, hb, -⟩ := c.reads_skipBlanks
      obtain rfl := Option.some.inj h
      exact ⟨b, hb.append (reads_advance_one hhead)⟩
    · cases h
  · obtain ⟨m, hm, he'⟩ := hr.split
    have hcons : m.rest = e :: c'.rest := he'.rest
    rw [skipBlanks_eq_of_cons he hm hcons, hcons, List.head?_cons, if_pos rfl]
    exact congrArg some he'.advance

/-- A character does not come next where another one does. -/
theorem char?_eq_none {b : Blanks} {e f : Char} {t : Text} (hf : isBlank f = false) (hne : f ≠ e)
    (h : c.rest = b.text ++ f :: t) : c.char? e = none := by
  have hskip := skipBlanks_eq_of_cons hf (reads_of_append h) rfl
  simp only [char?, hskip, List.head?_cons, Option.some.injEq, hne, if_false]

theorem digits?_eq_some_iff {n : Nat} :
    c.digits? = some (n, c') ↔ ∃ ds, ds ≠ [] ∧ (∀ e ∈ ds, e.isDigit = true) ∧ c.Reads ds c' ∧
      (∀ e ∈ c'.rest.head?, e.isDigit = false) ∧ Decimal.ofDigits ds = n := by
  obtain ⟨h, hall, hstop⟩ := c.reads_takeWhile Char.isDigit
  refine ⟨fun hd => ?_, fun ⟨ds, hne, hds, hr, hc', hn⟩ => ?_⟩
  · unfold digits? at hd
    split at hd
    · cases hd
    · next hne =>
      obtain ⟨rfl, rfl⟩ := Prod.mk.inj (Option.some.inj hd)
      exact ⟨_, hne, hall, h, hstop, rfl⟩
  · obtain ⟨heq, -⟩ := eq_of_append_eq hall hds hstop hc' (h.rest.symm.trans hr.rest)
    unfold digits?
    rw [heq]
    split
    · exact absurd rfl hne
    · rw [hr.advance, hn]

theorem int?_eq_some_iff {i : Int} :
    c.int? = some (i, c') ↔ ∃ (b : Blanks) (n : Numeral), c.Reads (b.text ++ n.text) c' ∧
      (∀ e ∈ c'.rest.head?, e.isDigit = false) ∧ n.value = i := by
  simp only [int?]
  refine ⟨fun h => ?_, fun ⟨b, n, hr, hc', hn⟩ => ?_⟩
  · obtain ⟨b, hb, -⟩ := c.reads_skipBlanks
    split at h
    · next hminus =>
      obtain ⟨⟨k, c₁⟩, hd, hk⟩ := Option.map_eq_some_iff.1 h
      obtain ⟨rfl, rfl⟩ := Prod.mk.inj hk
      obtain ⟨ds, hne, hds, hr, hc', rfl⟩ := digits?_eq_some_iff.1 hd
      exact ⟨b, ⟨true, ds, hne, hds⟩, hb.append ((reads_advance_one hminus).append hr), hc', rfl⟩
    · obtain ⟨⟨k, c₁⟩, hd, hk⟩ := Option.map_eq_some_iff.1 h
      obtain ⟨rfl, rfl⟩ := Prod.mk.inj hk
      obtain ⟨ds, hne, hds, hr, hc', rfl⟩ := digits?_eq_some_iff.1 hd
      exact ⟨b, ⟨false, ds, hne, hds⟩, hb.append hr, hc', rfl⟩
  · obtain ⟨m, hm, hnum⟩ := hr.split
    obtain ⟨e, t, ht, he, -⟩ := n.starts c'.rest
    rw [skipBlanks_eq_of_cons he.not_blank hm (hnum.rest.trans ht)]
    obtain ⟨negative, ds, hne, hds⟩ := n
    cases negative with
    | true =>
      have hminus : m.rest.head? = some '-' := by
        rw [hnum.rest]
        rfl
      obtain ⟨m', hm', hdigits⟩ := Reads.split (t := ['-']) hnum
      have hd := digits?_eq_some_iff.2 ⟨ds, hne, hds, hdigits, hc', rfl⟩
      rw [if_pos hminus, (reads_advance_one hminus).unique hm', hd]
      exact congrArg (fun i => some (i, c')) hn
    | false =>
      have hdigit : m.rest.head? ≠ some '-' := by
        obtain ⟨d, ds', rfl⟩ := List.exists_cons_of_ne_nil hne
        rw [hnum.rest]
        exact fun h => ne_of_isDigit (hds d List.mem_cons_self) rfl (Option.some.inj h)
      have hd := digits?_eq_some_iff.2 ⟨ds, hne, hds, hnum, hc', rfl⟩
      rw [if_neg hdigit, hd]
      exact congrArg (fun i => some (i, c')) hn

end

end Cursor

end RuleTrace.BracketList
