import RuleTrace.Pattern.Matches

/-!
# Matches in a part of a text

What an expression without conditions matches does not depend on the text around it, and other
matches last as long as the conditions do. Only an atomic expression looks further, since what it
prefers depends on the text after the match.

* `Matches.embed`: a match in a part of a text is one in the text if the conditions of the
  expression go on to hold.
* `matches_slice_iff`: a match without conditions is one of the text between its ends.
-/

namespace RuleTrace

namespace Regex

/-- An expression without atomic parts whose conditions are all of some kind. -/
def HasOnly (p : Anchor → Prop) : Regex → Prop
  | .empty | .chars _ => True
  | .anchor a => p a
  | .seq r s | .alt r s => r.HasOnly p ∧ s.HasOnly p
  | .times r _ _ _ => r.HasOnly p
  | .atomic _ => False

variable {before part after : Text}

theorem getElem?_part {k : Nat} (hk : k < part.length) :
    (before ++ part ++ after)[before.length + k]? = part[k]? := by
  rw [List.append_assoc, List.getElem?_append_right (by omega), Nat.add_sub_cancel_left,
    List.getElem?_append_left hk]

/-- A match in a part of a text is one in the text if the conditions go on to hold. -/
theorem Matches.embed {p : Anchor → Prop}
    (hp : ∀ a, p a → ∀ i ≤ part.length, a.holds (part.take i).getLast? (part.drop i) = true →
      a.holds ((before ++ part ++ after).take (before.length + i)).getLast?
        ((before ++ part ++ after).drop (before.length + i)) = true)
    {r : Regex} {i j : Nat} (hr : r.HasOnly p) (h : Matches part r i j) :
    Matches (before ++ part ++ after) r (before.length + i) (before.length + j) := by
  have hlen : (before ++ part ++ after).length = before.length + part.length + after.length := by
    simp only [List.length_append]
  induction h with
  | empty hi => exact .empty (by omega)
  | chars hc hs =>
    have hi := (List.getElem?_eq_some_iff.1 hc).1
    exact .chars ((getElem?_part hi).trans hc) hs
  | anchor hi ha => exact .anchor (by omega) (hp _ hr _ hi ha)
  | seq _ _ ih ih' => exact .seq (ih hr.1) (ih' hr.2)
  | left _ ih => exact .left (ih hr.1)
  | right _ ih => exact .right (ih hr.2)
  | done hi => exact .done (by omega)
  | due _ _ ih ih' => exact .due (ih hr) (ih' hr)
  | limited _ _ ih ih' => exact .limited (ih hr) (ih' hr)
  | unlimited _ _ ih ih' => exact .unlimited (ih hr) (ih' hr)
  | atomic => exact hr.elim

/-- Matches lead forward, so a place between two of them lies between their ends. -/
theorem Matches.exists_middle {t : Text} {r s : Regex} {a k b n i j : Nat} (h : Matches t r a k)
    (h' : Matches t s k b) (ha : a = n + i) (hb : b = n + j) : ∃ m ≤ j, k = n + m := by
  have h1 := h.start_le
  have h2 := h'.start_le
  exact ⟨k - n, by omega, by omega⟩

/-- A match without conditions is one of the part of the text that it lies in. -/
theorem Matches.restrict {r : Regex} {a b i j : Nat} (hr : r.HasOnly fun _ => False)
    (h : Matches (before ++ part ++ after) r a b) (ha : a = before.length + i)
    (hb : b = before.length + j) (hj : j ≤ part.length) : Matches part r i j := by
  induction h generalizing i j with
  | empty =>
    obtain rfl : i = j := by omega
    exact .empty hj
  | chars hc hs =>
    obtain rfl : j = i + 1 := by omega
    rw [ha, getElem?_part (by omega)] at hc
    exact .chars hc hs
  | anchor => exact hr.elim
  | seq h h' ih ih' =>
    obtain ⟨m, hm, hk⟩ := h.exists_middle h' ha hb
    exact .seq (ih hr.1 ha hk (by omega)) (ih' hr.2 hk hb hj)
  | left _ ih => exact .left (ih hr.1 ha hb hj)
  | right _ ih => exact .right (ih hr.2 ha hb hj)
  | done =>
    obtain rfl : i = j := by omega
    exact .done hj
  | due h h' ih ih' =>
    obtain ⟨m, hm, hk⟩ := h.exists_middle h' ha hb
    exact .due (ih hr ha hk (by omega)) (ih' hr hk hb hj)
  | limited h h' ih ih' =>
    obtain ⟨m, hm, hk⟩ := h.exists_middle h' ha hb
    exact .limited (ih hr ha hk (by omega)) (ih' hr hk hb hj)
  | unlimited h h' ih ih' =>
    obtain ⟨m, hm, hk⟩ := h.exists_middle h' ha hb
    exact .unlimited (ih hr ha hk (by omega)) (ih' hr hk hb hj)
  | atomic => exact hr.elim

theorem take_append_drop_take {t : Text} {i j : Nat} (hij : i ≤ j) :
    t.take i ++ (t.take j).drop i = t.take j := by
  have htake : t.take i = (t.take j).take i := by rw [List.take_take, Nat.min_eq_left hij]
  rw [htake, List.take_append_drop]

/-- A match without conditions is one of the whole text between its ends. -/
theorem matches_slice_iff {t : Text} {r : Regex} {i j : Nat} (hr : r.HasOnly fun _ => False)
    (hij : i ≤ j) (hj : j ≤ t.length) :
    Matches ((t.take j).drop i) r 0 (j - i) ↔ Matches t r i j := by
  have hsplit : t.take i ++ (t.take j).drop i ++ t.drop j = t := by
    rw [take_append_drop_take hij, List.take_append_drop]
  have hbefore : (t.take i).length = i := List.length_take_of_le (by omega)
  have hpart : ((t.take j).drop i).length = j - i := by
    rw [List.length_drop, List.length_take_of_le hj]
  constructor
  · intro h
    have h' : Matches (t.take i ++ (t.take j).drop i ++ t.drop j) r ((t.take i).length + 0)
        ((t.take i).length + (j - i)) := h.embed (fun _ hp => hp.elim) hr
    rwa [hsplit, hbefore, Nat.add_zero, Nat.add_sub_cancel' hij] at h'
  · intro h
    rw [← hsplit] at h
    exact h.restrict hr (by omega) (by omega) (by omega)

/-! ## Sequences -/

variable {t : Text} {r s : Regex} {i j : Nat}

theorem matches_empty_iff : Matches t .empty i j ↔ i ≤ t.length ∧ j = i := by
  constructor
  · intro h
    cases h with
    | empty hi => exact ⟨hi, rfl⟩
  · rintro ⟨hi, rfl⟩
    exact .empty hi

theorem matches_seq_iff : Matches t (.seq r s) i j ↔ ∃ k, Matches t r i k ∧ Matches t s k j := by
  constructor
  · intro h
    cases h with
    | seq h h' => exact ⟨_, h, h'⟩
  · rintro ⟨k, h, h'⟩
    exact .seq h h'

theorem matches_alt_iff : Matches t (.alt r s) i j ↔ Matches t r i j ∨ Matches t s i j := by
  constructor
  · intro h
    cases h with
    | left h => exact .inl h
    | right h => exact .inr h
  · rintro (h | h)
    · exact .left h
    · exact .right h

theorem matches_seq_empty_iff : Matches t (.seq r .empty) i j ↔ Matches t r i j := by
  rw [matches_seq_iff]
  constructor
  · rintro ⟨k, h, h'⟩
    obtain ⟨-, rfl⟩ := matches_empty_iff.1 h'
    exact h
  · intro h
    exact ⟨j, h, .empty h.le.2⟩

end Regex

end RuleTrace
