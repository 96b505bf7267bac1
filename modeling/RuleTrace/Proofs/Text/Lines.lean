import Mathlib.Data.List.Induction
import RuleTrace.Source.Location

/-!
# Lines of texts put together

* `lines_append`: where two texts meet, the last line of the one and the first line of the other
  become one line; all others stay.
* `mem_of_mem_lines`: what is in a line.
* `length_of_lines_eq`: the lines before the last one are as many as the newlines, and the last one
  is as long as what comes after the last newline.
-/

namespace RuleTrace.Text

theorem lines_cons_of_ne {c : Char} (hc : c ≠ '\n') {t y : Text} {ys : List Text}
    (h : lines t = y :: ys) : lines (c :: t) = (c :: y) :: ys := by
  rw [lines, if_neg hc, h]

theorem lines_newline (t : Text) : lines ('\n' :: t) = [] :: lines t := by
  rw [lines, if_pos rfl]

/-- There is a last line. -/
theorem exists_lines_eq_concat (t : Text) : ∃ xs x, lines t = xs ++ [x] :=
  ⟨_, _, (List.dropLast_concat_getLast (lines_ne_nil t)).symm⟩

/-- There is a first line. -/
theorem exists_lines_eq_cons (t : Text) : ∃ y ys, lines t = y :: ys :=
  List.exists_cons_of_ne_nil (lines_ne_nil t)

theorem lines_append {a b x y : Text} {xs ys : List Text} (ha : lines a = xs ++ [x])
    (hb : lines b = y :: ys) : lines (a ++ b) = xs ++ (x ++ y) :: ys := by
  induction a generalizing xs x with
  | nil =>
    have hnil : [] ++ [[]] = xs ++ [x] := ha
    obtain ⟨rfl, rfl⟩ := List.append_singleton_inj.1 hnil
    simpa using hb
  | cons c a ih =>
    obtain ⟨zs, z, hz⟩ := exists_lines_eq_concat a
    have hrest := ih hz
    by_cases hc : c = '\n'
    · subst hc
      rw [lines_newline, hz, ← List.cons_append] at ha
      obtain ⟨rfl, rfl⟩ := List.append_singleton_inj.1 ha
      rw [List.cons_append, lines_newline, hrest, List.cons_append]
    · -- the character goes to the first line, which is the last one too if there is one line
      cases zs with
      | nil =>
        have hcons : lines (c :: a) = [] ++ [c :: z] := lines_cons_of_ne hc hz
        rw [hcons] at ha
        obtain ⟨rfl, rfl⟩ := List.append_singleton_inj.1 ha
        rw [List.cons_append, lines_cons_of_ne hc hrest]
        rfl
      | cons w zs =>
        have hcons : lines (c :: a) = ((c :: w) :: zs) ++ [z] := lines_cons_of_ne hc hz
        rw [hcons] at ha
        obtain ⟨rfl, rfl⟩ := List.append_singleton_inj.1 ha
        exact lines_cons_of_ne hc hrest

theorem lines_singleton {c : Char} (hc : c ≠ '\n') : lines [c] = [[c]] :=
  lines_cons_of_ne hc rfl

theorem lines_of_notMem {t : Text} (h : '\n' ∉ t) : lines t = [t] := by
  induction t with
  | nil => rfl
  | cons c t ih =>
    rw [List.mem_cons, not_or] at h
    exact lines_cons_of_ne (Ne.symm h.1) (ih h.2)

/-- The characters of a line are characters of the text, and none of them is a newline. -/
theorem mem_of_mem_lines {c : Char} {t line : Text} (hline : line ∈ lines t) (hc : c ∈ line) :
    c ∈ t ∧ c ≠ '\n' := by
  induction t generalizing line with
  | nil =>
    rw [List.mem_singleton.1 hline] at hc
    exact absurd hc List.not_mem_nil
  | cons d t ih =>
    by_cases hd : d = '\n'
    · rw [hd, lines_newline, List.mem_cons] at hline
      rcases hline with rfl | hline
      · exact absurd hc List.not_mem_nil
      · exact (ih hline hc).imp_left (List.mem_cons_of_mem d)
    · obtain ⟨y, ys, hy⟩ := exists_lines_eq_cons t
      rw [lines_cons_of_ne hd hy, List.mem_cons] at hline
      rw [hy] at ih
      rcases hline with rfl | hline
      · rcases List.mem_cons.1 hc with rfl | hc
        · exact ⟨List.mem_cons_self, hd⟩
        · exact (ih List.mem_cons_self hc).imp_left (List.mem_cons_of_mem d)
      · exact (ih (List.mem_cons_of_mem y hline) hc).imp_left (List.mem_cons_of_mem d)

/-- How many lines there are before the last one, and how long that one is. -/
theorem length_of_lines_eq {t x : Text} {xs : List Text} (h : lines t = xs ++ [x]) :
    xs.length = t.count '\n' ∧ x.length = t.lastLineLength := by
  induction t using List.reverseRecOn generalizing xs x with
  | nil =>
    have hnil : [] ++ [[]] = xs ++ [x] := h
    obtain ⟨rfl, rfl⟩ := List.append_singleton_inj.1 hnil
    exact ⟨rfl, rfl⟩
  | append_singleton t c ih =>
    obtain ⟨zs, z, hz⟩ := exists_lines_eq_concat t
    obtain ⟨hcount, hlast⟩ := ih hz
    by_cases hc : c = '\n'
    · subst hc
      have happ : lines (t ++ ['\n']) = (zs ++ [z]) ++ [[]] := by
        rw [lines_append hz (lines_newline [])]
        simp [lines]
      rw [happ] at h
      obtain ⟨rfl, rfl⟩ := List.append_singleton_inj.1 h
      simp [lastLineLength, hcount]
    · have happ : lines (t ++ [c]) = zs ++ [z ++ [c]] := lines_append hz (lines_singleton hc)
      rw [happ] at h
      obtain ⟨rfl, rfl⟩ := List.append_singleton_inj.1 h
      have hcount' : [c].count '\n' = 0 := by simp [hc]
      rw [List.count_append, hcount', hcount, List.length_append, hlast]
      simp [lastLineLength, hc]

end RuleTrace.Text
