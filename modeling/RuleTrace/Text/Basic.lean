/-!
# Texts

A text is the list of its code points: every length, offset and column of the library counts
them. Offsets may be any integer. `Text.cut` says which place in the text an offset names, and
the slices `upto`, `from` and `between` are taken at such places.
-/

namespace RuleTrace

/-- A text: its code points in order. -/
abbrev Text := List Char

namespace Text

/-! ## Slices -/

/-- The place that an offset names in a text of `n` characters: a negative offset counts back
from the end, and one outside the text names its nearer end. -/
def cut (n : Nat) (offset : Int) : Nat :=
  if offset < 0 then (n + offset).toNat else min offset.toNat n

/-- The text before an offset. -/
def upto (t : Text) (stop : Int) : Text :=
  t.take (cut t.length stop)

/-- The text from an offset on. -/
def onward (t : Text) (start : Int) : Text :=
  t.drop (cut t.length start)

/-- The text between two offsets, empty when the first place is not before the second. -/
def between (t : Text) (start stop : Int) : Text :=
  (t.take (cut t.length stop)).drop (cut t.length start)

theorem cut_le (n : Nat) (offset : Int) : cut n offset ≤ n := by
  unfold cut
  split <;> omega

/-- An offset inside the text names itself. -/
theorem cut_natCast {n k : Nat} (h : k ≤ n) : cut n (k : Int) = k := by
  unfold cut
  split <;> omega

theorem upto_append_onward (t : Text) (offset : Int) : t.upto offset ++ t.onward offset = t :=
  List.take_append_drop _ t

/-! ## Lines -/

/-- The lines of a text, cut at every newline. There is always at least one. -/
def lines : Text → List Text
  | [] => [[]]
  | c :: t =>
    if c = '\n' then [] :: lines t
    else match lines t with
      | [] => [[c]]
      | line :: rest => (c :: line) :: rest

/-- Lines put together with a newline between neighbours. -/
def unlines : List Text → Text
  | [] => []
  | [line] => line
  | line :: rest => line ++ '\n' :: unlines rest

theorem lines_ne_nil (t : Text) : lines t ≠ [] := by
  cases t with
  | nil => simp [lines]
  | cons c t =>
    unfold lines
    split
    · simp
    · split <;> simp

/-- A text is its lines with the newlines put back. -/
theorem unlines_lines (t : Text) : unlines (lines t) = t := by
  induction t with
  | nil => rfl
  | cons c t ih =>
    unfold lines
    cases h : lines t with
    | nil => exact absurd h (lines_ne_nil t)
    | cons line rest =>
      rw [h] at ih
      split
      · next hc => simp [unlines, ih, hc]
      · cases rest <;> simpa [unlines] using ih

end Text

end RuleTrace
