import RuleTrace.Text.BlankChar
import RuleTrace.Text.DigitChar
import RuleTrace.Text.WordChar

/-!
# Character sets

What a single place of a pattern can match: the characters of some ranges and categories, or all
but those.
-/

namespace RuleTrace

/-- The categories that patterns have a name for. -/
inductive CharCategory where
  | word
  | digit
  | blank
deriving DecidableEq, Repr

/-- Whether a character is of a category. -/
def CharCategory.contains : CharCategory → Char → Bool
  | .word => isWordChar
  | .digit => isDigitChar
  | .blank => isBlankChar

/-- A member of a set: a range of characters, or a category or its complement. -/
inductive CharMember where
  | range (first last : Char)
  | category (k : CharCategory) (negated : Bool)
deriving DecidableEq, Repr

namespace CharMember

/-- The member that is one character. -/
def single (c : Char) : CharMember :=
  .range c c

/-- Whether a member covers a character. -/
def contains : CharMember → Char → Bool
  | .range first last, c => first.toNat ≤ c.toNat && c.toNat ≤ last.toNat
  | .category k negated, c => k.contains c != negated

end CharMember

/-- A set of characters, given by members that it has or, negated, that it lacks. -/
structure CharSet where
  members : List CharMember
  negated : Bool := false
deriving DecidableEq, Repr

namespace CharSet

/-- The set of one character. -/
def single (c : Char) : CharSet :=
  { members := [.single c] }

/-- All characters but the newline. -/
def inLine : CharSet :=
  { members := [.single '\n'], negated := true }

/-- The set of a category, or its complement. -/
def ofCategory (category : CharCategory) (negated : Bool) : CharSet :=
  { members := [.category category negated] }

/-- Whether a character is in a set. -/
def contains (s : CharSet) (c : Char) : Bool :=
  s.members.any (·.contains c) != s.negated

end CharSet

theorem CharMember.contains_single (c d : Char) : (single c).contains d = (c == d) := by
  have h : (c == d) = decide (c.toNat = d.toNat) := by
    rw [Bool.eq_iff_iff]
    simp [← Char.toNat_inj]
  rw [h, Bool.eq_iff_iff]
  simp [single, contains]
  omega

@[simp] theorem CharSet.contains_single (c d : Char) : (single c).contains d = (c == d) := by
  simp [CharSet.single, CharSet.contains, CharMember.contains_single]

end RuleTrace
