import RuleTrace.Text.CharRange

/-!
# White space

The characters that separate words: the spaces of all scripts, tabs and every line boundary.
-/

namespace RuleTrace

/-- The code points of white space. -/
def blankRanges : List CharRange :=
  [⟨0x9, 0xd⟩, ⟨0x1c, 0x20⟩, ⟨0x85, 0x85⟩, ⟨0xa0, 0xa0⟩, ⟨0x1680, 0x1680⟩, ⟨0x2000, 0x200a⟩,
    ⟨0x2028, 0x2029⟩, ⟨0x202f, 0x202f⟩, ⟨0x205f, 0x205f⟩, ⟨0x3000, 0x3000⟩]

/-- Whether a character is white space. -/
def isBlankChar (c : Char) : Bool :=
  CharRange.anyContains blankRanges c.toNat

end RuleTrace
