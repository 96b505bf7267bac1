import RuleTrace.Text.Basic
import RuleTrace.Text.Printable

/-!
# Quoted texts

A text inside an error message stands between quote marks. The mark, the backslash and every
character that cannot be shown are written as escapes, so that the message is one printable line.
-/

namespace RuleTrace.Quoted

/-- The quote mark around a text: single, but double when the text has single quotes and no
double ones. -/
def mark (t : Text) : Char :=
  if '\'' ∈ t ∧ '"' ∉ t then '"' else '\''

/-- A number in hexadecimal, in exactly the given count of digits. -/
def hex : Nat → Nat → Text
  | 0, _ => []
  | width + 1, n => hex width (n / 16) ++ [Nat.digitChar (n % 16)]

/-- The escape that names a character by its code point. -/
def codePoint (c : Char) : Text :=
  if c.toNat < 0x100 then '\\' :: 'x' :: hex 2 c.toNat
  else if c.toNat < 0x10000 then '\\' :: 'u' :: hex 4 c.toNat
  else '\\' :: 'U' :: hex 8 c.toNat

/-- A character as it stands between two marks `q`. -/
def escape (q c : Char) : Text :=
  if c = q ∨ c = '\\' then ['\\', c]
  else if c = '\n' then ['\\', 'n']
  else if c = '\r' then ['\\', 'r']
  else if c = '\t' then ['\\', 't']
  else if isPrintable c then [c]
  else codePoint c

/-- A text between quote marks. -/
def quote (t : Text) : Text :=
  mark t :: t.flatMap (escape (mark t)) ++ [mark t]

end RuleTrace.Quoted
