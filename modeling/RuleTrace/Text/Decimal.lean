import RuleTrace.Text.Basic

/-!
# Decimal numerals

Integers are written with the fewest digits, a minus sign in front of the negative ones. Reading
a run of digits takes any number of leading zeros.

Where numerals have a greatest length (`maxDigits`), a longer one is neither read nor written.

* `ofDigits_digits`: the digits of a number read back as the number.
-/

namespace RuleTrace.Decimal

/-- The digits of a natural number. -/
def digits (n : Nat) : Text :=
  Nat.toDigits 10 n

/-- The numeral of an integer. -/
def ofInt : Int → Text
  | .ofNat n => digits n
  | .negSucc n => '-' :: digits (n + 1)

/-- The number that a run of digits stands for. -/
def ofDigits (t : Text) : Nat :=
  Nat.ofDigitChars 10 t 0

theorem ofDigits_digits (n : Nat) : ofDigits (digits n) = n :=
  Nat.ofDigitChars_ten_toDigits

theorem isDigit_of_mem_digits {n : Nat} {c : Char} (h : c ∈ digits n) : c.isDigit = true :=
  Nat.isDigit_of_mem_toDigits (by decide) (by decide) h

theorem digits_ne_nil (n : Nat) : digits n ≠ [] :=
  Nat.toDigits_ne_nil

/-! ## The length of numerals -/

/-- The greatest count of digits of a numeral. -/
def maxDigits : Nat := 4300

/-- Whether a number is short enough to be written. Its sign does not count. -/
def fits (i : Int) : Bool :=
  (digits i.natAbs).length ≤ maxDigits

/-- Why a number is not read or written. -/
inductive LengthError where
  /-- A numeral with too many digits was read. -/
  | longNumeral (digits : Nat)
  /-- A number with too many digits was to be written. -/
  | longNumber
deriving DecidableEq, Repr

/-- The message for a number that is not read or written. -/
def LengthError.message (e : LengthError) : Text :=
  let count : Text :=
    match e with
    | .longNumeral n => ": value has ".toList ++ digits n ++ " digits".toList
    | .longNumber => []
  "Exceeds the limit (".toList ++ digits maxDigits ++
    " digits) for integer string conversion".toList ++ count ++
    "; use sys.set_int_max_str_digits() to increase the limit".toList

end RuleTrace.Decimal
