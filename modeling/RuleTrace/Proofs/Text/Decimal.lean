import Mathlib.Algebra.GroupWithZero.Nat
import RuleTrace.Text.Decimal

/-!
# The length of numerals

The count of the digits of a number bounds the number, and the other way around.

* `ofDigits_lt`: how far a run of digits goes.
* `fits_iff`, `fits_of_le`: which numbers are short enough to be written.
-/

namespace RuleTrace.Decimal

/-- The number that a run of digits stands for is bounded by their count. -/
theorem ofDigits_lt {ds : Text} (h : ∀ c ∈ ds, c.isDigit = true) :
    ofDigits ds < 10 ^ ds.length := by
  induction ds with
  | nil => decide
  | cons c ds ih =>
    obtain ⟨hc, h⟩ := List.forall_mem_cons.1 h
    have hdigit : c.toNat ≤ 57 := by
      simp only [Char.isDigit, Bool.and_eq_true, decide_eq_true_eq, ge_iff_le,
        UInt32.le_iff_toNat_le] at hc
      exact hc.2
    have hfirst : c.toNat - '0'.toNat ≤ 9 := by
      have hzero : '0'.toNat = 48 := rfl
      omega
    have hrest := ih h
    have hmul := Nat.mul_le_mul_left (10 ^ ds.length) hfirst
    rw [ofDigits] at hrest ⊢
    rw [Nat.ofDigitChars_cons, Nat.ofDigitChars_eq_ofDigitChars_zero, List.length_cons,
      Nat.pow_succ, Nat.mul_zero, Nat.zero_add]
    omega

theorem fits_iff (i : Int) : fits i = true ↔ i.natAbs < 10 ^ maxDigits := by
  rw [fits, decide_eq_true_iff]
  exact Nat.length_toDigits_le_iff (by decide) (by decide)

theorem fits_of_le {i j : Int} (h : i.natAbs ≤ j.natAbs) (hj : fits j = true) : fits i = true :=
  (fits_iff i).2 (Nat.lt_of_le_of_lt h ((fits_iff j).1 hj))

/-- The smallest number that is too long. -/
theorem fits_tenPow : fits (10 ^ maxDigits : Nat) = false := by
  rw [← Bool.not_eq_true, fits_iff, Int.natAbs_natCast]
  exact Nat.lt_irrefl _

end RuleTrace.Decimal
