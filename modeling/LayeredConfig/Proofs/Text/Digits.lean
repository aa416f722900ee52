import LayeredConfig.Number.Decimal
import Mathlib.Data.Nat.Digits.Defs

/-!
# Digits

The decimal digits of a natural number: there is at least one, each of them is a digit, and they
tell the number (`digits_injective`). Their count tells its magnitude (`lt_pow_length_digits`,
`pow_length_digits_le`). Whole numbers below `2 ^ 53` are written by them (`text_ofNat`).
-/

namespace LayeredConfig

namespace Number

theorem isDigit_of_mem_digits {n : Nat} {c : Char} (h : c ∈ digits n) : c.isDigit = true :=
  Nat.isDigit_of_mem_toDigits (by decide) (by decide) h

theorem digits_ne_nil (n : Nat) : digits n ≠ [] := Nat.toDigits_ne_nil

/-- **A number is known by its digits.** -/
theorem digits_injective {m n : Nat} (h : digits m = digits n) : m = n := by
  have hvalue := congrArg (fun ds => Nat.ofDigitChars 10 ds 0) h
  simpa only [digits, Nat.ofDigitChars_ten_toDigits] using hvalue

/-- There are enough digits for the number … -/
theorem lt_pow_length_digits (n : Nat) : n < 10 ^ (digits n).length :=
  (Nat.length_toDigits_le_iff (by decide) (List.length_pos_iff.2 (digits_ne_nil n))).1
    (Nat.le_refl _)

/-- … and not more than are needed. -/
theorem pow_length_digits_le {n : Nat} (h : 0 < n) : 10 ^ ((digits n).length - 1) ≤ n := by
  rcases Nat.eq_zero_or_pos ((digits n).length - 1) with hone | hmore
  · rw [hone]
    exact h
  · by_contra hlt
    have hle : (digits n).length ≤ (digits n).length - 1 :=
      (Nat.length_toDigits_le_iff (by decide) hmore).2 (Nat.lt_of_not_le hlt)
    omega

/-- A position is written by its digits. -/
theorem text_ofNat {n : Nat} (h : n < 2 ^ 53) : (ofNat n).text = String.ofList (digits n) := by
  have hsmall : ((n : Int) : Rat).den = 1 ∧ ((n : Int) : Rat).num.natAbs < significandBound :=
    ⟨rfl, h⟩
  show rationalText ((n : Int) : Rat) = _
  rw [rationalText, if_pos hsmall]
  rfl

end Number

end LayeredConfig
