import LayeredConfig.Proofs.Text.Digits
import Mathlib.Algebra.Order.Field.Power
import Mathlib.Data.List.TakeWhile

/-!
# Significant digits

The text of a number is laid out from its significant digits, of which the first is not zero.

- `Leads`: digits that begin with another one than zero. The digits of a positive number do
  (`leads_digits`), and without the zeros at their end they still do (`leads_significandOf`).
- `neighbour?_pos`: zero does not stand for a positive fraction, since it is not read back as it.
- `powerOfTen_le_of_magnitude`: the magnitude of a fraction bounds it from below. So it is not
  rounded to zero on a grid that is finer than that.
- `shortestDigits_leads`: so the shortest digits of a positive fraction, which come from one of its
  neighbours on a grid or from the finest grid, begin with another one than zero.
-/

namespace LayeredConfig

namespace Number

/-! ## Leading digits -/

/-- Digits, of which the first is not zero. -/
structure Leads (ds : List Char) : Prop where
  digits : ∀ c ∈ ds, c.isDigit = true
  first : ∃ c rest, ds = c :: rest ∧ c ≠ '0'

theorem Leads.append {ds more : List Char} (h : Leads ds) (hmore : ∀ c ∈ more, c.isDigit = true) :
    Leads (ds ++ more) := by
  obtain ⟨c, rest, rfl, hc⟩ := h.first
  exact ⟨fun d hd => (List.mem_append.1 hd).elim (h.digits d) (hmore d), c, rest ++ more, rfl, hc⟩

/-- A positive number does not begin with a zero. -/
theorem leads_digits {n : Nat} (h : 0 < n) : Leads (digits n) := by
  refine ⟨fun c => isDigit_of_mem_digits, ?_⟩
  induction n using Nat.strongRecOn with
  | _ n ih =>
    by_cases hsmall : n < 10
    · have hdigit : ∀ n < 10, 0 < n → Nat.digitChar n ≠ '0' := by decide
      exact ⟨Nat.digitChar n, [], Nat.toDigits_of_lt_base hsmall, hdigit n hsmall h⟩
    · obtain ⟨c, rest, heq, hc⟩ := ih (n / 10) (by omega) (by omega)
      refine ⟨c, rest ++ [Nat.digitChar (n % 10)], ?_, hc⟩
      rw [digits, Nat.toDigits_of_base_le (by decide) (by omega)]
      exact congrArg (· ++ [Nat.digitChar (n % 10)]) heq

/-- Zeros are taken off at the end only. -/
theorem leads_significandOf {n : Nat} (h : 0 < n) (e : Int) :
    Leads (significandOf n e).digits := by
  have hleads := leads_digits h
  obtain ⟨c, rest, heq, hc⟩ := hleads.first
  have hinitial : (significandOf n e).digits <+: digits n := by
    have hfinal := List.dropWhile_suffix (l := (digits n).reverse) (· == '0')
    exact List.reverse_reverse (digits n) ▸ List.reverse_prefix.2 hfinal
  refine ⟨fun d hd => hleads.digits d (hinitial.subset hd), ?_⟩
  have hne : (significandOf n e).digits ≠ [] := by
    intro hempty
    have hzeros : ∀ d ∈ (digits n).reverse, (d == '0') = true :=
      List.dropWhile_eq_nil_iff.1 (List.reverse_eq_nil_iff.1 hempty)
    exact hc (by simpa using hzeros c (by simp [heq]))
  obtain ⟨d, ds, hds⟩ := List.exists_cons_of_ne_nil hne
  rw [hds, heq, List.cons_prefix_cons] at hinitial
  exact ⟨d, ds, hds, hinitial.1 ▸ hc⟩

/-! ## The shortest digits -/

theorem roundHalfEven_zero (den : Nat) : roundHalfEven 0 den = 0 := by
  unfold roundHalfEven
  rcases Nat.eq_zero_or_pos den with rfl | h
  · decide
  · simp [h]

theorem le_roundHalfEven (num den : Nat) : num / den ≤ roundHalfEven num den := by
  unfold roundHalfEven
  dsimp only
  split
  · exact Nat.le_refl _
  · split
    · exact Nat.le_succ _
    · split
      · exact Nat.le_refl _
      · exact Nat.le_succ _

/-- Zero is read back as zero. -/
theorem readsBack_zero {num den : Nat} (h : 0 < num) (e : Int) : readsBack num den 0 e = false := by
  have hpower : ∀ e, 0 < (powerOfTwo e).2 := fun e => Nat.pow_pos (by decide)
  unfold readsBack nearestFraction?
  simp only [Nat.zero_mul, roundHalfEven_zero]
  split
  · rename_i heq
    split at heq
    · cases heq
    · cases heq
      have hne : num * (powerOfTwo (max (binaryMagnitude 0 (powerOfTen e).2 - 52)
          leastExponent)).2 ≠ 0 := Nat.ne_of_gt (Nat.mul_pos h (hpower _))
      simpa using hne.symm
  · rfl

theorem neighbour?_pos {num den n : Nat} {e : Int} (h : 0 < num)
    (hn : neighbour? num den e = some n) : 0 < n := by
  unfold neighbour? at hn
  dsimp only at hn
  rcases Nat.eq_zero_or_pos (num * (powerOfTen e).2 / (den * (powerOfTen e).1)) with hzero | hpos
  · rw [hzero, readsBack_zero h] at hn
    split at hn
    · simp_all
    · cases hn
      omega
    · simp_all
    · cases hn
  · have hround := le_roundHalfEven (num * (powerOfTen e).2) (den * (powerOfTen e).1)
    split at hn
    · cases hn
      exact hpos
    · cases hn
      omega
    · cases hn
      omega
    · cases hn

/-- A fraction of at least one unit is not rounded to zero. -/
theorem roundHalfEven_pos {num den : Nat} (hden : 0 < den) (h : den ≤ num) :
    0 < roundHalfEven num den :=
  Nat.lt_of_lt_of_le (Nat.div_pos h hden) (le_roundHalfEven num den)

theorem powerOfTen_eq (e : Int) :
    ((powerOfTen e).1 : ℚ) = 10 ^ e * ((powerOfTen e).2 : ℚ) := by
  obtain ⟨n, rfl | rfl⟩ := e.eq_nat_or_neg
  · simp [powerOfTen]
  · simp [powerOfTen]

theorem powerOfTen_pos (e : Int) : 0 < (powerOfTen e).1 ∧ 0 < (powerOfTen e).2 :=
  ⟨Nat.pow_pos (by decide), Nat.pow_pos (by decide)⟩

/-- A power of ten is compared with a fraction in natural numbers. -/
theorem powerOfTen_le_iff {num den : Nat} (hden : 0 < den) (e : Int) :
    (powerOfTen e).1 * den ≤ num * (powerOfTen e).2 ↔ (10 : ℚ) ^ e ≤ num / den := by
  have hdown : (0 : ℚ) < (powerOfTen e).2 := by exact_mod_cast (powerOfTen_pos e).2
  have hden' : (0 : ℚ) < den := by exact_mod_cast hden
  rw [← Nat.cast_le (α := ℚ), Nat.cast_mul, Nat.cast_mul, powerOfTen_eq, le_div_iff₀ hden']
  rw [mul_right_comm, mul_le_mul_iff_left₀ hdown]

/-- The magnitude of a fraction is not too great. -/
theorem powerOfTen_le_of_magnitude {num den : Nat} (hnum : 0 < num) (hden : 0 < den) :
    (10 : ℚ) ^ (decimalMagnitude num den - 1) ≤ num / den := by
  unfold decimalMagnitude
  dsimp only
  split
  · rename_i hle
    rw [add_sub_cancel_right]
    exact (powerOfTen_le_iff hden _).1 hle
  · -- the numerator is bounded from below by its digits, and the denominator from above
    have hlower := pow_length_digits_le hnum
    have hupper := lt_pow_length_digits den
    have hdigits : 0 < (digits num).length := List.length_pos_iff.2 (digits_ne_nil num)
    have hden' : (0 : ℚ) < den := by exact_mod_cast hden
    have hsplit : ((digits num).length : Int) - (digits den).length - 1 + (digits den).length =
        (((digits num).length - 1 : Nat) : Int) := by
      omega
    rw [le_div_iff₀ hden']
    calc (10 : ℚ) ^ (((digits num).length : Int) - (digits den).length - 1) * den
        ≤ 10 ^ (((digits num).length : Int) - (digits den).length - 1) *
            10 ^ (digits den).length := by
          refine mul_le_mul_of_nonneg_left ?_ (zpow_nonneg (by norm_num) _)
          exact_mod_cast hupper.le
      _ = 10 ^ ((digits num).length - 1) := by
          rw [← zpow_natCast (10 : ℚ) (digits den).length, ← zpow_add₀ (by norm_num), hsplit,
            zpow_natCast]
      _ ≤ num := by exact_mod_cast hlower

/-- On a grid this much finer than its magnitude, a fraction is many units. -/
theorem roundHalfEven_pos_of_magnitude {num den : Nat} (hnum : 0 < num) (hden : 0 < den) {e : Int}
    (h : e < decimalMagnitude num den) :
    0 < roundHalfEven (num * (powerOfTen e).2) (den * (powerOfTen e).1) := by
  refine roundHalfEven_pos (Nat.mul_pos hden (powerOfTen_pos e).1) ?_
  rw [Nat.mul_comm, powerOfTen_le_iff hden]
  exact (zpow_le_zpow_right₀ (by norm_num) (by omega)).trans (powerOfTen_le_of_magnitude hnum hden)

theorem shortestFrom_zero (num den : Nat) (magnitude : Int) (count : Nat) :
    shortestFrom num den magnitude count 0 =
      significandOf (roundHalfEven (num * (powerOfTen (magnitude - count)).2)
        (den * (powerOfTen (magnitude - count)).1)) (magnitude - count) := rfl

-- to compare the two sides, Lean evaluates `neighbour?` as far as that goes
set_option maxRecDepth 4000 in
theorem shortestFrom_succ (num den : Nat) (magnitude : Int) (count grids : Nat) :
    shortestFrom num den magnitude count (grids + 1) =
      match neighbour? num den (magnitude - count) with
      | some n => significandOf n (magnitude - count)
      | none => shortestFrom num den magnitude (count + 1) grids := rfl

theorem shortestFrom_leads {num den : Nat} (hnum : 0 < num) (hden : 0 < den) (count grids : Nat)
    (hcount : 0 < count) :
    Leads (shortestFrom num den (decimalMagnitude num den) count grids).digits := by
  induction grids generalizing count with
  | zero =>
    have hfinest : decimalMagnitude num den - count < decimalMagnitude num den := by omega
    rw [shortestFrom_zero]
    exact leads_significandOf (roundHalfEven_pos_of_magnitude hnum hden hfinest) _
  | succ grids ih =>
    rw [shortestFrom_succ]
    split
    · rename_i n hn
      exact leads_significandOf (neighbour?_pos hnum hn) _
    · exact ih (count + 1) (Nat.succ_pos count)

/-- The significant digits of a positive fraction do not begin with a zero. -/
theorem shortestDigits_leads {num den : Nat} (hnum : 0 < num) (hden : 0 < den) :
    Leads (shortestDigits num den).digits := by
  rw [shortestDigits]
  exact shortestFrom_leads hnum hden 1 _ Nat.one_pos

end Number

end LayeredConfig
