import Retrace.Operator
import Retrace.Proofs.Truncation

/-!
# Arithmetic on words

The five arithmetic operators compute in the binary64 format, and still have a description in
integers alone.

* `integerPart_nearest_div` : rounding the quotient of two words never reaches the next integer;
* `toInt_add`, `toInt_sub`, `toInt_div`, `toInt_mod`, `toInt_mul` : the operators one by one;
* `arithmetic_exact` : all of them.
-/

namespace Retrace

open Binary64

/-! ## Quotients -/

namespace Binary64

/-- Between two neighbouring integers the integer part does not change. -/
theorem integerPart_of_between {f : Int} {q : ℚ} (low : (f : ℚ) < q) (high : q < f + 1) :
    integerPart q = if f < 0 then f + 1 else f := by
  unfold integerPart
  rw [floor_eq, floor_eq]
  by_cases negative : q < 0
  · have sign : f < 0 := by exact_mod_cast low.trans negative
    have floor : ⌊-q⌋ = -(f + 1) := by
      rw [Int.floor_eq_iff]
      push_cast
      constructor <;> linarith
    rw [if_pos negative, if_pos sign, floor, Int.neg_neg]
  · have sign : ¬ f < 0 := by
      have : (0 : ℚ) < ((f + 1 : Int) : ℚ) := by
        push_cast
        linarith
      have : 0 < f + 1 := by exact_mod_cast this
      omega
    rw [if_neg negative, if_neg sign, Int.floor_eq_iff]
    exact ⟨low.le, high⟩

/-- A fraction that is not an integer stays one denominator away from every integer, so whatever is
nearer to it has the same integer part. -/
theorem integerPart_of_near {s : Int} {d : Nat} {q : ℚ} (positive : 0 < d) (proper : ¬ (d : Int) ∣ s)
    (near : |q - (s : ℚ) / d| < 1 / d) : integerPart q = integerPart ((s : ℚ) / d) := by
  have den : (0 : ℚ) < d := by exact_mod_cast positive
  have division := Int.emod_add_mul_ediv s d
  have remainder : 0 < s % d ∧ s % d < d := by
    have := Int.emod_nonneg s (b := d) (by omega)
    have := Int.emod_lt_of_pos s (b := d) (by omega)
    have : s % d ≠ 0 := fun zero => proper (Int.dvd_of_emod_eq_zero zero)
    omega
  have low : ((s / d : Int) : ℚ) + 1 / d ≤ (s : ℚ) / d := by
    rw [le_div_iff₀ den, add_mul, one_div_mul_cancel den.ne', mul_comm]
    have : (d : Int) * (s / d) + 1 ≤ s := by omega
    exact_mod_cast this
  have high : (s : ℚ) / d ≤ ((s / d : Int) : ℚ) + 1 - 1 / d := by
    rw [div_le_iff₀ den, sub_mul, add_mul, one_div_mul_cancel den.ne', mul_comm, one_mul]
    have : s ≤ (d : Int) * (s / d) + d - 1 := by omega
    exact_mod_cast this
  obtain ⟨left, right⟩ := abs_lt.1 near
  have gap : (0 : ℚ) < 1 / d := by positivity
  rw [integerPart_of_between (f := s / d) (q := q) (by linarith) (by linarith),
    integerPart_of_between (f := s / d) (q := (s : ℚ) / d) (by linarith) (by linarith)]

theorem integerPart_nearest_div_natCast {s : Int} {d : Nat} (positive : 0 < d) (num : |s| ≤ 2 ^ 31)
    (den : d ≤ 2 ^ 31) : integerPart (nearest ((s : ℚ) / d)) = s.tdiv d := by
  have unit : (0 : ℚ) < d := by exact_mod_cast positive
  rw [← integerPart_div_natCast]
  by_cases whole : (d : Int) ∣ s
  · obtain ⟨t, rfl⟩ := whole
    have quotient : (((d : Int) * t : Int) : ℚ) / (d : ℚ) = t := by
      push_cast
      exact mul_div_cancel_left₀ _ unit.ne'
    have bound : |t| < 2 ^ 53 := by
      rw [abs_mul] at num
      have : |t| ≤ |(d : Int)| * |t| := le_mul_of_one_le_left (abs_nonneg _) (by rw [Nat.abs_cast]; omega)
      omega
    rw [quotient, nearest_intCast bound]
  · apply integerPart_of_near positive whole
    have nonzero : s ≠ 0 := by
      rintro rfl
      exact whole (dvd_zero _)
    have size : |(s : ℚ) / d| = |(s : ℚ)| / d := by rw [abs_div, abs_of_pos unit]
    have normal : (2 : ℚ) ^ (-1022 : Int) ≤ |(s : ℚ) / d| := by
      have one : (1 : ℚ) ≤ |(s : ℚ)| := by exact_mod_cast Int.one_le_abs nonzero
      have most : (d : ℚ) ≤ 2 ^ 31 := by exact_mod_cast den
      calc (2 : ℚ) ^ (-1022 : Int) ≤ (2 : ℚ) ^ (-31 : Int) := zpow_le_zpow_right₀ (by norm_num) (by norm_num)
        _ = 1 / 2 ^ 31 := by norm_num
        _ ≤ |(s : ℚ)| / d := by gcongr
        _ = |(s : ℚ) / d| := size.symm
    have most : |(s : ℚ)| ≤ 2 ^ 31 := by exact_mod_cast num
    calc |nearest ((s : ℚ) / d) - (s : ℚ) / d| ≤ |(s : ℚ) / d| * (2 : ℚ) ^ (-53 : Int) := nearest_relative_error normal
      _ = |(s : ℚ)| * (2 : ℚ) ^ (-53 : Int) / d := by rw [size]; ring
      _ ≤ 2 ^ 31 * (2 : ℚ) ^ (-53 : Int) / d := by gcongr
      _ < 1 / d := by
          gcongr
          norm_num

/-- Rounding the quotient of two words never carries it over an integer. -/
theorem integerPart_nearest_div {x y : Int} (nonzero : y ≠ 0) (num : |x| ≤ 2 ^ 31) (den : |y| ≤ 2 ^ 31) :
    integerPart (nearest ((x : ℚ) / y)) = x.tdiv y := by
  obtain ⟨d, rfl | rfl⟩ := y.eq_nat_or_neg
  · rw [Nat.abs_cast] at den
    rw [Int.cast_natCast]
    exact integerPart_nearest_div_natCast (by omega) num (by omega)
  · rw [abs_neg, Nat.abs_cast] at den
    have opposite : (x : ℚ) / ((-(d : Int) : Int) : ℚ) = ((-x : Int) : ℚ) / d := by
      push_cast
      rw [div_neg, neg_div]
    rw [opposite, integerPart_nearest_div_natCast (by omega) (by rwa [abs_neg]) (by omega), Int.neg_tdiv,
      Int.tdiv_neg]

theorem toInt_truncate_rounded {q : ℚ} (h : |q| < (2 : ℚ) ^ (64 : Int)) :
    (truncate (rounded q)).toInt = (integerPart (nearest q)).bmod (2 ^ 32) := by
  rw [rounded_eq_nearest h, toInt_truncate_finite]
  rfl

/-- A short integer result is not rounded. -/
theorem toInt_truncate_rounded_intCast {n : Int} (h : |n| < 2 ^ 53) :
    (truncate (rounded (n : ℚ))).toInt = n.bmod (2 ^ 32) := by
  rw [rounded_intCast h, toInt_truncate_finite, integerPart_intCast]
  rfl

end Binary64

/-! ## The operators -/

namespace Operator

theorem abs_toInt_le (a : Word) : |a.toInt| ≤ 2 ^ 31 := by
  have := a.le_toInt
  have := a.toInt_lt
  rw [abs_le]
  omega

theorem toInt_add (a b : Word) : (add.apply a b).toInt = (a.toInt + b.toInt).bmod (2 ^ 32) := by
  have short : |a.toInt + b.toInt| < 2 ^ 53 := by
    have := abs_add_le a.toInt b.toInt
    have := abs_toInt_le a
    have := abs_toInt_le b
    omega
  rw [← toInt_truncate_rounded_intCast short]
  unfold apply Binary64.sum exact
  push_cast
  rfl

theorem toInt_sub (a b : Word) : (sub.apply a b).toInt = (a.toInt - b.toInt).bmod (2 ^ 32) := by
  have short : |a.toInt - b.toInt| < 2 ^ 53 := by
    have := abs_sub a.toInt b.toInt
    have := abs_toInt_le a
    have := abs_toInt_le b
    omega
  rw [← toInt_truncate_rounded_intCast short]
  unfold apply Binary64.difference exact
  push_cast
  rfl

theorem toInt_eq_zero_iff (b : Word) : b.toInt = 0 ↔ b = 0 := by
  rw [← Int32.toInt_inj]
  rfl

theorem exact_eq_zero_iff (b : Word) : exact b = 0 ↔ b = 0 := by
  unfold exact
  rw [Int.cast_eq_zero, toInt_eq_zero_iff]

theorem toInt_div (a b : Word) :
    (div.apply a b).toInt = if b = 0 then 0 else (a.toInt.tdiv b.toInt).bmod (2 ^ 32) := by
  change (truncate (quotient (exact a) (exact b))).toInt = _
  unfold quotient
  by_cases zero : b = 0
  · rw [if_pos ((exact_eq_zero_iff b).2 zero), if_pos zero]
    split_ifs <;> rfl
  · rw [if_neg (zero ∘ (exact_eq_zero_iff b).1), if_neg zero]
    have nonzero : b.toInt ≠ 0 := zero ∘ (toInt_eq_zero_iff b).1
    unfold exact
    rw [toInt_truncate_rounded, integerPart_nearest_div nonzero (abs_toInt_le a) (abs_toInt_le b)]
    have num : |(a.toInt : ℚ)| ≤ 2 ^ 31 := by exact_mod_cast abs_toInt_le a
    have den : (1 : ℚ) ≤ |(b.toInt : ℚ)| := by exact_mod_cast Int.one_le_abs nonzero
    calc |(a.toInt : ℚ) / (b.toInt : ℚ)| = |(a.toInt : ℚ)| / |(b.toInt : ℚ)| := abs_div _ _
      _ ≤ |(a.toInt : ℚ)| := div_le_self (abs_nonneg _) den
      _ ≤ 2 ^ 31 := num
      _ < (2 : ℚ) ^ (64 : Int) := by norm_num

theorem toInt_mod (a b : Word) :
    (mod.apply a b).toInt = if b = 0 then 0 else a.toInt - b.toInt * a.toInt.tdiv b.toInt := by
  change (truncate (remainder (exact a) (exact b))).toInt = _
  unfold remainder
  by_cases zero : b = 0
  · rw [if_pos ((exact_eq_zero_iff b).2 zero), if_pos zero]
    rfl
  · rw [if_neg (zero ∘ (exact_eq_zero_iff b).1), if_neg zero]
    have nonzero : b.toInt ≠ 0 := zero ∘ (toInt_eq_zero_iff b).1
    -- the remainder is below the divisor, so it is a word already
    have small : (a.toInt.tmod b.toInt).natAbs < b.toInt.natAbs := by
      rw [Int.natAbs_tmod]
      exact Nat.mod_lt _ (by omega)
    have most := abs_toInt_le b
    rw [Int.abs_eq_natAbs] at most
    rw [toInt_truncate_finite]
    unfold exact
    rw [excess_intCast, integerPart_intCast, ← Int.tmod_def]
    exact Int.bmod_eq_of_le (by omega) (by omega)

/-- The product is rounded to 53 digits before it wraps. -/
theorem toInt_mul (a b : Word) :
    ∃ m, NearestEven ((a.toInt * b.toInt).natAbs.size - 53) (a.toInt * b.toInt) m ∧
      (mul.apply a b).toInt = m.bmod (2 ^ 32) := by
  obtain ⟨m, value, nearest⟩ := nearestEven_nearest (a.toInt * b.toInt)
  refine ⟨m, nearest, ?_⟩
  change (truncate (rounded (exact a * exact b))).toInt = _
  unfold exact
  rw [← Int.cast_mul, toInt_truncate_rounded, value, integerPart_intCast]
  have bound : |a.toInt * b.toInt| ≤ 2 ^ 31 * 2 ^ 31 := by
    rw [abs_mul]
    exact mul_le_mul (abs_toInt_le a) (abs_toInt_le b) (abs_nonneg _) (by norm_num)
  calc |((a.toInt * b.toInt : Int) : ℚ)| ≤ 2 ^ 31 * 2 ^ 31 := by exact_mod_cast bound
    _ < (2 : ℚ) ^ (64 : Int) := by norm_num

/-- Up to 2^53 a product has no digit to lose. -/
theorem dvd_of_abs_le {p : Int} (h : |p| ≤ 2 ^ 53) : 2 ^ (p.natAbs.size - 53) ∣ p := by
  by_cases short : p.natAbs < 2 ^ 53
  · rw [Nat.sub_eq_zero_of_le (Nat.size_le.2 short), pow_zero]
    exact one_dvd p
  · have power : p.natAbs = 2 ^ 53 := by
      rw [Int.abs_eq_natAbs] at h
      omega
    rw [power, Nat.size_pow]
    omega

theorem mul_eq_of_abs_le {a b : Word} (h : |a.toInt * b.toInt| ≤ 2 ^ 53) : mul.apply a b = a * b := by
  obtain ⟨m, nearest, value⟩ := toInt_mul a b
  rw [← Int32.toInt_inj, value, nearest.eq_of_dvd (dvd_of_abs_le h), Int32.toInt_mul]

/-- **The arithmetic operators in integers.** Sums and differences wrap; a quotient is cut toward zero
and wraps, a remainder has the sign of the dividend, and both are zero for a zero divisor; a product is
first rounded to 53 digits, a tie to even, and wraps, which is the wrapping product up to 2^53. -/
theorem arithmetic_exact (a b : Word) :
    (add.apply a b).toInt = (a.toInt + b.toInt).bmod (2 ^ 32) ∧
    (sub.apply a b).toInt = (a.toInt - b.toInt).bmod (2 ^ 32) ∧
    (div.apply a b).toInt = (if b = 0 then 0 else (a.toInt.tdiv b.toInt).bmod (2 ^ 32)) ∧
    div.apply Int32.minValue (-1) = Int32.minValue ∧
    (mod.apply a b).toInt = (if b = 0 then 0 else a.toInt - b.toInt * a.toInt.tdiv b.toInt) ∧
    (∃ m, (∀ n, NearestEven ((a.toInt * b.toInt).natAbs.size - 53) (a.toInt * b.toInt) n ↔ n = m) ∧
      (mul.apply a b).toInt = m.bmod (2 ^ 32)) ∧
    (|a.toInt * b.toInt| ≤ 2 ^ 53 → mul.apply a b = a * b) := by
  refine ⟨toInt_add a b, toInt_sub a b, toInt_div a b, ?_, toInt_mod a b, ?_, mul_eq_of_abs_le⟩
  · rw [← Int32.toInt_inj, toInt_div]
    decide
  · obtain ⟨m, nearest, value⟩ := toInt_mul a b
    refine ⟨m, fun n => ⟨fun other => other.unique nearest, ?_⟩, value⟩
    rintro rfl
    exact nearest

/-- The square of the greatest word is odd and loses its last digit; a product just below 2^53 is
kept. -/
theorem arithmetic_exact_products :
    mul.apply 2147483647 2147483647 = 0 ∧
    |(94906265 : Word).toInt * (-94906265 : Word).toInt| ≤ 2 ^ 53 ∧
      mul.apply 94906265 (-94906265) = 94906265 * -94906265 := by
  have short : |(94906265 : Word).toInt * (-94906265 : Word).toInt| ≤ 2 ^ 53 := by decide
  obtain ⟨-, -, -, -, -, -, kept⟩ := arithmetic_exact 94906265 (-94906265)
  obtain ⟨-, -, -, -, -, ⟨m, unique, value⟩, -⟩ := arithmetic_exact 2147483647 2147483647
  refine ⟨?_, short, kept short⟩
  have product : (2147483647 : Word).toInt * (2147483647 : Word).toInt = 4611686014132420609 := by decide
  have digits : (4611686014132420609 : Int).natAbs.size - 53 = 9 := by decide
  rw [product, digits] at unique
  have lost : 4611686014132420608 = m := by
    refine (unique _).1 ⟨by decide, fun n multiple => ?_, fun n multiple other tie => ?_⟩
    · have : (4611686014132420609 : Int) - n ≠ 0 := by omega
      exact Int.one_le_abs this
    · rcases abs_eq_abs.1 tie with same | opposite <;> omega
  rw [← Int32.toInt_inj, value, ← lost]
  decide

end Operator

end Retrace
