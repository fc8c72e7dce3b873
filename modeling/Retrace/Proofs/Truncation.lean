import Mathlib.Data.Int.ModEq
import Retrace.Proofs.Rounding

/-!
# Truncation to words

* `integerPart_eq_tdiv`, `integerPart_div` : the integer part of a quotient; `excess_intCast` : the remainder;
* `rounded_integerPart` : the integer part of a value of the format is one too;
* `toInt_truncate_finite` : a finite value gives the word of its integer part modulo 2^32;
* `encoded` : the rational value of a 64-bit pattern; `ofBits_of_finite`, `exists_encoded`;
* `truncate_exact` : truncation of every pattern, no step of which rounds or saturates.
-/

namespace Retrace

namespace Binary64

/-! ## Integer parts -/

theorem integerPart_div_natCast (a : Int) (d : Nat) : integerPart ((a : ℚ) / (d : ℚ)) = a.tdiv d := by
  unfold integerPart
  rw [floor_eq, floor_eq]
  split_ifs with negative
  · have sign : a < 0 := by
      by_contra nonneg
      have : (0 : ℚ) ≤ (a : ℚ) / (d : ℚ) := by
        have : (0 : ℚ) ≤ a := by exact_mod_cast not_lt.1 nonneg
        positivity
      exact absurd negative (not_lt.2 this)
    have opposite : -((a : ℚ) / (d : ℚ)) = ((-a : Int) : ℚ) / (d : ℚ) := by
      push_cast
      ring
    rw [opposite, Rat.floor_intCast_div_natCast, ← Int.tdiv_eq_ediv_of_nonneg (by omega), Int.neg_tdiv, Int.neg_neg]
  · rw [Rat.floor_intCast_div_natCast]
    by_cases sign : 0 ≤ a
    · exact (Int.tdiv_eq_ediv_of_nonneg sign).symm
    · -- only a quotient by zero of a negative number is not negative
      have zero : d = 0 := by
        by_contra positive
        apply negative
        have : (a : ℚ) < 0 := by exact_mod_cast not_le.1 sign
        have : (0 : ℚ) < d := by exact_mod_cast Nat.pos_of_ne_zero positive
        exact div_neg_of_neg_of_pos ‹_› ‹_›
      subst zero
      simp

/-- The integer part is the quotient of numerator and denominator, toward zero. -/
theorem integerPart_eq_tdiv (q : ℚ) : integerPart q = q.num.tdiv q.den := by
  rw [← integerPart_div_natCast, Rat.num_div_den]

theorem integerPart_div (a b : Int) : integerPart ((a : ℚ) / (b : ℚ)) = a.tdiv b := by
  obtain ⟨d, rfl | rfl⟩ := b.eq_nat_or_neg
  · exact_mod_cast integerPart_div_natCast a d
  · have opposite : (a : ℚ) / ((-(d : Int) : Int) : ℚ) = ((-a : Int) : ℚ) / (d : ℚ) := by
      push_cast
      rw [div_neg, neg_div]
    rw [opposite, integerPart_div_natCast, Int.neg_tdiv, Int.tdiv_neg]

theorem integerPart_intCast (n : Int) : integerPart (n : ℚ) = n := by
  simpa using integerPart_div n 1

theorem excess_intCast (a b : Int) : excess (a : ℚ) (b : ℚ) = ((a.tmod b : Int) : ℚ) := by
  unfold excess
  rw [integerPart_div, Int.tmod_def]
  push_cast
  ring

theorem abs_integerPart_le (q : ℚ) : |(integerPart q : ℚ)| ≤ |q| := by
  unfold integerPart
  rw [floor_eq, floor_eq]
  split_ifs with negative
  · have part : (0 : ℚ) ≤ ⌊-q⌋ := by exact_mod_cast Int.floor_nonneg.2 (by linarith)
    rw [Int.cast_neg, abs_neg, abs_of_nonneg part, abs_of_neg negative]
    exact Int.floor_le _
  · have part : (0 : ℚ) ≤ ⌊q⌋ := by exact_mod_cast Int.floor_nonneg.2 (not_lt.1 negative)
    rw [abs_of_nonneg part, abs_of_nonneg (not_lt.1 negative)]
    exact Int.floor_le _

/-- The integer part of a value of the format is a value of the format. -/
theorem rounded_integerPart {m e : Int} (digits : |m| < 2 ^ 53) (least : -1074 ≤ e) (most : e ≤ 971) :
    rounded (integerPart (m * (2 : ℚ) ^ e)) = .finite (integerPart (m * (2 : ℚ) ^ e)) := by
  by_cases whole : 0 ≤ e
  · have integer : (m : ℚ) * (2 : ℚ) ^ e = ((m * 2 ^ e.toNat : Int) : ℚ) := by
      rw [Int.cast_mul, Int.cast_pow, Int.cast_ofNat, ← zpow_natCast, Int.toNat_of_nonneg whole]
    have same : ((integerPart (m * (2 : ℚ) ^ e) : Int) : ℚ) = m * (2 : ℚ) ^ e := by
      rw [integer, integerPart_intCast]
    rw [same]
    exact rounded_eq_self digits least most
  · -- below its integer digits the value has only a fraction, so the integer part is short
    apply rounded_intCast
    have below : |(m : ℚ) * (2 : ℚ) ^ e| ≤ |(m : ℚ)| := by
      rw [abs_mul, abs_of_pos (show (0 : ℚ) < (2 : ℚ) ^ e by positivity)]
      exact mul_le_of_le_one_right (abs_nonneg _) (zpow_le_one_of_nonpos₀ (by norm_num) (by omega))
    have : |integerPart (m * (2 : ℚ) ^ e)| ≤ |m| := by
      exact_mod_cast (abs_integerPart_le _).trans below
    omega

/-! ## The steps, in exact arithmetic -/

/-- What is left of the integer part after whole multiples of 2^32, with the sign of `q`. -/
def remainderOf (q : ℚ) : ℚ := excess (integerPart q) 4294967296

/-- The residue modulo 2^32 that is not negative. -/
def residueOf (q : ℚ) : ℚ :=
  if remainderOf q < 0 then remainderOf q + 4294967296 else remainderOf q

/-- The residue modulo 2^32 in the range of words. -/
def signedOf (q : ℚ) : ℚ :=
  if 2147483648 ≤ residueOf q then residueOf q - 4294967296 else residueOf q

theorem remainderOf_eq (q : ℚ) : remainderOf q = (((integerPart q).tmod 4294967296 : Int) : ℚ) := by
  unfold remainderOf
  exact_mod_cast excess_intCast (integerPart q) 4294967296

theorem residueOf_eq (q : ℚ) : residueOf q = ((integerPart q % 4294967296 : Int) : ℚ) := by
  have cases := Int.tmod_eq_emod (a := integerPart q) (b := 4294967296)
  unfold residueOf
  rw [remainderOf_eq]
  split_ifs with negative
  · have sign : (integerPart q).tmod 4294967296 < 0 := by exact_mod_cast negative
    have residue : (integerPart q).tmod 4294967296 + 4294967296 = integerPart q % 4294967296 := by
      split_ifs at cases <;> omega
    exact_mod_cast congrArg (Int.cast (R := ℚ)) residue
  · have sign : ¬ (integerPart q).tmod 4294967296 < 0 := by exact_mod_cast negative
    have residue : (integerPart q).tmod 4294967296 = integerPart q % 4294967296 := by
      split_ifs at cases <;> omega
    rw [residue]

theorem signedOf_eq (q : ℚ) : signedOf q = (((integerPart q).bmod 4294967296 : Int) : ℚ) := by
  unfold signedOf
  rw [residueOf_eq, Int.bmod_def]
  split_ifs with upper lower lower
  · have : 2147483648 ≤ integerPart q % 4294967296 := by exact_mod_cast upper
    omega
  · push_cast
    rfl
  · rfl
  · have : ¬ 2147483648 ≤ integerPart q % 4294967296 := by exact_mod_cast upper
    omega

/-- Adding 2^32 to a remainder and taking it off a residue again rounds nothing. -/
theorem truncate_eq_clamp (q : ℚ) : truncate (.finite q) = clamp (signedOf q) := by
  have residue : (if remainderOf q < 0 then nearest (remainderOf q + 4294967296) else remainderOf q) = residueOf q := by
    have exact : nearest (residueOf q) = residueOf q := by
      rw [residueOf_eq]
      exact nearest_intCast (by rw [abs_lt]; omega)
    unfold residueOf at exact ⊢
    split_ifs at exact ⊢ with negative
    · exact exact
    · rfl
  have signed : (if 2147483648 ≤ residueOf q then clamp (nearest (residueOf q - 4294967296))
      else clamp (residueOf q)) = clamp (signedOf q) := by
    have exact : nearest (signedOf q) = signedOf q := by
      have low := Int.le_bmod (x := integerPart q) (m := 4294967296) (by norm_num)
      have high := Int.bmod_lt (x := integerPart q) (m := 4294967296) (by norm_num)
      rw [signedOf_eq]
      exact nearest_intCast (by rw [abs_lt]; omega)
    unfold signedOf at exact ⊢
    split_ifs at exact ⊢ with upper
    · rw [exact]
    · rfl
  rw [← signed, ← residue]
  rfl

theorem toInt_clamp {n : Int} (low : -2147483648 ≤ n) (high : n ≤ 2147483647) : (clamp (n : ℚ)).toInt = n := by
  unfold clamp
  rw [integerPart_intCast]
  exact Int32.toInt_ofIntClamp low high

/-- A finite value gives its integer part modulo 2^32. -/
theorem toInt_truncate_finite (q : ℚ) : (truncate (.finite q)).toInt = (integerPart q).bmod 4294967296 := by
  have low := Int.le_bmod (x := integerPart q) (m := 4294967296) (by norm_num)
  have high := Int.bmod_lt (x := integerPart q) (m := 4294967296) (by norm_num)
  rw [truncate_eq_clamp, signedOf_eq]
  exact toInt_clamp (by omega) (by omega)

/-! ## Patterns -/

/-- The leading bit of a pattern. -/
def negativeBit (bits : UInt64) : Bool := bits.toBitVec.msb

/-- The eleven bits behind the sign. -/
def exponentField (bits : UInt64) : Nat := (bits.toBitVec.extractLsb' 52 11).toNat

/-- The last 52 bits. -/
def fractionField (bits : UInt64) : Nat := (bits.toBitVec.extractLsb' 0 52).toNat

/-- The value of a pattern whose exponent is not all ones: a sign, a power of two, and a significand
that has a leading one unless the exponent is zero. -/
def encoded (bits : UInt64) : ℚ :=
  (if negativeBit bits then -1 else 1) *
    if exponentField bits = 0 then (fractionField bits / 2 ^ 52) * (2 : ℚ) ^ (-1022 : Int)
    else (1 + fractionField bits / 2 ^ 52) * (2 : ℚ) ^ ((exponentField bits : Int) - 1023)

theorem negativeBit_eq (bits : UInt64) : negativeBit bits = decide (9223372036854775808 ≤ bits.toNat) := by
  rw [negativeBit, BitVec.msb_eq_decide]
  rfl

theorem exponentField_eq (bits : UInt64) : exponentField bits = bits.toNat / 4503599627370496 % 2048 := by
  rw [exponentField, BitVec.extractLsb'_toNat, Nat.shiftRight_eq_div_pow]
  rfl

theorem fractionField_eq (bits : UInt64) : fractionField bits = bits.toNat % 4503599627370496 := by
  rw [fractionField, BitVec.extractLsb'_toNat, Nat.shiftRight_zero]
  rfl

/-- The value of a pattern without its sign: a significand without a fraction, and the power of two
of its last place. -/
def magnitude (bits : UInt64) : ℚ :=
  if exponentField bits = 0 then (fractionField bits : ℚ) * (2 : ℚ) ^ (-1074 : Int)
  else ((4503599627370496 + fractionField bits : Nat) : ℚ) * (2 : ℚ) ^ ((exponentField bits : Int) - 1075)

theorem encoded_eq (bits : UInt64) : encoded bits = (if negativeBit bits then -1 else 1) * magnitude bits := by
  have place (e : Int) : (2 : ℚ) ^ e = (2 : ℚ) ^ (52 : Nat) * (2 : ℚ) ^ (e - 52) := by
    rw [← zpow_natCast, ← zpow_add₀ (by norm_num)]
    congr 1
    omega
  have power : (4503599627370496 : ℚ) = 2 ^ 52 := by norm_num
  unfold encoded magnitude
  congr 1
  split_ifs with subnormal
  · rw [place (-1022), ← mul_assoc, div_mul_cancel₀ _ (by positivity)]
    rfl
  · rw [place, ← mul_assoc, add_mul, div_mul_cancel₀ _ (by positivity), one_mul, Int.sub_sub]
    push_cast
    rw [power]

theorem ofBits_of_finite {bits : UInt64} (h : exponentField bits ≠ 2047) :
    ofBits bits = .finite (encoded bits) := by
  have signed : ofBits bits = .finite (if negativeBit bits then -magnitude bits else magnitude bits) := by
    unfold ofBits magnitude
    simp only [← exponentField_eq, ← fractionField_eq, twoPow_eq, negativeBit_eq, h, if_false, decide_eq_true_eq]
  rw [signed, encoded_eq]
  split_ifs <;> simp

/-- A finite pattern is a multiple of a power of two that the format has. -/
theorem exists_encoded {bits : UInt64} (h : exponentField bits ≠ 2047) :
    ∃ m e : Int, |m| < 2 ^ 53 ∧ -1074 ≤ e ∧ e ≤ 971 ∧ encoded bits = m * (2 : ℚ) ^ e := by
  have exponent : exponentField bits < 2048 := by
    rw [exponentField_eq]
    exact Nat.mod_lt _ (by norm_num)
  have fraction : fractionField bits < 4503599627370496 := by
    rw [fractionField_eq]
    exact Nat.mod_lt _ (by norm_num)
  have signed {m : Nat} {e : Int} (digits : m < 2 ^ 53) (least : -1074 ≤ e) (most : e ≤ 971) :
      ∃ m' e' : Int, |m'| < 2 ^ 53 ∧ -1074 ≤ e' ∧ e' ≤ 971 ∧
        (if negativeBit bits then -1 else 1) * ((m : ℚ) * (2 : ℚ) ^ e) = m' * (2 : ℚ) ^ e' := by
    split_ifs
    · exact ⟨-m, e, by rw [abs_neg]; exact_mod_cast digits, least, most, by push_cast; ring⟩
    · exact ⟨m, e, by exact_mod_cast digits, least, most, by push_cast; ring⟩
  rw [encoded_eq, magnitude]
  by_cases subnormal : exponentField bits = 0
  · rw [if_pos subnormal]
    exact signed (by omega) (by norm_num) (by norm_num)
  · rw [if_neg subnormal]
    exact signed (by omega) (by omega) (by omega)

theorem ofBits_of_not_finite {bits : UInt64} (h : exponentField bits = 2047) :
    ofBits bits = if fractionField bits = 0 then .infinite (negativeBit bits) else .nan := by
  unfold ofBits
  simp only [← exponentField_eq, ← fractionField_eq, negativeBit_eq, h, if_true]

/-! ## Exact truncation -/

/-- No operation on the way from `r` to the word `w` rounds, and the last value is `w` itself, so
that taking it as a word does not saturate. -/
structure ExactSteps (r : ℚ) (w : Word) : Prop where
  part : rounded (integerPart r) = .finite (integerPart r)
  remainder : rounded (remainderOf r) = .finite (remainderOf r)
  sum : sum (remainderOf r) 4294967296 = .finite (remainderOf r + 4294967296)
  difference : difference (residueOf r) 4294967296 = .finite (residueOf r - 4294967296)
  word : clamp (signedOf r) = w ∧ signedOf r = w.toInt

theorem exactSteps {m e : Int} (digits : |m| < 2 ^ 53) (least : -1074 ≤ e) (most : e ≤ 971) :
    ExactSteps (m * (2 : ℚ) ^ e) (truncate (.finite (m * (2 : ℚ) ^ e))) := by
  generalize value : (m : ℚ) * (2 : ℚ) ^ e = r
  have left := Int.tmod_eq_emod (a := integerPart r) (b := 4294967296)
  refine ⟨?_, ?_, ?_, ?_, (truncate_eq_clamp r).symm, ?_⟩
  · rw [← value]
    exact rounded_integerPart digits least most
  · rw [remainderOf_eq]
    exact rounded_intCast (by rw [abs_lt]; split_ifs at left <;> omega)
  · rw [remainderOf_eq, Binary64.sum]
    have bound : |(integerPart r).tmod 4294967296 + 4294967296| < 2 ^ 53 := by
      rw [abs_lt]
      split_ifs at left <;> omega
    exact_mod_cast rounded_intCast bound
  · rw [residueOf_eq, Binary64.difference]
    have bound : |integerPart r % 4294967296 - 4294967296| < 2 ^ 53 := by
      rw [abs_lt]
      omega
    exact_mod_cast rounded_intCast bound
  · rw [toInt_truncate_finite, signedOf_eq]

/-- The balanced residue is the only member of its class in the range of words. -/
theorem eq_bmod_iff (n whole : Int) :
    n = whole.bmod 4294967296 ↔ -2 ^ 31 ≤ n ∧ n < 2 ^ 31 ∧ n ≡ whole [ZMOD 2 ^ 32] := by
  unfold Int.ModEq
  rw [Int.bmod_def]
  split_ifs <;> omega

/-- **Truncation is exact.** A pattern with the greatest exponent is an infinity or no number, and
gives zero. Any other gives the only word congruent modulo 2^32 to its value without the fraction,
and no operation on the way rounds or saturates. -/
theorem truncate_exact (bits : UInt64) :
    (exponentField bits = 2047 →
      ofBits bits = (if fractionField bits = 0 then .infinite (negativeBit bits) else .nan) ∧
      truncate (ofBits bits) = 0) ∧
    (exponentField bits ≠ 2047 →
      ofBits bits = .finite (encoded bits) ∧
      (∀ n : Int, n = (truncate (ofBits bits)).toInt ↔
        -2 ^ 31 ≤ n ∧ n < 2 ^ 31 ∧ n ≡ (encoded bits).num.tdiv (encoded bits).den [ZMOD 2 ^ 32]) ∧
      ExactSteps (encoded bits) (truncate (ofBits bits))) := by
  constructor
  · intro special
    refine ⟨ofBits_of_not_finite special, ?_⟩
    rw [ofBits_of_not_finite special]
    split_ifs <;> rfl
  · intro finite
    obtain ⟨m, e, digits, least, most, value⟩ := exists_encoded finite
    refine ⟨ofBits_of_finite finite, fun n => ?_, ?_⟩
    · rw [ofBits_of_finite finite, toInt_truncate_finite, integerPart_eq_tdiv]
      exact eq_bmod_iff _ _
    · rw [ofBits_of_finite finite, value]
      exact exactSteps digits least most

/-- The negative infinity gives zero, and one below the least word comes back as the greatest. -/
theorem truncate_exact_below_least :
    (exponentField 0xFFF0000000000000 = 2047 ∧ truncate (ofBits 0xFFF0000000000000) = 0) ∧
    exponentField 0xC1E0000000200000 ≠ 2047 ∧ encoded 0xC1E0000000200000 = -2147483649 ∧
      (truncate (ofBits 0xC1E0000000200000)).toInt = 2147483647 := by
  have infinite : exponentField 0xFFF0000000000000 = 2047 := by decide
  have finite : exponentField 0xC1E0000000200000 ≠ 2047 := by decide
  have value : encoded 0xC1E0000000200000 = -2147483649 := by
    have sign : negativeBit 0xC1E0000000200000 = true := by decide
    have exponent : exponentField 0xC1E0000000200000 = 1054 := by decide
    have fraction : fractionField 0xC1E0000000200000 = 2097152 := by decide
    unfold encoded
    rw [sign, exponent, fraction]
    norm_num
  refine ⟨⟨infinite, ((truncate_exact 0xFFF0000000000000).1 infinite).2⟩, finite, value, ?_⟩
  obtain ⟨-, residue, -⟩ := (truncate_exact 0xC1E0000000200000).2 finite
  refine ((residue 2147483647).2 ⟨by norm_num, by norm_num, ?_⟩).symm
  rw [value]
  decide

end Binary64

end Retrace
