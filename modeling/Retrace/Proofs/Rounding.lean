import Mathlib.Algebra.Order.Field.Power
import Mathlib.Data.Nat.Size
import Mathlib.Data.Rat.Floor
import Mathlib.Tactic.FieldSimp
import Mathlib.Tactic.Linarith
import Retrace.Binary64

/-!
# Rounding to the binary64 grid

* `roundEven_error`, `roundEven_nearest`, `roundEven_tie` : rounding to an integer is to the nearest
  one, on a tie to the even one;
* `NearestEven` : the same for integers and the multiples of a power of two, in integers only;
* `exponentOf_spec` : the leading power of two of a positive rational;
* `nearest_error`, `nearest_relative_error` : rounding is off by at most half of the last place;
* `nearest_eq_self` : what lies on the grid is not rounded; `nearest_intCast`, `rounded_intCast` : the
  integers up to 2^53; `nearestEven_nearest` : the integers beyond.
-/

namespace Retrace

namespace Binary64

theorem twoPow_eq (e : Int) : twoPow e = (2 : ℚ) ^ e := rfl

theorem floor_eq (q : ℚ) : q.floor = ⌊q⌋ := rfl

theorem abs_eq (q : ℚ) : q.abs = |q| := by
  unfold Rat.abs
  split_ifs with sign
  · exact (abs_of_nonneg sign).symm
  · exact (abs_of_neg (not_le.1 sign)).symm

/-! ## Integers -/

theorem roundEven_intCast (n : Int) : roundEven (n : ℚ) = n := by
  unfold roundEven
  rw [floor_eq, Int.floor_intCast]
  simp

theorem roundEven_error (q : ℚ) : |(roundEven q : ℚ) - q| ≤ 1 / 2 := by
  have low : ((q.floor : Int) : ℚ) ≤ q := Int.floor_le q
  have high : q < (q.floor : Int) + 1 := Int.lt_floor_add_one q
  unfold roundEven
  dsimp only
  rw [abs_le]
  split_ifs <;> push_cast <;> constructor <;> linarith

/-- Of two integers equally near, the even one is taken. -/
theorem roundEven_even {q : ℚ} (tie : |(roundEven q : ℚ) - q| = 1 / 2) : roundEven q % 2 = 0 := by
  have low : ((q.floor : Int) : ℚ) ≤ q := Int.floor_le q
  have high : q < (q.floor : Int) + 1 := Int.lt_floor_add_one q
  unfold roundEven at tie ⊢
  dsimp only at tie ⊢
  split_ifs at tie ⊢ with below above even
  · rw [abs_sub_comm, abs_of_nonneg (by linarith)] at tie
    linarith
  · push_cast at tie
    rw [abs_of_nonneg (by linarith)] at tie
    linarith
  · exact even
  · omega

theorem one_le_abs_intCast_sub {m n : Int} (h : m ≠ n) : (1 : ℚ) ≤ |(m : ℚ) - n| := by
  have : 1 ≤ |m - n| := Int.one_le_abs (sub_ne_zero.2 h)
  exact_mod_cast this

/-- No integer is nearer. -/
theorem roundEven_nearest (q : ℚ) (n : Int) : |q - roundEven q| ≤ |q - n| := by
  by_cases same : n = roundEven q
  · rw [same]
  · have error := roundEven_error q
    rw [abs_sub_comm] at error
    have apart := one_le_abs_intCast_sub same
    have triangle := abs_sub_le (n : ℚ) q (roundEven q)
    rw [abs_sub_comm (n : ℚ) q] at triangle
    linarith

/-- If another integer is as near, the even one of the two is taken. -/
theorem roundEven_tie {q : ℚ} {n : Int} (other : n ≠ roundEven q) (tie : |q - n| = |q - roundEven q|) :
    roundEven q % 2 = 0 := by
  have error := roundEven_error q
  have apart := one_le_abs_intCast_sub other
  have triangle := abs_sub_le (n : ℚ) q (roundEven q)
  rw [abs_sub_comm (n : ℚ) q, tie, abs_sub_comm q] at triangle
  exact roundEven_even (by linarith)

/-! ## Integers on a coarser grid -/

/-- `m` is the multiple of `2 ^ k` nearest to `p`; if two are equally near, it is the one that is an
even multiple. -/
structure NearestEven (k : Nat) (p m : Int) : Prop where
  multiple : 2 ^ k ∣ m
  nearest : ∀ n, 2 ^ k ∣ n → |p - m| ≤ |p - n|
  even : ∀ n, 2 ^ k ∣ n → n ≠ m → |p - n| = |p - m| → 2 ^ (k + 1) ∣ m

theorem NearestEven.eq_of_dvd {k : Nat} {p m : Int} (h : NearestEven k p m) (multiple : 2 ^ k ∣ p) : m = p := by
  have := h.nearest p multiple
  rw [sub_self, abs_zero, abs_nonpos_iff] at this
  omega

theorem NearestEven.unique {k : Nat} {p m n : Int} (first : NearestEven k p m) (second : NearestEven k p n) :
    m = n := by
  by_contra differ
  have tie : |p - m| = |p - n| := le_antisymm (first.nearest n second.multiple) (second.nearest m first.multiple)
  -- both are even multiples with `p` in the middle, so `p` is a multiple itself
  have evenFirst := first.even n second.multiple (Ne.symm differ) tie.symm
  have evenSecond := second.even m first.multiple differ tie
  have middle : m + n = 2 * p := by
    rcases abs_eq_abs.1 tie with same | opposite
    · omega
    · omega
  have double : 2 * 2 ^ k ∣ 2 * p := by
    rw [← middle, ← pow_succ']
    exact dvd_add evenFirst evenSecond
  have multiple : 2 ^ k ∣ p := Int.dvd_of_mul_dvd_mul_left (by norm_num) double
  exact differ ((first.eq_of_dvd multiple).trans (second.eq_of_dvd multiple).symm)

theorem nearestEven_roundEven (k : Nat) (p : Int) : NearestEven k p (roundEven ((p : ℚ) / 2 ^ k) * 2 ^ k) := by
  have unit : (0 : ℚ) < 2 ^ k := by positivity
  have scaled (t : Int) : ((|p - t * 2 ^ k| : Int) : ℚ) = |(p : ℚ) / 2 ^ k - t| * 2 ^ k := by
    push_cast
    rw [← abs_of_pos unit, ← abs_mul, abs_of_pos unit, sub_mul, div_mul_cancel₀ _ unit.ne']
  refine ⟨dvd_mul_left _ _, ?_, ?_⟩
  · rintro _ ⟨t, rfl⟩
    have : ((|p - roundEven ((p : ℚ) / 2 ^ k) * 2 ^ k| : Int) : ℚ) ≤ ((|p - t * 2 ^ k| : Int) : ℚ) := by
      rw [scaled, scaled]
      exact mul_le_mul_of_nonneg_right (roundEven_nearest _ _) unit.le
    rw [mul_comm _ t]
    exact_mod_cast this
  · rintro _ ⟨t, rfl⟩ other tie
    have tieScaled : |(p : ℚ) / 2 ^ k - t| = |(p : ℚ) / 2 ^ k - roundEven ((p : ℚ) / 2 ^ k)| := by
      rw [mul_comm _ t] at tie
      have := congrArg (Int.cast (R := ℚ)) tie
      rw [scaled, scaled] at this
      exact mul_right_cancel₀ unit.ne' this
    have even := roundEven_tie (fun same => other (by rw [same, mul_comm])) tieScaled
    rw [pow_succ']
    exact mul_dvd_mul_right (Int.dvd_of_emod_eq_zero even) _

/-! ## Leading powers -/

/-- A positive natural number lies between its leading power of two and the next one. -/
theorem log2_spec {n : Nat} (h : n ≠ 0) :
    (2 : ℚ) ^ (n.log2 : Int) ≤ n ∧ (n : ℚ) < (2 : ℚ) ^ ((n.log2 : Int) + 1) := by
  constructor
  · exact_mod_cast Nat.log2_self_le h
  · exact_mod_cast Nat.lt_log2_self

theorem exponentOf_spec {q : ℚ} (positive : 0 < q) :
    (2 : ℚ) ^ exponentOf q ≤ q ∧ q < (2 : ℚ) ^ (exponentOf q + 1) := by
  have two : (2 : ℚ) ≠ 0 := by norm_num
  have num : 0 < q.num := Rat.num_pos.2 positive
  have den : (0 : ℚ) < q.den := by exact_mod_cast q.den_pos
  have value : (q.num.natAbs : ℚ) / (q.den : ℚ) = q := by
    have : ((q.num.natAbs : Int) : ℚ) = q.num := by rw [Int.natAbs_of_nonneg num.le]
    rw [← Int.cast_natCast, this, Rat.num_div_den]
  obtain ⟨numLow, numHigh⟩ := log2_spec (n := q.num.natAbs) (by omega)
  obtain ⟨denLow, denHigh⟩ := log2_spec q.den_nz
  have low : (2 : ℚ) ^ ((q.num.natAbs.log2 : Int) - q.den.log2 - 1) ≤ q := by
    refine le_trans ((le_div_iff₀ den).2 ?_) value.le
    calc (2 : ℚ) ^ ((q.num.natAbs.log2 : Int) - q.den.log2 - 1) * q.den
        ≤ (2 : ℚ) ^ ((q.num.natAbs.log2 : Int) - q.den.log2 - 1) * (2 : ℚ) ^ ((q.den.log2 : Int) + 1) := by
          gcongr
      _ = (2 : ℚ) ^ (q.num.natAbs.log2 : Int) := by
          rw [← zpow_add₀ two]
          congr 1
          omega
      _ ≤ q.num.natAbs := numLow
  have high : q < (2 : ℚ) ^ ((q.num.natAbs.log2 : Int) - q.den.log2 + 1) := by
    refine value.ge.trans_lt ((div_lt_iff₀ den).2 ?_)
    calc (q.num.natAbs : ℚ) < (2 : ℚ) ^ ((q.num.natAbs.log2 : Int) + 1) := numHigh
      _ = (2 : ℚ) ^ ((q.num.natAbs.log2 : Int) - q.den.log2 + 1) * (2 : ℚ) ^ (q.den.log2 : Int) := by
          rw [← zpow_add₀ two]
          congr 1
          omega
      _ ≤ (2 : ℚ) ^ ((q.num.natAbs.log2 : Int) - q.den.log2 + 1) * q.den := by
          gcongr
  unfold exponentOf
  dsimp only
  rw [twoPow_eq]
  split_ifs with reached
  · exact ⟨reached, high⟩
  · refine ⟨low, ?_⟩
    rw [Int.sub_add_cancel]
    exact not_le.1 reached

theorem exponentOf_lt {q : ℚ} (positive : 0 < q) {e : Int} (h : q < (2 : ℚ) ^ e) : exponentOf q < e :=
  (zpow_lt_zpow_iff_right₀ (by norm_num)).1 ((exponentOf_spec positive).1.trans_lt h)

theorem le_exponentOf {q : ℚ} (positive : 0 < q) {e : Int} (h : (2 : ℚ) ^ e ≤ q) : e ≤ exponentOf q :=
  Int.lt_add_one_iff.1
    ((zpow_lt_zpow_iff_right₀ (by norm_num)).1 (h.trans_lt (exponentOf_spec positive).2))

/-! ## The grid -/

theorem nearest_error (q : ℚ) : |nearest q - q| ≤ (2 : ℚ) ^ lastPlace q / 2 := by
  have place : (0 : ℚ) < (2 : ℚ) ^ lastPlace q := by positivity
  unfold nearest
  rw [twoPow_eq]
  split_ifs with zero
  · rw [zero, sub_self, abs_zero]
    positivity
  · have error := roundEven_error (q / (2 : ℚ) ^ lastPlace q)
    calc |(roundEven (q / (2 : ℚ) ^ lastPlace q) : ℚ) * (2 : ℚ) ^ lastPlace q - q|
        = |(roundEven (q / (2 : ℚ) ^ lastPlace q) : ℚ) - q / (2 : ℚ) ^ lastPlace q| * (2 : ℚ) ^ lastPlace q := by
          rw [← abs_of_pos place, ← abs_mul, abs_of_pos place, sub_mul, div_mul_cancel₀ _ place.ne']
      _ ≤ 1 / 2 * (2 : ℚ) ^ lastPlace q := by gcongr
      _ = (2 : ℚ) ^ lastPlace q / 2 := by ring

/-- A multiple of a power of two with at most 53 digits is a value of the format. -/
theorem nearest_eq_self {m e : Int} (digits : |m| < 2 ^ 53) (least : -1074 ≤ e) :
    nearest (m * (2 : ℚ) ^ e) = m * (2 : ℚ) ^ e := by
  have two : (2 : ℚ) ≠ 0 := by norm_num
  unfold nearest
  rw [twoPow_eq]
  split_ifs with zero
  · exact zero.symm
  · have positive : 0 < |(m : ℚ) * (2 : ℚ) ^ e| := abs_pos.2 zero
    have bound : |(m : ℚ) * (2 : ℚ) ^ e| < (2 : ℚ) ^ (53 + e) := by
      rw [abs_mul, abs_of_pos (show (0 : ℚ) < (2 : ℚ) ^ e by positivity), zpow_add₀ two]
      have : |(m : ℚ)| < (2 : ℚ) ^ (53 : Int) := by exact_mod_cast digits
      gcongr
    have place : lastPlace (m * (2 : ℚ) ^ e) ≤ e := by
      have := exponentOf_lt positive bound
      unfold lastPlace
      rw [abs_eq]
      omega
    -- so the quotient by the last place is an integer
    have whole : (m : ℚ) * (2 : ℚ) ^ e / (2 : ℚ) ^ lastPlace (m * (2 : ℚ) ^ e) =
        ((m * 2 ^ (e - lastPlace (m * (2 : ℚ) ^ e)).toNat : Int) : ℚ) := by
      rw [mul_div_assoc, ← zpow_sub₀ two, Int.cast_mul, Int.cast_pow, Int.cast_ofNat, ← zpow_natCast,
        Int.toNat_of_nonneg (by omega)]
    rw [whole, roundEven_intCast, ← whole, div_mul_cancel₀ _ (by positivity)]

/-- Such a multiple is not rounded, unless it is too large for the format. -/
theorem rounded_eq_self {m e : Int} (digits : |m| < 2 ^ 53) (least : -1074 ≤ e) (most : e ≤ 971) :
    rounded (m * (2 : ℚ) ^ e) = .finite (m * (2 : ℚ) ^ e) := by
  have bound : |(m : ℚ) * (2 : ℚ) ^ e| < (2 : ℚ) ^ (1024 : Int) := by
    have significand : |(m : ℚ)| < (2 : ℚ) ^ (53 : Int) := by exact_mod_cast digits
    calc |(m : ℚ) * (2 : ℚ) ^ e| = |(m : ℚ)| * (2 : ℚ) ^ e := by
          rw [abs_mul, abs_of_pos (show (0 : ℚ) < (2 : ℚ) ^ e by positivity)]
      _ < (2 : ℚ) ^ (53 : Int) * (2 : ℚ) ^ e := by gcongr
      _ ≤ (2 : ℚ) ^ (53 : Int) * (2 : ℚ) ^ (971 : Int) := by
          gcongr
          norm_num
      _ = (2 : ℚ) ^ (1024 : Int) := by rw [← zpow_add₀ (by norm_num)]; norm_num
  unfold rounded
  rw [nearest_eq_self digits least, abs_eq, twoPow_eq, if_pos bound]

theorem nearest_intCast {n : Int} (h : |n| < 2 ^ 53) : nearest (n : ℚ) = n := by
  simpa using nearest_eq_self h (e := 0) (by norm_num)

theorem rounded_intCast {n : Int} (h : |n| < 2 ^ 53) : rounded (n : ℚ) = .finite n := by
  simpa using rounded_eq_self h (e := 0) (by norm_num) (by norm_num)

/-- Above the subnormal values rounding is off by at most one part in 2^53. -/
theorem nearest_relative_error {q : ℚ} (normal : (2 : ℚ) ^ (-1022 : Int) ≤ |q|) :
    |nearest q - q| ≤ |q| * (2 : ℚ) ^ (-53 : Int) := by
  have positive : 0 < |q| := lt_of_lt_of_le (by positivity) normal
  have place : lastPlace q = exponentOf |q| + -53 + 1 := by
    have := le_exponentOf positive normal
    unfold lastPlace
    rw [abs_eq]
    omega
  calc |nearest q - q| ≤ (2 : ℚ) ^ lastPlace q / 2 := nearest_error q
    _ = (2 : ℚ) ^ exponentOf |q| * (2 : ℚ) ^ (-53 : Int) := by
        rw [place, zpow_add_one₀ (by norm_num), mul_div_cancel_right₀ _ (by norm_num), zpow_add₀ (by norm_num)]
    _ ≤ |q| * (2 : ℚ) ^ (-53 : Int) := by
        gcongr
        exact (exponentOf_spec positive).1

/-- Far below the greatest value of the format nothing overflows. -/
theorem rounded_eq_nearest {q : ℚ} (h : |q| < (2 : ℚ) ^ (64 : Int)) : rounded q = .finite (nearest q) := by
  have place : lastPlace q ≤ 64 ∨ q = 0 := by
    by_cases zero : q = 0
    · exact .inr zero
    · have := exponentOf_lt (abs_pos.2 zero) h
      unfold lastPlace
      rw [abs_eq]
      omega
  have bound : |nearest q| < (2 : ℚ) ^ (1024 : Int) := by
    rcases place with place | rfl
    · have unit : (2 : ℚ) ^ lastPlace q ≤ (2 : ℚ) ^ (64 : Int) := zpow_le_zpow_right₀ (by norm_num) place
      calc |nearest q| ≤ |nearest q - q| + |q| := by simpa using abs_add_le (nearest q - q) q
        _ < (2 : ℚ) ^ (64 : Int) + (2 : ℚ) ^ (64 : Int) := by
            refine add_lt_add_of_le_of_lt ((nearest_error q).trans ?_) h
            exact (half_le_self (by positivity)).trans unit
        _ = (2 : ℚ) ^ (65 : Int) := by norm_num
        _ ≤ (2 : ℚ) ^ (1024 : Int) := zpow_le_zpow_right₀ (by norm_num) (by norm_num)
    · simp [nearest]
  unfold rounded
  rw [abs_eq, twoPow_eq, if_pos bound]

/-- An integer with more than 53 digits loses the others, the last kept one rounded to nearest, a tie
to even. -/
theorem nearestEven_nearest (p : Int) : ∃ m : Int, nearest (p : ℚ) = m ∧ NearestEven (p.natAbs.size - 53) p m := by
  by_cases short : p.natAbs.size ≤ 53
  · refine ⟨p, nearest_intCast ?_, ?_⟩
    · rw [Int.abs_eq_natAbs]
      exact_mod_cast Nat.size_le.1 short
    · rw [Nat.sub_eq_zero_of_le short]
      simpa [roundEven_intCast] using nearestEven_roundEven 0 p
  · have nonzero : p ≠ 0 := by
      rintro rfl
      simp at short
    have positive : 0 < |(p : ℚ)| := abs_pos.2 (by exact_mod_cast nonzero)
    have magnitude : ((p.natAbs : Nat) : ℚ) = |(p : ℚ)| := by rw [Nat.cast_natAbs, Int.cast_abs]
    have low : (2 : ℚ) ^ ((p.natAbs.size : Int) - 1) ≤ |(p : ℚ)| := by
      have : 2 ^ (p.natAbs.size - 1) ≤ p.natAbs := Nat.lt_size.1 (by omega)
      rw [← magnitude, show (p.natAbs.size : Int) - 1 = (p.natAbs.size - 1 : Nat) by omega, zpow_natCast]
      exact_mod_cast this
    have high : |(p : ℚ)| < (2 : ℚ) ^ (p.natAbs.size : Int) := by
      have : p.natAbs < 2 ^ p.natAbs.size := Nat.size_le.1 le_rfl
      rw [← magnitude, zpow_natCast]
      exact_mod_cast this
    have place : lastPlace (p : ℚ) = (p.natAbs.size - 53 : Nat) := by
      have := exponentOf_lt positive high
      have := le_exponentOf positive low
      unfold lastPlace
      rw [abs_eq]
      omega
    refine ⟨_, ?_, nearestEven_roundEven (p.natAbs.size - 53) p⟩
    unfold nearest
    rw [if_neg (by exact_mod_cast nonzero), place, twoPow_eq, zpow_natCast]
    push_cast
    rfl

end Binary64

end Retrace
