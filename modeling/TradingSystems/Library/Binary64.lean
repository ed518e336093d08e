import TradingSystems.Library.Binary32

/- Rounding to a double, ties to even, with gradual underflow, and how far a double is from
   the number that it was rounded from. Exponents are unbounded above, as for singles. -/
namespace Binary64
open Decimal Binary32

/-- The least distance of two doubles is 2 ^ -1074. -/
def binary64 (q : ℚ) : ℚ :=
  let unit := 2 ^ max (exponent q - 52) (-1074)
  roundHalfEven (q / unit) * unit

/-- Half the distance of two neighbours, for a number of size 1. -/
def roundoff : ℚ := 2 ^ (-53 : Int)

def halfLeast : ℚ := 2 ^ (-1075 : Int)

section Rounding
variable {q : ℚ}

theorem roundoff_pos : 0 < roundoff := zpow_pos (by norm_num) _

theorem half_least_pos : 0 < halfLeast := zpow_pos (by norm_num) _

theorem half_power (e : Int) : (2 : ℚ) ^ e / 2 = 2 ^ (e - 1) := by
  rw [zpow_sub_one₀ (by norm_num), div_eq_mul_inv]

theorem binary64_zero : binary64 0 = 0 := by
  have rounded := round_half_even_int 0
  rw [Int.cast_zero] at rounded
  rw [binary64, zero_div, rounded, Int.cast_zero, zero_mul]

theorem half_unit_le (nonzero : q ≠ 0) :
    (2 : ℚ) ^ max (exponent q - 52) (-1074) / 2 ≤ roundoff * |q| + halfLeast := by
  have positive := abs_pos.mpr nonzero
  rcases max_cases (exponent q - 52) (-1074) with ⟨same, -⟩ | ⟨same, -⟩
  · have low := (exponent_bounds positive).1
    rw [exponent, abs_abs, ← exponent] at low
    have scaled := mul_le_mul_of_nonneg_left low roundoff_pos.le
    rw [same, half_power]
    calc (2 : ℚ) ^ (exponent q - 52 - 1) = roundoff * 2 ^ exponent q := by
          rw [roundoff, ← zpow_add₀ (by norm_num)]
          congr 1
          omega
      _ ≤ roundoff * |q| := scaled
      _ ≤ roundoff * |q| + halfLeast := le_add_of_nonneg_right half_least_pos.le
  · have same : (2 : ℚ) ^ max (exponent q - 52) (-1074) / 2 = halfLeast := by
      rw [same, half_power]
      rfl
    rw [same]
    exact le_add_of_nonneg_left (mul_nonneg roundoff_pos.le positive.le)

theorem binary64_near (q : ℚ) : |binary64 q - q| ≤ roundoff * |q| + halfLeast := by
  rcases eq_or_ne q 0 with zero | nonzero
  · rw [zero, binary64_zero, sub_zero, abs_zero, mul_zero, zero_add]
    exact half_least_pos.le
  · have unit_pos : (0 : ℚ) < 2 ^ max (exponent q - 52) (-1074) := zpow_pos (by norm_num) _
    have near := round_half_even_near (q / 2 ^ max (exponent q - 52) (-1074))
    have scaled := mul_le_mul_of_nonneg_right near unit_pos.le
    rw [← abs_of_pos unit_pos, ← abs_mul, abs_of_pos unit_pos, sub_mul,
      div_mul_cancel₀ _ unit_pos.ne'] at scaled
    have half := half_unit_le nonzero
    unfold binary64
    linarith

theorem half_least_le : halfLeast ≤ roundoff := zpow_le_zpow_right₀ (by norm_num) (by decide)

theorem binary64_close (q : ℚ) : |binary64 q - q| ≤ (|q| + 1) / 10 ^ 15 := by
  have bits : roundoff ≤ 1 / 10 ^ 15 := by
    norm_num [roundoff]
  have scaled := mul_le_mul_of_nonneg_right bits (abs_nonneg q)
  have near := binary64_near q
  have least := half_least_le
  linarith

theorem binary64_le (nonneg : 0 ≤ q) : binary64 q ≤ q + (q + 1) / 1000 := by
  have near := (abs_le.mp (binary64_close q)).2
  rw [abs_of_nonneg nonneg] at near
  linarith

theorem binary64_abs_le (q : ℚ) : |binary64 q| ≤ 2 * |q| + 1 := by
  have near := binary64_close q
  have apart := abs_sub_abs_le_abs_sub (binary64 q) q
  have positive := abs_nonneg q
  linarith

theorem binary64_nonneg (nonneg : 0 ≤ q) : 0 ≤ binary64 q := by
  have unit_pos : (0 : ℚ) < 2 ^ max (exponent q - 52) (-1074) := zpow_pos (by norm_num) _
  have rounded : 0 ≤ roundHalfEven (q / 2 ^ max (exponent q - 52) (-1074)) :=
    le_round_half_even (by simpa using div_nonneg nonneg unit_pos.le)
  exact mul_nonneg (by exact_mod_cast rounded) unit_pos.le

theorem binary64_int {n : Int} (small : |n| < 2 ^ 53) : binary64 n = n := by
  rcases eq_or_ne n 0 with zero | nonzero
  · rw [zero, Int.cast_zero, binary64_zero]
  · have fine : exponent (n : ℚ) ≤ 52 :=
      exponent_le (by exact_mod_cast nonzero) (by exact_mod_cast small)
    obtain ⟨k, same⟩ := Int.eq_ofNat_of_zero_le
      (by omega : 0 ≤ -max (exponent (n : ℚ) - 52) (-1074))
    have unit : (2 : ℚ) ^ max (exponent (n : ℚ) - 52) (-1074) = (2 ^ k)⁻¹ := by
      rw [← zpow_natCast, ← zpow_neg, ← same, neg_neg]
    have multiple : (n : ℚ) / (2 ^ k)⁻¹ = (n * 2 ^ k : Int) := by
      push_cast
      rw [div_inv_eq_mul]
    rw [binary64, unit, multiple, round_half_even_int]
    push_cast
    exact mul_inv_cancel_right₀ (by positivity) _

end Rounding
end Binary64
