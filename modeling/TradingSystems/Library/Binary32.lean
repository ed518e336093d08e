import TradingSystems.Library.Decimal

/- Rounding to the 24 significant bits of a single-precision number, ties to even.
   Exponents are unbounded here unless it says otherwise; whoever reads a number from a text
   checks the range. -/
namespace Binary32
open Decimal

def exponent (q : ℚ) : Int := Int.log 2 |q|

def ulp (q : ℚ) : ℚ := 2 ^ (exponent q - 23)

def binary32 (q : ℚ) : ℚ := roundHalfEven (q / ulp q) * ulp q

def largestFloat : ℚ := (2 ^ 24 - 1) * 2 ^ 104
def smallestFloat : ℚ := 1 / 2 ^ 126

/-- With gradual underflow: the least distance of two floats is 2 ^ -149. -/
def gradual (q : ℚ) : ℚ :=
  let unit := 2 ^ max (exponent q - 23) (-149)
  roundHalfEven (q / unit) * unit

/-- The values of a float. The zero of `finite` is the positive one, and all that is not a
    number is one value. -/
inductive Number where
  | finite (q : ℚ)
  | negativeZero
  | infinity (negative : Bool)
  | nan
  deriving DecidableEq, Repr

namespace Number

instance : Coe ℚ Number := ⟨finite⟩

def toRat : Number → ℚ
  | finite q => q
  | negativeZero | infinity _ | nan => 0

def below : Number → Number → Bool
  | nan, _ | _, nan => false
  | infinity false, _ | _, infinity true => false
  | infinity true, _ | _, infinity false => true
  | a, b => a.toRat < b.toRat

instance : LT Number := ⟨fun a b => a.below b = true⟩

instance : DecidableLT Number := fun a b => inferInstanceAs (Decidable (a.below b = true))

theorem not_lt_self (a : Number) : ¬ a < a := by
  change ¬ a.below a = true
  cases a with
  | finite q => simp [below]
  | negativeZero => simp [below]
  | infinity negative => cases negative <;> decide
  | nan => decide

end Number

section Rounding
variable {q : ℚ}

theorem ulp_pos (q : ℚ) : 0 < ulp q := zpow_pos (by norm_num) _

theorem binary32_of_near {n : Int} (near : |q - n * ulp q| < 1 / 2 * ulp q) :
    binary32 q = n * ulp q := by
  have unit := ulp_pos q
  have scaled : |q / ulp q - n| < 1 / 2 := by
    rw [← mul_lt_mul_iff_left₀ unit]
    calc |q / ulp q - n| * ulp q = |q - n * ulp q| := by
          rw [← abs_of_pos unit, ← abs_mul, abs_of_pos unit, sub_mul, div_mul_cancel₀ _ unit.ne']
      _ < 1 / 2 * ulp q := near
  have rounding := round_half_even_near (q / ulp q)
  rw [abs_lt] at scaled
  rw [abs_le] at rounding
  have low : (roundHalfEven (q / ulp q) : ℚ) < n + 1 := by linarith
  have high : (n : ℚ) < roundHalfEven (q / ulp q) + 1 := by linarith
  have low : roundHalfEven (q / ulp q) < n + 1 := by exact_mod_cast low
  have high : n < roundHalfEven (q / ulp q) + 1 := by exact_mod_cast high
  rw [binary32, show roundHalfEven (q / ulp q) = n by omega]

theorem binary32_multiple {n : Int} (multiple : q = n * ulp q) : binary32 q = q := by
  rw [binary32_of_near (n := n)]
  · exact multiple.symm
  · rw [← multiple]
    simpa using ulp_pos q

theorem binary32_le {n : Int} (below : q ≤ n * ulp q) : binary32 q ≤ n * ulp q := by
  have rounded : roundHalfEven (q / ulp q) ≤ n :=
    round_half_even_le ((div_le_iff₀ (ulp_pos q)).mpr below)
  have rounded : (roundHalfEven (q / ulp q) : ℚ) ≤ n := by exact_mod_cast rounded
  exact mul_le_mul_of_nonneg_right rounded (ulp_pos q).le

theorem le_binary32 {n : Int} (above : n * ulp q ≤ q) : n * ulp q ≤ binary32 q := by
  have rounded : n ≤ roundHalfEven (q / ulp q) :=
    le_round_half_even ((le_div_iff₀ (ulp_pos q)).mpr above)
  have rounded : (n : ℚ) ≤ roundHalfEven (q / ulp q) := by exact_mod_cast rounded
  exact mul_le_mul_of_nonneg_right rounded (ulp_pos q).le

end Rounding

section Exponents
variable {q : ℚ}

theorem exponent_le {e : Int} (nonzero : q ≠ 0) (small : |q| < 2 ^ (e + 1)) : exponent q ≤ e := by
  have bound := (Int.lt_zpow_iff_log_lt (b := 2) (by decide) (abs_pos.mpr nonzero)).mp
    (by exact_mod_cast small : |q| < ((2 : Nat) : ℚ) ^ (e + 1))
  unfold exponent
  omega

theorem le_exponent {e : Int} (nonzero : q ≠ 0) (large : 2 ^ e ≤ |q|) : e ≤ exponent q :=
  (Int.zpow_le_iff_le_log (b := 2) (by decide) (abs_pos.mpr nonzero)).mp
    (by exact_mod_cast large)

theorem coarse_multiple {k : Int} (n : Int) (fine : exponent q - 23 ≤ k) :
    ∃ m : Int, (n : ℚ) * 2 ^ k = m * ulp q := by
  obtain ⟨j, same⟩ := Int.eq_ofNat_of_zero_le (by omega : 0 ≤ k - (exponent q - 23))
  refine ⟨n * 2 ^ j, ?_⟩
  have split : k = (j : Int) + (exponent q - 23) := by omega
  rw [split, zpow_add₀ (by norm_num), ulp]
  push_cast
  rw [zpow_natCast]
  ring

theorem binary32_int {n : Int} (small : |n| < 2 ^ 24) : binary32 n = n := by
  rcases eq_or_ne n 0 with zero | nonzero
  · subst zero
    exact binary32_multiple (n := 0) (by simp)
  · have range : |(n : ℚ)| < 2 ^ ((23 : Int) + 1) := by exact_mod_cast small
    have fine := exponent_le (by exact_mod_cast nonzero) range
    obtain ⟨m, multiple⟩ := coarse_multiple (q := n) (k := 0) n (by omega)
    rw [zpow_zero, mul_one] at multiple
    exact binary32_multiple multiple

theorem binary32_le_int {n : Int} (some : q ≠ 0) (range : |q| < 2 ^ 24) (below : q ≤ n) :
    binary32 q ≤ n := by
  have fine := exponent_le (e := 23) some (by exact_mod_cast range)
  obtain ⟨m, multiple⟩ := coarse_multiple (q := q) (k := 0) n (by omega)
  rw [zpow_zero, mul_one] at multiple
  rw [multiple] at below ⊢
  exact binary32_le below

theorem int_le_binary32 {n : Int} (some : q ≠ 0) (range : |q| < 2 ^ 24) (above : n ≤ q) :
    n ≤ binary32 q := by
  have fine := exponent_le (e := 23) some (by exact_mod_cast range)
  obtain ⟨m, multiple⟩ := coarse_multiple (q := q) (k := 0) n (by omega)
  rw [zpow_zero, mul_one] at multiple
  rw [multiple] at above ⊢
  exact le_binary32 above

theorem binary32_between {low high : Int} (positive : 0 < q) (small : q < 2 ^ 24) (above : low ≤ q)
    (below : q ≤ high) : low ≤ binary32 q ∧ binary32 q ≤ high := by
  have range : |q| < 2 ^ 24 := by rwa [abs_of_pos positive]
  exact ⟨int_le_binary32 positive.ne' range above, binary32_le_int positive.ne' range below⟩

theorem gradual_normal (nonzero : q ≠ 0) (normal : (2 : ℚ) ^ (-126 : Int) ≤ |q|) :
    gradual q = binary32 q := by
  have fine := le_exponent nonzero normal
  have unit : max (exponent q - 23) (-149) = exponent q - 23 := max_eq_left (by omega)
  rw [gradual, unit]
  rfl

theorem exponent_bounds (positive : 0 < q) :
    (2 : ℚ) ^ exponent q ≤ q ∧ q < 2 ^ (exponent q + 1) := by
  unfold exponent
  rw [abs_of_pos positive]
  exact ⟨by exact_mod_cast Int.zpow_log_le_self (b := 2) (by decide) positive,
    by exact_mod_cast Int.lt_zpow_succ_log_self (b := 2) (by decide) q⟩

theorem ulps_eq_zpow (k : Nat) {e : Int} (same : exponent q - 23 + k = e) :
    2 ^ k * ulp q = 2 ^ e := by
  rw [← same, zpow_add₀ (by norm_num), zpow_natCast, ulp, mul_comm]

theorem ulps_bounds (positive : 0 < q) : 2 ^ 23 * ulp q ≤ q ∧ q < 2 ^ 24 * ulp q := by
  rw [ulps_eq_zpow (e := exponent q) 23 (by omega),
    ulps_eq_zpow (e := exponent q + 1) 24 (by omega)]
  exact exponent_bounds positive

end Exponents

def Single (q : ℚ) : Prop := ∃ n : Int, q = n * ulp q

section Singles
variable {p q : ℚ}

theorem binary32_positive (positive : 0 < q) : 0 < binary32 q := by
  have low := le_binary32 (q := q) (n := 2 ^ 23) (by exact_mod_cast (ulps_bounds positive).1)
  have unit := ulp_pos q
  push_cast at low
  linarith

theorem binary32_single (positive : 0 < q) : Single (binary32 q) := by
  have rounded := binary32_positive positive
  have top : binary32 q ≤ 2 ^ 24 * ulp q := by
    have below := binary32_le (q := q) (n := 2 ^ 24)
      (by exact_mod_cast (ulps_bounds positive).2.le)
    exact_mod_cast below
  rw [ulps_eq_zpow (e := exponent q + 1) 24 (by omega)] at top
  rcases top.lt_or_eq with below | carry
  · rw [← abs_of_pos rounded] at below
    have same := exponent_le rounded.ne' below
    exact coarse_multiple _ (by omega)
  · have next : |binary32 q| < 2 ^ (exponent q + 1 + 1) := by
      rw [abs_of_pos rounded, carry]
      exact zpow_lt_zpow_right₀ (by norm_num) (by omega)
    have above := exponent_le rounded.ne' next
    obtain ⟨m, multiple⟩ := coarse_multiple (q := binary32 q) (k := exponent q + 1) 1 (by omega)
    refine ⟨m, ?_⟩
    rw [← multiple, carry, Int.cast_one, one_mul]

/-- A number closer than a quarter of a unit is read as the same one. A quarter, since
    the neighbours below a power of two are half as far apart. -/
theorem binary32_read_back (single : Single p) (positive : 0 < p) (near : |q - p| < 1 / 4 * ulp p) :
    binary32 q = p := by
  obtain ⟨n, multiple⟩ := single
  obtain ⟨low, high⟩ := ulps_bounds positive
  have unit := ulp_pos p
  obtain ⟨left, right⟩ := abs_lt.mp near
  have large : 0 < q := by linarith
  have integral : n ≤ 2 ^ 24 - 1 := by
    have bound : (n : ℚ) * ulp p < 2 ^ 24 * ulp p := by linarith
    have bound : (n : ℚ) < 2 ^ 24 := lt_of_mul_lt_mul_right bound unit.le
    have bound : n < 2 ^ 24 := by exact_mod_cast bound
    omega
  have under : q < 2 ^ 24 * ulp p := by
    have integral : (n : ℚ) ≤ 2 ^ 24 - 1 := by exact_mod_cast integral
    have scaled := mul_le_mul_of_nonneg_right integral unit.le
    linarith
  rw [ulps_eq_zpow (e := exponent p + 1) 24 (by omega), ← abs_of_pos large] at under
  have upper := exponent_le large.ne' under
  have enough : 2 ^ 22 * ulp p ≤ q := by linarith
  rw [ulps_eq_zpow (e := exponent p - 1) 22 (by omega), ← abs_of_pos large] at enough
  have lower := le_exponent large.ne' enough
  rcases (show exponent q = exponent p ∨ exponent q = exponent p - 1 by omega) with same | finer
  · have units : ulp q = ulp p := by rw [ulp, ulp, same]
    rw [multiple, ← units]
    refine binary32_of_near ?_
    rw [units, ← multiple]
    linarith
  · have units : ulp p = 2 * ulp q := by
      rw [ulp, ulp, finer, show exponent p - 23 = 1 + (exponent p - 1 - 23) by omega,
        zpow_add₀ (by norm_num), zpow_one]
    have twice : p = (2 * n : Int) * ulp q := by
      rw [units] at multiple
      push_cast
      linarith
    rw [units] at near
    conv_rhs => rw [twice]
    refine binary32_of_near ?_
    rw [← twice]
    linarith

end Singles
end Binary32
