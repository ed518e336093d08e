import TradingSystems.Library.Decimal

/- Printed numbers: integers, a fixed number of places, and a number of significant
   digits without trailing zeros, in scientific notation outside the usual range. -/
namespace Formats
open Decimal

def pointed (ds : Text) : Text := if ds = [] then [] else '.' :: ds

def sign (q : ℚ) : Text := if q < 0 then ['-'] else []

def showInt (n : Int) : Text := (if n < 0 then ['-'] else []) ++ digits n.natAbs

def showFixed (places : Nat) (q : ℚ) : Text :=
  let m := (roundHalfEven (|q| * 10 ^ places)).toNat
  sign q ++ digits (m / 10 ^ places) ++
    if places = 0 then [] else '.' :: padded places (m % 10 ^ places)

/-- A positive number rounded to `precision` digits: these digits and the exponent
    of the first of them. -/
def significant (precision : Nat) (q : ℚ) : Nat × Int :=
  let x := Int.log 10 q
  let m := (roundHalfEven (q * 10 ^ ((precision : Int) - 1 - x))).toNat
  if m = 10 ^ precision then (10 ^ (precision - 1), x + 1) else (m, x)

/-- `%.{precision}g`, for a positive precision. -/
def showGeneral (precision : Nat) (q : ℚ) : Text :=
  if q = 0 then ['0'] else
    let (m, x) := significant precision |q|
    if -4 ≤ x ∧ x < precision then
      let places := ((precision : Int) - 1 - x).toNat
      sign q ++ digits (m / 10 ^ places) ++ pointed (trimmed (padded places (m % 10 ^ places)))
    else
      let places := precision - 1
      sign q ++ digits (m / 10 ^ places) ++ pointed (trimmed (padded places (m % 10 ^ places))) ++
        ['e', if x < 0 then '-' else '+'] ++ padded 2 x.natAbs

def rounded (precision : Nat) (q : ℚ) : ℚ :=
  let (m, x) := significant precision q
  m * 10 ^ (x - ((precision : Int) - 1))

def shownGeneral (precision : Nat) (q : ℚ) : ℚ :=
  if q < 0 then -rounded precision |q| else rounded precision |q|

def shownFixed (places : Nat) (q : ℚ) : ℚ :=
  let v : ℚ := roundHalfEven (|q| * 10 ^ places) / 10 ^ places
  if q < 0 then -v else v

def FewDigits (precision : Nat) (q : ℚ) : Prop :=
  ∃ m k : Int, |m| < 10 ^ precision ∧ q = m * 10 ^ k

example : showGeneral 6 (12345678 / 1000000) = "12.3457".toList := by decide +kernel
example : showGeneral 6 (99999999 / 1000000) = "100".toList := by decide +kernel
example : showFixed 6 (-5 / 4) = "-1.250000".toList := by decide +kernel

theorem pointed_length_le (ds : Text) : (pointed ds).length ≤ ds.length + 1 := by
  unfold pointed
  split <;> simp

section Significant
variable (precision : Nat) {q : ℚ}

theorem ten_zpow_pos (k : Int) : (0 : ℚ) < 10 ^ k := zpow_pos (by norm_num) k

theorem scaled_bounds (positive : 0 < q) :
    (10 : ℚ) ^ ((precision : Int) - 1) ≤ q * 10 ^ ((precision : Int) - 1 - Int.log 10 q) ∧
      q * 10 ^ ((precision : Int) - 1 - Int.log 10 q) < 10 ^ (precision : Int) := by
  have low := Int.zpow_log_le_self (b := 10) (by decide) positive
  have high := Int.lt_zpow_succ_log_self (b := 10) (by decide) q
  push_cast at low high
  have scale := ten_zpow_pos ((precision : Int) - 1 - Int.log 10 q)
  constructor
  · calc (10 : ℚ) ^ ((precision : Int) - 1)
        = 10 ^ Int.log 10 q * 10 ^ ((precision : Int) - 1 - Int.log 10 q) := by
          rw [← zpow_add₀ (by norm_num)]
          congr 1
          omega
      _ ≤ _ := by gcongr
  · calc q * 10 ^ ((precision : Int) - 1 - Int.log 10 q)
        < 10 ^ (Int.log 10 q + 1) * 10 ^ ((precision : Int) - 1 - Int.log 10 q) := by gcongr
      _ = 10 ^ (precision : Int) := by
          rw [← zpow_add₀ (by norm_num)]
          congr 1
          omega

/-- The rounded digits, and the carry into one more digit that is renormalised. -/
theorem significant_digits (positive : 0 < q) :
    ∃ m : Nat, roundHalfEven (q * 10 ^ ((precision : Int) - 1 - Int.log 10 q)) = m ∧
      m ≤ 10 ^ precision ∧ significant precision q =
        if m = 10 ^ precision then (10 ^ (precision - 1), Int.log 10 q + 1)
        else (m, Int.log 10 q) := by
  obtain ⟨low, high⟩ := scaled_bounds precision positive
  have nonneg : 0 ≤ roundHalfEven (q * 10 ^ ((precision : Int) - 1 - Int.log 10 q)) := by
    refine le_round_half_even ?_
    push_cast
    exact (ten_zpow_pos _).le.trans low
  have top : roundHalfEven (q * 10 ^ ((precision : Int) - 1 - Int.log 10 q)) ≤ 10 ^ precision := by
    refine round_half_even_le ?_
    push_cast
    exact_mod_cast high.le
  obtain ⟨m, same⟩ := Int.eq_ofNat_of_zero_le nonneg
  rw [same] at top
  exact ⟨m, same, by exact_mod_cast top, by simp only [significant, same, Int.toNat_natCast]⟩

theorem rounded_value (positive : 0 < q) (some_digits : 0 < precision) :
    ∃ m : Nat, roundHalfEven (q * 10 ^ ((precision : Int) - 1 - Int.log 10 q)) = m ∧
      rounded precision q = m * 10 ^ (Int.log 10 q - ((precision : Int) - 1)) := by
  obtain ⟨m, same, _, parts⟩ := significant_digits precision positive
  refine ⟨m, same, ?_⟩
  unfold rounded
  rw [parts]
  by_cases carry : m = 10 ^ precision
  · rw [if_pos carry, carry]
    have shifted : Int.log 10 q + 1 - ((precision : Int) - 1) =
        1 + (Int.log 10 q - ((precision : Int) - 1)) := by omega
    push_cast
    rw [shifted, zpow_add₀ (by norm_num), zpow_one, ← mul_assoc, ← pow_succ,
      Nat.sub_add_cancel some_digits]
  · rw [if_neg carry]

theorem scaled_back (q : ℚ) : q * 10 ^ ((precision : Int) - 1 - Int.log 10 q) *
    10 ^ (Int.log 10 q - ((precision : Int) - 1)) = q := by
  rw [mul_assoc, ← zpow_add₀ (by norm_num)]
  simp

theorem rounded_near (positive : 0 < q) (some_digits : 0 < precision) :
    |rounded precision q - q| ≤ 1 / 2 * 10 ^ (Int.log 10 q - ((precision : Int) - 1)) := by
  obtain ⟨m, same, value⟩ := rounded_value precision positive some_digits
  have unit := ten_zpow_pos (Int.log 10 q - ((precision : Int) - 1))
  have near := round_half_even_near (q * 10 ^ ((precision : Int) - 1 - Int.log 10 q))
  rw [same] at near
  calc |rounded precision q - q|
      = |((m : Int) : ℚ) - q * 10 ^ ((precision : Int) - 1 - Int.log 10 q)| *
          10 ^ (Int.log 10 q - ((precision : Int) - 1)) := by
        rw [value, ← abs_of_pos unit, ← abs_mul, sub_mul, abs_of_pos unit, scaled_back]
        push_cast
        rfl
    _ ≤ _ := by gcongr

@[simp] theorem shown_general_zero : shownGeneral precision 0 = 0 := by
  have zero : (roundHalfEven 0).toNat = 0 := by decide +kernel
  have no_carry : (0 : Nat) ≠ 10 ^ precision := (by positivity : 0 < 10 ^ precision).ne
  simp [shownGeneral, rounded, significant, zero, no_carry]

/-- The digits stand in front of a power of ten, whether there was a carry or not. -/
theorem rounded_parts (positive : 0 < q) (some_digits : 0 < precision) :
    ∃ m : Nat, ∃ x : Int, significant precision q = (m, x) ∧ m < 10 ^ precision ∧
      rounded precision q = m * 10 ^ (x - ((precision : Int) - 1)) := by
  obtain ⟨m, _, top, parts⟩ := significant_digits precision positive
  by_cases carry : m = 10 ^ precision
  · rw [if_pos carry] at parts
    refine ⟨_, _, parts, Nat.pow_lt_pow_right (by decide) (by omega), ?_⟩
    rw [rounded, parts]
  · rw [if_neg carry] at parts
    refine ⟨_, _, parts, by omega, ?_⟩
    rw [rounded, parts]

/-- Exactly the numbers of so few digits are their own rounding. -/
theorem rounded_eq_iff (positive : 0 < q) (some_digits : 0 < precision) :
    rounded precision q = q ↔ FewDigits precision q := by
  constructor
  · intro same
    obtain ⟨m, x, _, few, value⟩ := rounded_parts precision positive some_digits
    refine ⟨m, x - ((precision : Int) - 1), ?_, ?_⟩
    · rw [Nat.abs_cast]
      exact_mod_cast few
    · rw [← same, value]
      rfl
  · rintro ⟨n, k, few, value⟩
    have low : Int.log 10 q < k + precision := by
      apply (Int.lt_zpow_iff_log_lt (by decide) positive).mp
      have bounded : (n : ℚ) < 10 ^ precision := by exact_mod_cast (le_abs_self n).trans_lt few
      calc q = n * 10 ^ k := value
        _ < 10 ^ precision * 10 ^ k := by
          exact mul_lt_mul_of_pos_right bounded (ten_zpow_pos k)
        _ = ((10 : Nat) : ℚ) ^ (k + precision) := by
          rw [zpow_add₀ (by norm_num), zpow_natCast, mul_comm]
          push_cast
          rfl
    obtain ⟨e, shift⟩ :=
      Int.eq_ofNat_of_zero_le (show 0 ≤ k + ((precision : Int) - 1 - Int.log 10 q) by omega)
    have scaled : q * 10 ^ ((precision : Int) - 1 - Int.log 10 q) = ((n * 10 ^ e : Int) : ℚ) := by
      conv_lhs => rw [value]
      rw [mul_assoc, ← zpow_add₀ (by norm_num), ← value, shift]
      push_cast
      rw [zpow_natCast]
    obtain ⟨m, same, value⟩ := rounded_value precision positive some_digits
    rw [scaled, round_half_even_int] at same
    rw [same] at scaled
    calc rounded precision q
        = ((m : Int) : ℚ) * 10 ^ (Int.log 10 q - ((precision : Int) - 1)) := value
      _ = q := by rw [← scaled, scaled_back]

theorem few_digits_abs : FewDigits precision |q| ↔ FewDigits precision q := by
  rcases abs_choice q with same | turned
  · rw [same]
  · rw [turned]
    constructor
    · intro few
      obtain ⟨m, k, small, value⟩ := few
      exact ⟨-m, k, by rwa [abs_neg], by push_cast; linarith⟩
    · intro few
      obtain ⟨m, k, small, value⟩ := few
      exact ⟨-m, k, by rwa [abs_neg], by push_cast; linarith⟩

theorem shown_general_eq_iff (some_digits : 0 < precision) (q : ℚ) :
    shownGeneral precision q = q ↔ FewDigits precision q := by
  rcases eq_or_ne q 0 with zero | some_value
  · subst zero
    have none : FewDigits precision 0 := ⟨0, 0, by simp, by simp⟩
    simp [none]
  · rw [← few_digits_abs, ← rounded_eq_iff precision (abs_pos.mpr some_value) some_digits,
      shownGeneral]
    split
    · rename_i negative
      rw [neg_eq_iff_eq_neg, abs_of_neg negative]
    · rename_i nonneg
      rw [abs_of_nonneg (not_lt.mp nonneg)]

end Significant

theorem fraction_places {places n : Nat} (small : n < 10 ^ places) :
    fraction (trimmed (padded places n)) = n / 10 ^ places := by
  rw [fraction_trimmed]
  cases places with
  | zero =>
    have none : n = 0 := by simpa using small
    rw [none, fraction, value_padded]
    simp
  | succ k => exact fraction_padded (Nat.succ_pos k) small

theorem split_places (m places : Nat) :
    ((m / 10 ^ places : Nat) : ℚ) + (m % 10 ^ places : Nat) / 10 ^ places = m / 10 ^ places := by
  have parts := Nat.div_add_mod m (10 ^ places)
  have whole : (m : ℚ) = 10 ^ places * (m / 10 ^ places : Nat) + (m % 10 ^ places : Nat) := by
    exact_mod_cast parts.symm
  rw [whole]
  field_simp

theorem places_value (m places : Nat) :
    (value (digits (m / 10 ^ places)) : ℚ) +
      fraction (trimmed (padded places (m % 10 ^ places))) = m / 10 ^ places := by
  rw [value_digits, fraction_places (Nat.mod_lt _ (by positivity)), split_places]

theorem show_general_usual {precision places m : Nat} {q : ℚ} {x : Int} (positive : 0 < q)
    (parts : significant precision q = (m, x)) (usual : -4 ≤ x)
    (behind : (places : Int) = (precision : Int) - 1 - x) :
    showGeneral precision q = digits (m / 10 ^ places) ++
        pointed (trimmed (padded places (m % 10 ^ places))) ∧
      rounded precision q = m / 10 ^ places := by
  constructor
  · have inside : x < precision := by omega
    have places_eq : ((precision : Int) - 1 - x).toNat = places := by omega
    simp [showGeneral, positive.ne', abs_of_pos positive, parts, usual, inside, places_eq, sign,
      positive.le]
  · rw [rounded, parts]
    dsimp only
    rw [show x - ((precision : Int) - 1) = -(places : Int) by omega, zpow_neg, zpow_natCast,
      div_eq_mul_inv]

theorem show_general_price {q : ℚ} (low : 1 ≤ q) (high : q < 1000) :
    ∃ m places : Nat, places ≤ 5 ∧ m < 10 ^ (places + 4) ∧
      showGeneral 6 q = digits (m / 10 ^ places) ++
        pointed (trimmed (padded places (m % 10 ^ places))) ∧
      rounded 6 q = m / 10 ^ places := by
  have positive : 0 < q := by linarith
  have least : 0 ≤ Int.log 10 q :=
    (Int.zpow_le_iff_le_log (by decide) positive).mp (by simpa using low)
  have most : Int.log 10 q < 3 :=
    (Int.lt_zpow_iff_log_lt (by decide) positive).mp (by norm_num; exact high)
  obtain ⟨x, exponent⟩ := Int.eq_ofNat_of_zero_le least
  obtain ⟨m, _, top, parts⟩ := significant_digits 6 positive
  rw [exponent] at parts most
  by_cases carry : m = 10 ^ 6
  · rw [if_pos carry] at parts
    have behind : ((4 - x : Nat) : Int) = ((6 : Nat) : Int) - 1 - ((x : Int) + 1) := by omega
    obtain ⟨text, value⟩ := show_general_usual positive parts (by omega) behind
    refine ⟨_, _, by omega, ?_, text, value⟩
    exact Nat.pow_lt_pow_right (by decide) (by omega)
  · rw [if_neg carry] at parts
    have behind : ((5 - x : Nat) : Int) = ((6 : Nat) : Int) - 1 - (x : Int) := by omega
    obtain ⟨text, value⟩ := show_general_usual positive parts (by omega) behind
    refine ⟨_, _, by omega, ?_, text, value⟩
    calc m < 10 ^ 6 := by omega
      _ ≤ 10 ^ (5 - x + 4) := Nat.pow_le_pow_right (by decide) (by omega)

theorem show_fixed_parts {places : Nat} {q : ℚ} (positive : 0 < places) (nonneg : 0 ≤ q) :
    ∃ m : Nat, roundHalfEven (q * 10 ^ places) = m ∧
      showFixed places q = digits (m / 10 ^ places) ++ '.' :: padded places (m % 10 ^ places) := by
  have rounded : 0 ≤ roundHalfEven (q * 10 ^ places) := by
    refine le_round_half_even ?_
    push_cast
    positivity
  obtain ⟨m, same⟩ := Int.eq_ofNat_of_zero_le rounded
  refine ⟨m, same, ?_⟩
  simp only [showFixed, sign, not_lt.mpr nonneg, ↓reduceIte, abs_of_nonneg nonneg, same,
    Int.toNat_natCast, positive.ne', List.nil_append]

@[simp] theorem shown_fixed_exact (m places : Nat) :
    shownFixed places (m / 10 ^ places) = m / 10 ^ places := by
  have nonneg : (0 : ℚ) ≤ m / 10 ^ places := by positivity
  have scaled : (m : ℚ) / 10 ^ places * 10 ^ places = ((m : Int) : ℚ) := by
    push_cast
    field_simp
  rw [shownFixed, abs_of_nonneg nonneg, scaled, round_half_even_int, if_neg (not_lt.mpr nonneg)]
  rfl

theorem shown_fixed_near (places : Nat) (q : ℚ) :
    |shownFixed places q - q| ≤ 1 / 2 / 10 ^ places := by
  have near := round_half_even_near (|q| * 10 ^ places)
  have unit : (0 : ℚ) < 10 ^ places := by positivity
  have scaled : |(roundHalfEven (|q| * 10 ^ places) : ℚ) / 10 ^ places - (|q|)| ≤
      1 / 2 / 10 ^ places := by
    rw [le_div_iff₀ unit, ← abs_of_pos unit, ← abs_mul, sub_mul, abs_of_pos unit,
      div_mul_cancel₀ _ unit.ne']
    exact near
  unfold shownFixed
  split
  · rename_i negative
    rw [abs_of_neg negative] at scaled ⊢
    dsimp only
    rwa [neg_sub_comm, ← abs_neg, neg_sub]
  · rename_i nonneg
    rwa [abs_of_nonneg (not_lt.mp nonneg)] at scaled ⊢

theorem show_fixed_exact (m : Nat) {places : Nat} (positive : 0 < places) :
    showFixed places (m / 10 ^ places) =
      digits (m / 10 ^ places) ++ '.' :: padded places (m % 10 ^ places) := by
  obtain ⟨n, rounded, text⟩ := show_fixed_parts (q := m / 10 ^ places) positive (by positivity)
  have scaled : (m : ℚ) / 10 ^ places * 10 ^ places = ((m : Int) : ℚ) := by
    push_cast
    field_simp
  rw [scaled, round_half_even_int, Nat.cast_inj] at rounded
  rw [text, rounded]

end Formats
