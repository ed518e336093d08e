import Mathlib.Data.Int.GCD
import Mathlib.Data.Nat.Prime.Basic
import Mathlib.Algebra.Order.Ring.Int
import Mathlib.Algebra.Order.Ring.Abs
import Mathlib.Tactic.Ring

/- Numbers that wrap. A sum that leaves the range does not come back into a part of it
   that one of the terms lies in. In a repeated addition of one step, the values met are
   all those that agree with the start modulo the greatest common divisor of the step and
   the modulus, so the walk comes within that divisor of both ends of the range. -/
namespace Wrapping
variable {start step target : Int}

def wrapped (bits : Nat) (n : Int) : Int := n.bmod (2 ^ bits)

theorem wrapped_of_range {n : Int} (low : -2 ^ 31 ≤ n) (high : n < 2 ^ 31) :
    wrapped 32 n = n := Int.bmod_eq_of_le (by omega) (by omega)

theorem wrapped_range (n : Int) : -2 ^ 31 ≤ wrapped 32 n ∧ wrapped 32 n < 2 ^ 31 := by
  have low := Int.le_bmod (x := n) (m := 2 ^ 32) (by decide)
  have high := Int.bmod_lt (x := n) (m := 2 ^ 32) (by decide)
  unfold wrapped
  omega

theorem wrapped_injective {i j : Nat} (left : i < 2 ^ 32) (right : j < 2 ^ 32)
    (same : wrapped 32 i = wrapped 32 j) : i = j := by
  have round := Int.dvd_of_bmod_eq_zero (Int.bmod_eq_bmod_iff_bmod_sub_eq_zero.mp same)
  obtain ⟨k, apart⟩ := round
  omega

theorem wrapped_sum_within {counter amount bound : Int} (started : 0 ≤ counter)
    (within : counter ≤ bound) (small : bound < 2 ^ 31) (low : -2 ^ 31 ≤ amount)
    (high : amount < 2 ^ 31) :
    0 ≤ wrapped 32 (counter + amount) ∧ wrapped 32 (counter + amount) ≤ bound ↔
      0 ≤ counter + amount ∧ counter + amount ≤ bound := by
  by_cases fits : counter + amount < 2 ^ 31
  · rw [wrapped_of_range (by omega) fits]
  · have turned : wrapped 32 (counter + amount) = counter + amount - 2 ^ 32 := by
      have shifted : wrapped 32 (counter + amount) = wrapped 32 (counter + amount - 2 ^ 32) := by
        unfold wrapped
        exact (Int.sub_bmod_right (counter + amount) (2 ^ 32)).symm
      rw [shifted, wrapped_of_range (by omega) (by omega)]
    rw [turned]
    omega

theorem walk_reaches {m : Nat} (positive : 0 < m)
    (agrees : (Int.gcd step m : Int) ∣ target - start) :
    ∃ k : Nat, 0 < k ∧ (start + k * step).bmod m = target.bmod m := by
  obtain ⟨c, difference⟩ := agrees
  have bezout := Int.gcd_eq_gcd_ab step m
  have residue := Int.emod_nonneg (Int.gcdA step m * c) (b := (m : Int)) (by omega)
  have quotient := Int.emod_add_mul_ediv (Int.gcdA step m * c) (m : Int)
  -- one more turn of the modulus makes the number of additions positive
  refine ⟨((Int.gcdA step m * c) % m).toNat + m, by omega, ?_⟩
  rw [Int.bmod_eq_bmod_iff_bmod_sub_eq_zero]
  apply Int.bmod_eq_zero_of_dvd
  refine ⟨step - step * ((Int.gcdA step m * c) / m) - Int.gcdB step m * c, ?_⟩
  push_cast
  rw [Int.toNat_of_nonneg residue]
  have target_eq : target = start + (step * Int.gcdA step m + m * Int.gcdB step m) * c := by
    rw [← bezout, ← difference]
    ring
  have residue_eq : (Int.gcdA step m * c) % m =
      Int.gcdA step m * c - m * ((Int.gcdA step m * c) / m) := by omega
  rw [target_eq, residue_eq]
  ring

theorem dvd_half {g w : Nat} (divides : g ∣ 2 ^ (w + 1)) (small : g ≤ 2 ^ w) : g ∣ 2 ^ w := by
  obtain ⟨j, _, power⟩ := (Nat.dvd_prime_pow Nat.prime_two).mp divides
  subst power
  exact pow_dvd_pow 2 ((Nat.pow_le_pow_iff_right (by omega)).mp small)

theorem agreeing_value (start : Int) {g s h : Int} (positive : 0 < g) (nonzero : s ≠ 0)
    (low : -h ≤ s) (high : s < h) :
    ∃ target, g ∣ target - start ∧ target ≠ 0 ∧ g * s ≤ target ∧ -(g * h) ≤ target ∧
      target < g * h := by
  have low_rest := Int.emod_nonneg start positive.ne'
  have high_rest := Int.emod_lt_of_pos start positive
  have split := Int.emod_add_mul_ediv start g
  rcases lt_or_gt_of_ne nonzero with negative | rising
  · have step_below : g * s ≤ g * (-1) := Int.mul_le_mul_of_nonneg_left (by omega) positive.le
    have range : g * (-h) ≤ g * s := Int.mul_le_mul_of_nonneg_left low positive.le
    rw [Int.mul_neg] at range step_below
    refine ⟨start % g - g, ⟨-(start / g) - 1, ?_⟩, by omega, by omega, by omega, by omega⟩
    rw [Int.mul_sub, Int.mul_neg]
    omega
  · have step_below : g * (s + 1) ≤ g * h := Int.mul_le_mul_of_nonneg_left (by omega) positive.le
    have above : g * 1 ≤ g * s := Int.mul_le_mul_of_nonneg_left (by omega) positive.le
    rw [Int.mul_add] at step_below
    refine ⟨g * h - g + start % g, ⟨h - 1 - start / g, ?_⟩, by omega, by omega, by omega, by omega⟩
    rw [Int.mul_sub, Int.mul_sub]
    omega

/-- Whatever the start, adding a nonzero step again and again meets a nonzero value
    that is no smaller than the step. -/
theorem walk_climbs {w : Nat} (nonzero : step ≠ 0) (low : -2 ^ w ≤ step) (high : step < 2 ^ w) :
    ∃ k : Nat, 0 < k ∧ (start + k * step).bmod (2 ^ (w + 1)) ≠ 0 ∧
      step ≤ (start + k * step).bmod (2 ^ (w + 1)) := by
  obtain ⟨g, divisor⟩ : ∃ g : Nat, Int.gcd step (2 ^ (w + 1) : Nat) = g := ⟨_, rfl⟩
  have positive : 0 < g := divisor ▸ Int.gcd_pos_of_ne_zero_left _ nonzero
  have steps : (g : Int) ∣ step := divisor ▸ Int.gcd_dvd_left ..
  have turns : (g : Int) ∣ (2 ^ (w + 1) : Nat) := divisor ▸ Int.gcd_dvd_right ..
  have bounded : g ≤ 2 ^ w := by
    have least := Int.natAbs_le_of_dvd_ne_zero steps nonzero
    have range : (step.natAbs : Int) ≤ (2 ^ w : Nat) := by
      rw [Int.natCast_natAbs]
      push_cast
      exact abs_le.mpr ⟨low, high.le⟩
    omega
  obtain ⟨h, half⟩ := dvd_half (Int.natCast_dvd_natCast.mp turns) bounded
  obtain ⟨s, multiple⟩ := steps
  have power : (2 ^ w : Int) = g * h := by exact_mod_cast half
  have positive' : (0 : Int) < g := by omega
  rw [power, multiple, ← Int.mul_neg] at low
  rw [power, multiple] at high
  obtain ⟨target, agrees, moved, above, below, top⟩ := agreeing_value start positive'
    (right_ne_zero_of_mul (multiple ▸ nonzero)) (le_of_mul_le_mul_left low positive')
    (lt_of_mul_lt_mul_left high positive'.le)
  rw [← power] at below top
  rw [← multiple] at above
  have same : target.bmod (2 ^ (w + 1)) = target := by
    apply Int.bmod_eq_of_le_mul_two
    · push_cast
      rw [pow_succ]
      omega
    · push_cast
      rw [pow_succ]
      omega
  rw [← divisor] at agrees
  obtain ⟨k, some, reached⟩ := walk_reaches (Nat.two_pow_pos (w + 1)) agrees
  rw [same] at reached
  exact ⟨k, some, by rw [reached]; exact moved, by rw [reached]; exact above⟩

end Wrapping
