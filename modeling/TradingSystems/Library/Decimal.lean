import Mathlib.Algebra.Order.Floor.Ring
import Mathlib.Data.Int.Log
import Mathlib.Data.List.TakeWhile
import Mathlib.Data.Rat.Floor
import Mathlib.Tactic.FieldSimp
import Mathlib.Tactic.Linarith

/- Decimal numerals as lists of characters: digits of a natural number, zero-padded
   digits, fractions behind a point, and rounding to the nearest integer with ties
   to even. Values are exact. -/
namespace Decimal

abbrev Text := List Char

def digits (n : Nat) : Text := Nat.toDigits 10 n

/-- The value of a run of digits. -/
def value (ds : Text) : Nat := Nat.ofDigitChars 10 ds 0

/-- At least `width` digits, with zeros on the left. -/
def padded (width n : Nat) : Text := List.replicate (width - (digits n).length) '0' ++ digits n

/-- The value of digits behind a point. -/
def fraction (ds : Text) : ℚ := value ds / 10 ^ ds.length

/-- Digits without the zeros at their end. -/
def trimmed (ds : Text) : Text := (ds.reverse.dropWhile fun c => c = '0').reverse

def AllDigits (ds : Text) : Prop := ∀ c ∈ ds, c.isDigit = true

section Naturals

@[simp] theorem value_nil : value [] = 0 := Nat.ofDigitChars_nil

@[simp] theorem value_digits (n : Nat) : value (digits n) = n :=
  Nat.ofDigitChars_toDigits (by decide) (by decide)

theorem digits_ne_nil (n : Nat) : digits n ≠ [] := Nat.toDigits_ne_nil

theorem all_digits (n : Nat) : AllDigits (digits n) := by
  intro c member
  exact Nat.isDigit_of_mem_toDigits (by decide) (by decide) member

theorem digits_length_le {n k : Nat} (positive : 0 < k) (small : n < 10 ^ k) :
    (digits n).length ≤ k := (Nat.length_toDigits_le_iff (by decide) positive).mpr small

theorem value_append (ds es : Text) :
    value (ds ++ es) = value ds * 10 ^ es.length + value es := by
  rw [value, Nat.ofDigitChars_append, Nat.ofDigitChars_eq_ofDigitChars_zero, Nat.mul_comm]
  rfl

@[simp] theorem value_zeros (k : Nat) : value (List.replicate k '0') = 0 := by
  simp [value]

theorem all_digits_zeros (k : Nat) : AllDigits (List.replicate k '0') := by
  intro c member
  rw [List.eq_of_mem_replicate member]
  rfl

theorem AllDigits.append {ds es : Text} (left : AllDigits ds) (right : AllDigits es) :
    AllDigits (ds ++ es) := by
  intro c member
  rcases List.mem_append.mp member with first | second
  · exact left c first
  · exact right c second

theorem all_digits_padded (width n : Nat) : AllDigits (padded width n) :=
  (all_digits_zeros _).append (all_digits n)

@[simp] theorem value_padded (width n : Nat) : value (padded width n) = n := by
  simp [padded, value_append]

theorem padded_length {width n : Nat} (positive : 0 < width) (small : n < 10 ^ width) :
    (padded width n).length = width := by
  have short := digits_length_le positive small
  simp only [padded, List.length_append, List.length_replicate]
  omega

end Naturals

section Fractions

@[simp] theorem fraction_nil : fraction [] = 0 := by simp [fraction]

theorem fraction_zeros (ds : Text) (k : Nat) :
    fraction (ds ++ List.replicate k '0') = fraction ds := by
  simp only [fraction, value_append, value_zeros, List.length_append, List.length_replicate]
  push_cast
  rw [add_zero, pow_add]
  exact mul_div_mul_right _ _ (by positivity)

theorem trimmed_zeros (ds : Text) : ∃ k, ds = trimmed ds ++ List.replicate k '0' := by
  refine ⟨(ds.reverse.takeWhile fun c => c = '0').length, ?_⟩
  have zeros : ds.reverse.takeWhile (fun c => c = '0') =
      List.replicate (ds.reverse.takeWhile fun c => c = '0').length '0' := by
    refine List.eq_replicate_of_mem fun c member => ?_
    simpa using List.mem_takeWhile_imp member
  have whole := congrArg List.reverse
    (List.takeWhile_append_dropWhile (p := fun c => decide (c = '0')) (l := ds.reverse))
  rw [List.reverse_append, List.reverse_reverse, zeros, List.reverse_replicate] at whole
  exact whole.symm

@[simp] theorem fraction_trimmed (ds : Text) : fraction (trimmed ds) = fraction ds := by
  obtain ⟨k, split⟩ := trimmed_zeros ds
  conv_rhs => rw [split, fraction_zeros]

theorem trimmed_length_le (ds : Text) : (trimmed ds).length ≤ ds.length := by
  obtain ⟨k, split⟩ := trimmed_zeros ds
  conv_rhs => rw [split, List.length_append]
  omega

theorem AllDigits.trimmed {ds : Text} (all : AllDigits ds) : AllDigits (trimmed ds) := by
  intro c member
  obtain ⟨k, split⟩ := trimmed_zeros ds
  exact all c (split ▸ List.mem_append_left _ member)

theorem fraction_padded {width n : Nat} (positive : 0 < width) (small : n < 10 ^ width) :
    fraction (padded width n) = n / 10 ^ width := by
  rw [fraction, value_padded, padded_length positive small]

end Fractions

section Rounding

/-- The nearest integer, and the even one of two that are equally near. -/
def roundHalfEven (q : ℚ) : Int :=
  let down := ⌊q⌋
  if q - down < 1 / 2 then down
  else if 1 / 2 < q - down then down + 1
  else if down % 2 = 0 then down else down + 1

theorem round_half_even_near (q : ℚ) : |(roundHalfEven q : ℚ) - q| ≤ 1 / 2 := by
  have low := Int.floor_le q
  have high := Int.lt_floor_add_one q
  unfold roundHalfEven
  rw [abs_le]
  dsimp only
  split
  · constructor <;> linarith
  · split
    · push_cast
      constructor <;> linarith
    · split
      · constructor <;> linarith
      · push_cast
        constructor <;> linarith

@[simp] theorem round_half_even_int (n : Int) : roundHalfEven n = n := by
  simp [roundHalfEven]

theorem round_half_even_le {q : ℚ} {n : Int} (bound : q ≤ n) : roundHalfEven q ≤ n := by
  have near := (abs_le.mp (round_half_even_near q)).2
  have below : (roundHalfEven q : ℚ) < n + 1 := by linarith
  have below : roundHalfEven q < n + 1 := by exact_mod_cast below
  omega

theorem le_round_half_even {q : ℚ} {n : Int} (bound : (n : ℚ) ≤ q) : n ≤ roundHalfEven q := by
  have near := (abs_le.mp (round_half_even_near q)).1
  have above : (n : ℚ) < roundHalfEven q + 1 := by linarith
  have above : n < roundHalfEven q + 1 := by exact_mod_cast above
  omega

end Rounding
end Decimal
