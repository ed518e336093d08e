import Mathlib.Algebra.Order.BigOperators.Group.List
import Mathlib.Algebra.Order.Field.Basic
import Mathlib.Data.List.Sort
import Mathlib.Tactic.FieldSimp
import Mathlib.Tactic.LinearCombination
import Mathlib.Tactic.Positivity

/- Figures that summarise a list of measurements. The mean lies between the least and the
   greatest of them, which bound the variance as well, and the `n`-th element has at least
   `n` others on either side of it or beside it. -/
namespace Summary
variable {K : Type} [LinearOrder K]

/-- What position `n` holds when the list is in order. -/
def nthElement (xs : List K) (n : Nat) : Option K := (xs.insertionSort (· ≤ ·))[n]?

section Extremes
variable {xs : List K} {m : K}

theorem min_bounds (least : xs.min? = some m) : m ∈ xs ∧ ∀ x ∈ xs, m ≤ x :=
  List.min?_eq_some_iff.mp least

theorem max_bounds (greatest : xs.max? = some m) : m ∈ xs ∧ ∀ x ∈ xs, x ≤ m :=
  List.max?_eq_some_iff.mp greatest

theorem min_perm {ys : List K} (same : ys.Perm xs) : ys.min? = xs.min? := by
  ext m
  rw [List.min?_eq_some_iff, List.min?_eq_some_iff, same.mem_iff]
  simp only [same.mem_iff]

theorem max_perm {ys : List K} (same : ys.Perm xs) : ys.max? = xs.max? := by
  ext m
  rw [List.max?_eq_some_iff, List.max?_eq_some_iff, same.mem_iff]
  simp only [same.mem_iff]

end Extremes

section Positions
variable {xs : List K} {n : Nat} {m : K}

theorem nth_element_some (inside : n < xs.length) : ∃ m, nthElement xs n = some m := by
  unfold nthElement
  rw [List.getElem?_eq_getElem (by rwa [List.length_insertionSort])]
  exact ⟨_, rfl⟩

theorem nth_element_split (held : nthElement xs n = some m) : ∃ front back,
    (front ++ m :: back).Perm xs ∧ front.length = n ∧ (∀ x ∈ front, x ≤ m) ∧
      ∀ x ∈ back, m ≤ x := by
  obtain ⟨inside, same⟩ := List.getElem?_eq_some_iff.mp held
  have ordered := List.pairwise_insertionSort (· ≤ ·) xs
  have split := List.take_append_drop n (xs.insertionSort (· ≤ ·))
  rw [List.drop_eq_getElem_cons inside, same] at split
  rw [← split, List.pairwise_append] at ordered
  obtain ⟨_, behind, across⟩ := ordered
  refine ⟨_, _, split ▸ List.perm_insertionSort (· ≤ ·) xs, ?_, ?_, ?_⟩
  · rw [List.length_take, Nat.min_eq_left inside.le]
  · exact fun x member => across x member m List.mem_cons_self
  · exact (List.pairwise_cons.mp behind).1

theorem nth_element_mem (held : nthElement xs n = some m) : m ∈ xs := by
  obtain ⟨front, back, perm, _⟩ := nth_element_split held
  exact perm.mem_iff.mp (by simp)

theorem nth_element_counts (held : nthElement xs n = some m) :
    n + 1 ≤ xs.countP (· ≤ m) ∧ xs.length ≤ n + xs.countP (m ≤ ·) := by
  obtain ⟨front, back, perm, place, low, high⟩ := nth_element_split held
  have all_front : front.countP (· ≤ m) = front.length :=
    List.countP_eq_length.mpr (by simpa using low)
  have all_back : back.countP (m ≤ ·) = back.length :=
    List.countP_eq_length.mpr (by simpa using high)
  rw [← perm.countP_eq, ← perm.countP_eq, ← perm.length_eq]
  simp only [List.countP_append, List.countP_cons, le_refl, decide_true, if_true, all_front,
    all_back, List.length_append, List.length_cons]
  omega

omit [LinearOrder K] in
theorem placed_anywhere {x : K} (member : x ∈ xs) (inside : n < xs.length) :
    ∃ ys : List K, ys.Perm xs ∧ ys[n]? = some x := by
  obtain ⟨front, back, rfl⟩ := List.append_of_mem member
  have whole : (front ++ back).length = front.length + back.length := List.length_append
  rw [List.length_append, List.length_cons] at inside
  refine ⟨(front ++ back).take n ++ x :: (front ++ back).drop n, ?_, ?_⟩
  · have moved : ((front ++ back).take n ++ x :: (front ++ back).drop n).Perm
        (x :: ((front ++ back).take n ++ (front ++ back).drop n)) := List.perm_middle
    rw [List.take_append_drop] at moved
    exact moved.trans List.perm_middle.symm
  · have place : ((front ++ back).take n).length = n := by
      rw [List.length_take]
      omega
    rw [List.getElem?_append_right place.le, place, Nat.sub_self]
    rfl

end Positions
section Means

def mean [Field K] (xs : List K) : K := xs.sum / xs.length

def variance [Field K] (xs : List K) : K :=
  (xs.map fun x => (x - mean xs) * (x - mean xs)).sum / xs.length

variable [Field K] [IsStrictOrderedRing K] {xs : List K} {lo hi : K}

theorem length_pos (some_item : xs ≠ []) : (0 : K) < xs.length :=
  Nat.cast_pos.mpr (List.length_pos_iff.mpr some_item)

theorem le_mean (some_item : xs ≠ []) (low : ∀ x ∈ xs, lo ≤ x) : lo ≤ mean xs := by
  have total := List.card_nsmul_le_sum xs lo low
  rw [nsmul_eq_mul] at total
  rw [mean, le_div_iff₀ (length_pos some_item), mul_comm]
  exact total

theorem mean_le (some_item : xs ≠ []) (high : ∀ x ∈ xs, x ≤ hi) : mean xs ≤ hi := by
  have total := List.sum_le_card_nsmul xs hi high
  rw [nsmul_eq_mul] at total
  rw [mean, div_le_iff₀ (length_pos some_item), mul_comm]
  exact total

omit [LinearOrder K] [IsStrictOrderedRing K] in
theorem mean_perm {ys : List K} (same : ys.Perm xs) : mean ys = mean xs := by
  rw [mean, mean, same.sum_eq, same.length_eq]

omit [LinearOrder K] [IsStrictOrderedRing K] in
theorem variance_perm {ys : List K} (same : ys.Perm xs) : variance ys = variance xs := by
  rw [variance, variance, mean_perm same, (same.map _).sum_eq, same.length_eq]

/-- The squares of the deviations from `m` and the products of the distances from the two
    ends add up to what depends on the sum alone. -/
theorem deviations (m : K) : (xs.map fun x => (x - m) * (x - m)).sum +
    (xs.map fun x => (hi - x) * (x - lo)).sum =
      (hi + lo - 2 * m) * xs.sum + xs.length * (m * m - hi * lo) := by
  induction xs with
  | nil => simp
  | cons x xs ih =>
    simp only [List.map_cons, List.sum_cons, List.length_cons, Nat.cast_add, Nat.cast_one]
    linear_combination ih

theorem variance_le (some_item : xs ≠ []) (low : ∀ x ∈ xs, lo ≤ x) (high : ∀ x ∈ xs, x ≤ hi) :
    variance xs ≤ (hi - mean xs) * (mean xs - lo) := by
  have positive := length_pos some_item
  have between : 0 ≤ (xs.map fun x => (hi - x) * (x - lo)).sum := by
    refine List.sum_nonneg ?_
    simp only [List.mem_map]
    rintro _ ⟨x, member, rfl⟩
    exact mul_nonneg (sub_nonneg.mpr (high x member)) (sub_nonneg.mpr (low x member))
  have total : xs.sum = xs.length * mean xs := by
    rw [mean, mul_div_cancel₀ _ positive.ne']
  have balance : _ = (hi + lo - 2 * mean xs) * xs.sum + _ := deviations (mean xs)
  rw [total] at balance
  rw [variance, div_le_iff₀ positive]
  linear_combination between + balance

end Means

end Summary
