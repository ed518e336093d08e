import Mathlib.Algebra.BigOperators.Group.Finset.Basic

/- Counted loops over a state, and what they make: sums, lists, arrays that are filled
   from the front. Counters are integers and do not overflow. -/
namespace Loops
variable {State Other : Type} {step bound i : Int}

def rounds (step : Int) (body : Int → State → State) : Nat → Int → State → Int × State
  | 0, i, s => (i, s)
  | n + 1, i, s => rounds step body n (i + step) (body i s)

/-- `for (; i < bound; i += step)`, with the counter that is left: the test and the body
    alternate as in for_below_exit and for_below_enter. -/
def forBelow (bound step : Int) (body : Int → State → State) (i : Int) (s : State) :
    Int × State :=
  rounds step body ((bound - i + step - 1) / step).toNat i s

section Rules
variable {body : Int → State → State} {other : Int → Other → Other} {s : State} {t : Other}

theorem for_below_exit (positive : 0 < step) (past : bound ≤ i) :
    forBelow bound step body i s = (i, s) := by
  have none : (bound - i + step - 1) / step ≤ 0 := by
    have small : (bound - i + step - 1) / step < 1 :=
      Int.ediv_lt_of_lt_mul positive (by omega)
    omega
  rw [forBelow, Int.toNat_of_nonpos none]
  rfl

theorem for_below_enter (positive : 0 < step) (inside : i < bound) :
    forBelow bound step body i s = forBelow bound step body (i + step) (body i s) := by
  have shifted : bound - i + step - 1 = bound - (i + step) + step - 1 + 1 * step := by omega
  have more := Int.add_mul_ediv_right (bound - (i + step) + step - 1) 1 positive.ne'
  have nonneg : 0 ≤ (bound - (i + step) + step - 1) / step :=
    Int.ediv_nonneg (by omega) positive.le
  rw [forBelow, shifted, more, Int.toNat_add nonneg (by decide)]
  rfl

/-- What holds of counter and state before a round holds of the next counter after it. -/
theorem for_below_rule (keep : Int → State → Prop) (positive : 0 < step)
    (one : ∀ i s, i < bound → keep i s → keep (i + step) (body i s)) (start : keep i s) :
    keep (forBelow bound step body i s).1 (forBelow bound step body i s).2 ∧
      bound ≤ (forBelow bound step body i s).1 := by
  induction left : (bound - i).toNat using Nat.strongRecOn generalizing i s with
  | ind n ih =>
    by_cases inside : i < bound
    · rw [for_below_enter positive inside]
      exact ih _ (by omega) (one i s inside start) rfl
    · rw [for_below_exit positive (not_lt.mp inside)]
      exact ⟨start, not_lt.mp inside⟩

theorem for_below_related (keep : State → Other → Prop) (positive : 0 < step)
    (one : ∀ i s t, keep s t → keep (body i s) (other i t)) (start : keep s t) :
    keep (forBelow bound step body i s).2 (forBelow bound step other i t).2 := by
  induction left : (bound - i).toNat using Nat.strongRecOn generalizing i s t with
  | ind n ih =>
    by_cases inside : i < bound
    · rw [for_below_enter positive inside, for_below_enter positive inside]
      exact ih _ (by omega) (one i s t start) rfl
    · rw [for_below_exit positive (not_lt.mp inside), for_below_exit positive (not_lt.mp inside)]
      exact start

/-- A loop that counts one by one ends at its bound. -/
theorem count_rule (keep : Int → State → Prop)
    (one : ∀ j s, i ≤ j → j < bound → keep j s → keep (j + 1) (body j s))
    (low : i ≤ bound) (start : keep i s) : keep bound (forBelow bound 1 body i s).2 := by
  have counted := for_below_rule (fun j s => i ≤ j ∧ j ≤ bound ∧ keep j s) Int.one_pos
    (fun j s inside held => ⟨by omega, by omega, one j s held.1 inside held.2.2⟩)
    ⟨le_rfl, low, start⟩
  obtain ⟨⟨_, within, held⟩, past⟩ := counted
  rwa [le_antisymm within past] at held

/-- Two loops, one inside the other, pass through the places of a table row by row. -/
theorem nested_rule {rows cols : Int} {body : Int → Int → State → State}
    (keep : Int → State → Prop)
    (one : ∀ i j s, 0 ≤ i → i < rows → 0 ≤ j → j < cols → keep (i * cols + j) s →
      keep (i * cols + j + 1) (body i j s))
    (rows_nonneg : 0 ≤ rows) (cols_nonneg : 0 ≤ cols) (start : keep 0 s) :
    keep (rows * cols)
      (forBelow rows 1 (fun i s => (forBelow cols 1 (body i) 0 s).2) 0 s).2 := by
  refine count_rule (fun i s => keep (i * cols) s) ?_ rows_nonneg (by rwa [Int.zero_mul])
  intro i s low high held
  rw [Int.add_mul, Int.one_mul]
  refine count_rule (fun j s => keep (i * cols + j) s) ?_ cols_nonneg (by rwa [add_zero])
  intro j s first last held
  rw [← add_assoc]
  exact one i j s low high first last held

end Rules

section Places
variable {rows cols row col : Int}

theorem place_row (nonneg : 0 ≤ col) (below : col < cols) : (row * cols + col) / cols = row := by
  have positive : cols ≠ 0 := (nonneg.trans_lt below).ne'
  rw [add_comm, Int.add_mul_ediv_right _ _ positive, Int.ediv_eq_zero_of_lt nonneg below, zero_add]

theorem place_col (nonneg : 0 ≤ col) (below : col < cols) : (row * cols + col) % cols = col := by
  rw [add_comm, Int.add_mul_emod_self_right, Int.emod_eq_of_lt nonneg below]

theorem place_inside (row_nonneg : 0 ≤ row) (row_below : row < rows) (col_nonneg : 0 ≤ col)
    (col_below : col < cols) : 0 ≤ row * cols + col ∧ row * cols + col < rows * cols := by
  have before : 0 ≤ row * cols := Int.mul_nonneg row_nonneg (col_nonneg.trans col_below.le)
  have next : (row + 1) * cols ≤ rows * cols :=
    Int.mul_le_mul_of_nonneg_right row_below (col_nonneg.trans col_below.le)
  rw [Int.add_mul, Int.one_mul] at next
  omega

theorem forall_places (positive : 0 < cols) {keep : Int → Prop} :
    (∀ t, 0 ≤ t → t < rows * cols → keep t) ↔
      ∀ i j, 0 ≤ i → i < rows → 0 ≤ j → j < cols → keep (i * cols + j) := by
  constructor
  · intro all i j i_nonneg i_below j_nonneg j_below
    obtain ⟨low, high⟩ := place_inside i_nonneg i_below j_nonneg j_below
    exact all _ low high
  · intro all t low high
    have place := all (t / cols) (t % cols) (Int.ediv_nonneg low positive.le)
      (Int.ediv_lt_of_lt_mul positive high) (Int.emod_nonneg t positive.ne')
      (Int.emod_lt_of_pos t positive)
    rwa [Int.ediv_mul_add_emod] at place

end Places

section Sums
variable {R : Type} [AddCommMonoid R] {n : Int} {f : Int → R}

def sumTo (n : Int) (f : Int → R) : R := ∑ k ∈ Finset.range n.toNat, f k

theorem sum_to_zero : sumTo 0 f = 0 := rfl

theorem sum_to_congr {g : Int → R} (same : ∀ k, 0 ≤ k → k < n → f k = g k) :
    sumTo n f = sumTo n g := by
  refine Finset.sum_congr rfl fun k inside => ?_
  have below := Finset.mem_range.mp inside
  exact same k (Int.natCast_nonneg k) (by omega)

theorem sum_to_succ (nonneg : 0 ≤ n) : sumTo (n + 1) f = sumTo n f + f n := by
  rw [sumTo, Int.toNat_add nonneg (by decide)]
  change ∑ k ∈ Finset.range (n.toNat + 1), f k = _
  rw [Finset.sum_range_succ, Int.toNat_of_nonneg nonneg]
  rfl

end Sums

section Lists
variable {α : Type} {n : Int} {f : Int → List α}

def collected (n : Int) (f : Int → List α) : List α :=
  (List.range n.toNat).flatMap fun k : Nat => f k

theorem collected_zero : collected 0 f = [] := rfl

theorem collected_succ (nonneg : 0 ≤ n) : collected (n + 1) f = collected n f ++ f n := by
  rw [collected, Int.toNat_add nonneg (by decide)]
  change (List.range (n.toNat + 1)).flatMap _ = _
  rw [List.range_succ, List.flatMap_append, List.flatMap_singleton, Int.toNat_of_nonneg nonneg]
  rfl

theorem collected_nil : collected n (fun _ => ([] : List α)) = [] := by
  simp [collected]

theorem mem_collected {x : α} : x ∈ collected n f ↔ ∃ k, 0 ≤ k ∧ k < n ∧ x ∈ f k := by
  simp only [collected, List.mem_flatMap, List.mem_range]
  constructor
  · rintro ⟨k, below, member⟩
    exact ⟨k, Int.natCast_nonneg k, by omega, member⟩
  · rintro ⟨k, nonneg, below, member⟩
    obtain ⟨k, rfl⟩ := Int.eq_ofNat_of_zero_le nonneg
    exact ⟨k, by omega, member⟩

end Lists

section Arrays
variable {R : Type} {n j : Int} {cells value more : Int → R}

def filled (cells : Int → R) (n : Int) (value : Int → R) : Int → R :=
  fun j => if 0 ≤ j ∧ j < n then value j else cells j

theorem filled_zero : filled cells 0 value = cells := by
  funext j
  have outside : ¬ (0 ≤ j ∧ j < 0) := by omega
  rw [filled, if_neg outside]

theorem filled_inside (nonneg : 0 ≤ j) (below : j < n) : filled cells n value j = value j :=
  if_pos ⟨nonneg, below⟩

theorem filled_outside (outside : ¬ (0 ≤ j ∧ j < n)) : filled cells n value j = cells j :=
  if_neg outside

theorem filled_succ (nonneg : 0 ≤ n) :
    Function.update (filled cells n value) n (value n) = filled cells (n + 1) value := by
  funext j
  by_cases here : j = n
  · rw [here, Function.update_self, filled_inside nonneg (by omega)]
  · rw [Function.update_of_ne here]
    by_cases inside : 0 ≤ j ∧ j < n
    · rw [filled_inside inside.1 inside.2, filled_inside inside.1 (by omega)]
    · rw [filled_outside inside, filled_outside (by omega)]

theorem filled_again : filled (filled cells n value) n more = filled cells n more := by
  funext j
  by_cases inside : 0 ≤ j ∧ j < n
  · rw [filled_inside inside.1 inside.2, filled_inside inside.1 inside.2]
  · rw [filled_outside inside, filled_outside inside, filled_outside inside]

theorem filled_congr (same : ∀ k, 0 ≤ k → k < n → value k = more k) :
    filled cells n value = filled cells n more := by
  funext j
  by_cases inside : 0 ≤ j ∧ j < n
  · rw [filled_inside inside.1 inside.2, filled_inside inside.1 inside.2,
      same j inside.1 inside.2]
  · rw [filled_outside inside, filled_outside inside]

end Arrays
end Loops
