import Mathlib.Data.List.Basic

/- A list cut into pieces of one size, of which the last may be shorter. The number of
   pieces is the length divided by the size, rounded up. -/
namespace Pieces
variable {α : Type} {n i k : Nat} {xs : List α}

def piece (n : Nat) (xs : List α) (i : Nat) : List α := (xs.drop (i * n)).take n

def count (n length : Nat) : Nat := (length + n - 1) / n

def pieces (n : Nat) (xs : List α) : List (List α) :=
  (List.range (count n xs.length)).map (piece n xs)

theorem below_count (positive : 0 < n) (length : Nat) : i < count n length ↔ i * n < length := by
  have above := Nat.le_div_iff_mul_le (x := i + 1) (y := length + n - 1) positive
  rw [Nat.succ_mul] at above
  unfold count
  omega

theorem piece_length : (piece n xs i).length = min n (xs.length - i * n) := by
  rw [piece, List.length_take, List.length_drop]

theorem piece_ne_nil (positive : 0 < n) (inside : i < count n xs.length) : piece n xs i ≠ [] := by
  rw [below_count positive] at inside
  refine List.ne_nil_of_length_pos ?_
  rw [piece_length]
  omega

theorem piece_full (positive : 0 < n) (more : i + 1 < count n xs.length) :
    (piece n xs i).length = n := by
  rw [below_count positive, Nat.succ_mul] at more
  rw [piece_length]
  omega

/-- The first pieces, one after the other, are the front of the list. -/
theorem first_pieces_flatten (k : Nat) :
    ((List.range k).map (piece n xs)).flatten = xs.take (k * n) := by
  induction k with
  | zero => simp
  | succ k ih =>
    rw [List.range_succ, List.map_append, List.flatten_append, ih, Nat.succ_mul, List.take_add]
    simp [piece]

theorem pieces_flatten (positive : 0 < n) : (pieces n xs).flatten = xs := by
  have all : ¬ count n xs.length * n < xs.length := by
    rw [← below_count positive]
    exact Nat.lt_irrefl _
  rw [pieces, first_pieces_flatten, List.take_of_length_le (by omega)]

theorem pieces_nonempty (positive : 0 < n) : ∀ p ∈ pieces n xs, p ≠ [] ∧ p.length ≤ n := by
  intro p member
  obtain ⟨i, inside, rfl⟩ := List.mem_map.mp member
  refine ⟨piece_ne_nil positive (List.mem_range.mp inside), ?_⟩
  rw [piece_length]
  exact Nat.min_le_left _ _

theorem pieces_full (positive : 0 < n) : ∀ p ∈ (pieces n xs).dropLast, p.length = n := by
  intro p member
  cases number : count n xs.length with
  | zero => simp [pieces, number] at member
  | succ k =>
    rw [pieces, number, List.range_succ, List.map_append, List.map_singleton,
      List.dropLast_concat] at member
    obtain ⟨i, inside, rfl⟩ := List.mem_map.mp member
    have below := List.mem_range.mp inside
    exact piece_full positive (by omega)

end Pieces
