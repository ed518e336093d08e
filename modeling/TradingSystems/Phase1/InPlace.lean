import TradingSystems.Phase1.Layouts

/- The matrix-vector kernels with the result in the place of the vector, which nothing
   checks. The kernel for rows reads the new entries that it has just written; the kernel
   for columns has cleared the vector before it reads it. -/
namespace Phase1
open Loops

section Places
variable {R : Type} [CommRing R] {matrix p : Pointer} {m n : Memory R} {rows cols row : Int}
  {entries old new : Int → R}

structure Overwrites (entries old : Int → R) (cols row : Int) (new : Int → R) : Prop where
  kept : ∀ i, ¬ (0 ≤ i ∧ i < row) → new i = old i
  made : ∀ i, 0 ≤ i → i < row → new i =
    sumTo cols fun c => entries (i * cols + c) * if c < i then new c else old c

theorem Overwrites.next (held : Overwrites entries old cols row new) (nonneg : 0 ≤ row) :
    Overwrites entries old cols (row + 1)
      (Function.update new row (sumTo cols fun c => entries (row * cols + c) * new c)) := by
  generalize written : Function.update new row _ = newer
  have before : ∀ i, i ≠ row → newer i = new i := by
    intro i other
    rw [← written, Function.update_of_ne other]
  constructor
  · intro i outside
    rw [before i (by omega)]
    exact held.kept i (by omega)
  · intro i low high
    by_cases last : i = row
    · rw [last, ← written, Function.update_self]
      refine sum_to_congr fun c inside _ => ?_
      by_cases earlier : c < row
      · rw [if_pos earlier, Function.update_of_ne earlier.ne]
      · rw [if_neg earlier, held.kept c (by omega)]
    · rw [before i last, held.made i low (by omega)]
      refine sum_to_congr fun c inside _ => ?_
      by_cases earlier : c < i
      · rw [if_pos earlier, if_pos earlier, before c (by omega)]
      · rw [if_neg earlier, if_neg earlier]

theorem row_major_overwrites (apart : matrix.array ≠ p.array)
    (some_row : 0 < rows) (some_col : 0 < cols) (m : Memory R) :
    Overwrites (m.view matrix) (m.view p) cols rows
      ((multiplyMvRowMajor (some matrix) rows cols (some p) (some p) m).view p) := by
  simp only [multiplyMvRowMajor, Rounding.multiplyMvRowMajor, row_product_unrounded,
    checked_accepts (accepted some_row some_col)]
  refine (count_rule (fun row (n : Memory R) => n.view matrix = m.view matrix ∧
    Overwrites (m.view matrix) (m.view p) cols row (n.view p)) ?_ some_row.le
    ⟨rfl, fun _ _ => rfl, fun i low high => by omega⟩).2
  rintro row n low high ⟨same, held⟩
  have summed := row_product_summed matrix p some_col.le row n
  have total := summed.total
  rw [same] at total
  refine ⟨?_, ?_⟩
  · rw [store_view_other apart, view_cells summed.cells, same]
  · rw [store_view, view_cells summed.cells, total]
    exact held.next low

theorem add_to_row_zero (zero : ∀ i, 0 ≤ i → i < rows → n.view p i = 0) {col : Int}
    (inside : 0 ≤ col ∧ col < rows) (row_inside : 0 ≤ row ∧ row < rows) :
    ∀ i, 0 ≤ i → i < rows → (addToRow matrix p p rows col row n).view p i = 0 := by
  intro i low high
  have added : (addToRow matrix p p rows col row n).view p =
      Function.update (n.view p) row
        (n.view p row + n.view matrix (col * rows + row) * n.view p col) := store_view
  rw [added]
  by_cases here : i = row
  · rw [here, Function.update_self, zero row row_inside.1 row_inside.2,
      zero col inside.1 inside.2, mul_zero, add_zero]
  · rw [Function.update_of_ne here, zero i low high]

theorem col_major_clears (some_col : 0 < cols) (tall : cols ≤ rows) (name : String)
    (matrix p : Pointer) (m : Memory R) : ∀ i, 0 ≤ i → i < rows →
      (colMajor name (some matrix) rows cols (some p) (some p) m).view p i = 0 := by
  have some_row : 0 < rows := some_col.trans_le tall
  simp only [colMajor, Rounding.colMajor, add_to_row_unrounded,
    checked_accepts (accepted some_row some_col)]
  have cleared : ∀ i, 0 ≤ i → i < rows →
      (forBelow rows 1 (fun row m => m.store p row (0 : R)) 0 m).2.view p i = 0 := by
    refine count_rule (fun row (n : Memory R) => ∀ i, 0 ≤ i → i < row → n.view p i = 0) ?_
      some_row.le (fun i low high => by omega)
    intro row n low high zero i i_low i_high
    rw [store_view]
    by_cases here : i = row
    · rw [here, Function.update_self]
    · rw [Function.update_of_ne here]
      exact zero i i_low (by omega)
  refine count_rule (fun _ (n : Memory R) => ∀ i, 0 ≤ i → i < rows → n.view p i = 0) ?_
    some_col.le cleared
  intro col n low high zero
  refine count_rule (fun _ (n : Memory R) => ∀ i, 0 ≤ i → i < rows → n.view p i = 0) ?_
    some_row.le zero
  intro row n row_low row_high zero
  exact add_to_row_zero zero ⟨low, high.trans_le tall⟩ ⟨row_low, row_high⟩

/-- With the result in the place of the vector, the kernel for rows makes every entry from
    the new ones before it and the old ones from it on, and the kernels for columns make
    zeros of a vector that is no longer than the result, whatever the matrix. -/
theorem in_place (rows cols : Int) (matrix p : Pointer) (apart : matrix.array ≠ p.array)
    (some_row : 0 < rows) (some_col : 0 < cols) (m : Memory R) :
    (let new := (multiplyMvRowMajor (some matrix) rows cols (some p) (some p) m).view p
    (∀ i, ¬ (0 ≤ i ∧ i < rows) → new i = m.view p i) ∧
      ∀ i, 0 ≤ i → i < rows → new i = sumTo cols fun c =>
        m.view matrix (i * cols + c) * if c < i then new c else m.view p c) ∧
    (cols ≤ rows → ∀ i, 0 ≤ i → i < rows →
      (multiplyMvColMajor (some matrix) rows cols (some p) (some p) m).view p i = 0 ∧
      (multiplyMvColMajorInline (some matrix) rows cols (some p) (some p) m).view p i = 0) := by
  have made := row_major_overwrites apart some_row some_col m
  refine ⟨⟨made.kept, made.made⟩, fun tall i low high => ?_⟩
  exact ⟨col_major_clears some_col tall _ matrix p m i low high,
    col_major_clears some_col tall _ matrix p m i low high⟩

end Places

theorem in_place_ones :
    let m : Memory Int := ⟨fun _ _ => 1, [], [], [], []⟩
    let new := (multiplyMvRowMajor (some ⟨.left, 0⟩) 2 2 (some ⟨.right, 0⟩) (some ⟨.right, 0⟩)
      m).view ⟨.right, 0⟩
    (new 0 = 2 ∧ new 1 = 3) ∧ (multiplyMvColMajor (some ⟨.left, 0⟩) 2 2 (some ⟨.right, 0⟩)
      (some ⟨.right, 0⟩) m).view ⟨.right, 0⟩ 1 = 0 := by
  intro m new
  obtain ⟨⟨-, made⟩, cleared⟩ := in_place 2 2 ⟨.left, 0⟩ ⟨.right, 0⟩
    (by decide) (by decide) (by decide) m
  have first : new 0 = 2 := made 0 (by decide) (by decide)
  have second : new 1 = 1 * new 0 + 1 * 1 := made 1 (by decide) (by decide)
  refine ⟨⟨first, ?_⟩, (cleared (by decide) 1 (by decide) (by decide)).1⟩
  rw [second, first]
  rfl

end Phase1
