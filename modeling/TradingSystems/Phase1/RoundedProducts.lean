import TradingSystems.Phase1.RoundedKernels
import TradingSystems.Library.Binary64

/- The products that the kernels leave in memory when every operation is rounded. The layout
   of a matrix does not matter then, only the unrolled loop has an order of its own. -/
namespace Phase1.Rounding
open Loops RoundedSums Tally

section Computed
variable {R : Type} {ops : Arithmetic R} {matrix vector result : Pointer}
  {m n : Memory R} {cells value : Int → R} {rows cols inner row col : Int}

theorem rows_compute (apart : Apart matrix vector result)
    (dot : Int → Memory R → R × Memory R)
    (one : ∀ row n, n.view matrix = m.view matrix → n.view vector = m.view vector →
      (dot row n).1 = value row ∧ (dot row n).2.cells = n.cells) (some_row : 0 < rows) :
    Computes matrix vector result m (filled (m.view result) rows value)
      (forBelow rows 1 (fun row n =>
        let (temp, n) := dot row n
        n.store result row temp) 0 m).2 := by
  refine count_rule (fun row n => Computes matrix vector result m
    (filled (m.view result) row value) n) ?_ some_row.le ⟨rfl, rfl, filled_zero.symm⟩
  intro row n low high held
  obtain ⟨total, same⟩ := one row n held.matrix held.vector
  have stored := (held.reading same).fill apart low
  rw [← total] at stored
  exact stored

/-- The tally of a row in the plain kernel, and of one in the unrolled kernel. -/
def rowTally (m : Memory R) (matrix vector : Pointer) (cols row : Int) : Tally R :=
  nothing.upTo (along m matrix (row * cols)) (along m vector 0) cols.toNat

def unrolledTally (m : Memory R) (matrix vector : Pointer) (cols row : Int) : Tally R :=
  unrolled (along m matrix (row * cols)) (along m vector 0) cols.toNat

/-- The tally of a row whose entries lie in memory column by column. -/
def colTally (m : Memory R) (matrix vector : Pointer) (rows row : Int) (n : Nat) : Tally R :=
  nothing.upTo (fun col => m.view matrix (col * rows + row)) (fun col => m.view vector col) n

theorem col_tally_succ {k : Nat} : colTally m matrix vector rows row (k + 1) =
    (colTally m matrix vector rows row k).product (m.view matrix (k * rows + row))
      (m.view vector k) := rfl

theorem add_to_row_computes (ops : Arithmetic R)
    (held : Computes matrix vector result m cells n)
    (apart : Apart matrix vector result) (rows col row : Int) :
    Computes matrix vector result m
      (Function.update cells row (ops.addProduct (cells row) (m.view matrix (col * rows + row))
        (m.view vector col)))
      (addToRow ops matrix vector result rows col row n) := by
  have value : ops.addProduct (n.view result row) (n.view matrix (col * rows + row))
      (n.view vector col) = ops.addProduct (cells row) (m.view matrix (col * rows + row))
        (m.view vector col) := by
    rw [held.matrix, held.vector, held.result]
  rw [← value]
  have read : (addProduct ops matrix vector (col * rows + row) col ((n.load result row).1,
      (n.load result row).2.computed [col * rows, col * rows + row])).2.cells = n.cells := rfl
  exact (held.reading read).store apart row _

theorem column_computes (ops : Arithmetic R)
    (held : Computes matrix vector result m cells n)
    (apart : Apart matrix vector result) (nonneg : 0 ≤ rows) (col : Int) :
    Computes matrix vector result m
      (filled cells rows fun row => ops.addProduct (cells row) (m.view matrix (col * rows + row))
        (m.view vector col))
      (forBelow rows 1 (fun row n => addToRow ops matrix vector result rows col row n) 0 n).2 := by
  refine count_rule (fun row n => Computes matrix vector result m (filled cells row fun row =>
    ops.addProduct (cells row) (m.view matrix (col * rows + row)) (m.view vector col)) n) ?_ nonneg
    (by rwa [filled_zero])
  intro row n low high held
  have added := add_to_row_computes ops held apart rows col row
  rw [filled_outside (by omega), filled_succ low] at added
  exact added

variable [CommRing R]

theorem row_major_computes (ops : Arithmetic R)
    (apart : Apart matrix vector result) (some_row : 0 < rows)
    (some_col : 0 < cols) : Computes matrix vector result m
      (filled (m.view result) rows fun row => (rowTally m matrix vector cols row).value ops)
      (multiplyMvRowMajor ops (some matrix) rows cols (some vector) (some result) m) := by
  simp only [multiplyMvRowMajor, checked_accepts (accepted some_row some_col)]
  refine rows_compute apart (rowProduct ops matrix vector cols) ?_ some_row
  intro row n left right
  have tallied := row_product_tallied ops matrix vector some_col.le row n
  rw [along_congr left, along_congr right] at tallied
  exact ⟨tallied.value, tallied.cells⟩

theorem optimised_computes (ops : Arithmetic R)
    (apart : Apart matrix vector result) (some_row : 0 < rows)
    (some_col : 0 < cols) : Computes matrix vector result m
      (filled (m.view result) rows fun row => (unrolledTally m matrix vector cols row).value ops)
      (multiplyMvRowMajorOptimised ops (some matrix) rows cols (some vector) (some result) m) := by
  simp only [multiplyMvRowMajorOptimised, checked_accepts (accepted some_row some_col)]
  refine rows_compute apart (fun row n => dotProductUnrolledAligned ops (matrix.plus (row * cols))
    vector cols (n.computed [row * cols])) ?_ some_row
  intro row n left right
  have tallied := dot_product_tallied ops (matrix.plus (row * cols)) vector some_col.le
    (n.computed [row * cols])
  have left : (n.computed [row * cols]).view matrix = m.view matrix := left
  have right : (n.computed [row * cols]).view vector = m.view vector := right
  rw [along_plus, along_congr left, along_congr right] at tallied
  exact ⟨tallied.value, tallied.cells⟩

theorem col_major_computes (ops : Arithmetic R)
    (apart : Apart matrix vector result) (some_row : 0 < rows)
    (some_col : 0 < cols) (name : String) : Computes matrix vector result m
      (filled (m.view result) rows fun row =>
        (colTally m matrix vector rows row cols.toNat).value ops)
      (colMajor ops name (some matrix) rows cols (some vector) (some result) m) := by
  simp only [colMajor, checked_accepts (accepted some_row some_col)]
  have zeros : Computes matrix vector result m (filled (m.view result) rows fun _ => 0)
      (forBelow rows 1 (fun row n => n.store result row 0) 0 m).2 :=
    count_rule
      (fun row n => Computes matrix vector result m (filled (m.view result) row fun _ => 0) n)
      (fun row n low _ held => held.fill apart low) some_row.le ⟨rfl, rfl, filled_zero.symm⟩
  refine count_rule (fun col n => Computes matrix vector result m (filled (m.view result) rows
    fun row => (colTally m matrix vector rows row col.toNat).value ops) n) ?_ some_col.le zeros
  intro col n low high held
  have added := column_computes ops held apart some_row.le col
  rw [filled_again] at added
  have next : (col + 1).toNat = col.toNat + 1 := by omega
  have summed : (filled (m.view result) rows fun row => ops.addProduct
        (filled (m.view result) rows (fun row =>
          (colTally m matrix vector rows row col.toNat).value ops) row)
        (m.view matrix (col * rows + row)) (m.view vector col)) =
      filled (m.view result) rows fun row =>
        (colTally m matrix vector rows row (col + 1).toNat).value ops :=
    filled_congr fun row inside below => by
      rw [filled_inside inside below, next, col_tally_succ, Tally.value, Int.toNat_of_nonneg low]
  rwa [summed] at added

def elementTally (m : Memory R) (p q : Pointer) (inner : Int) (f g : Int → Int → Int → Int)
    (i j : Int) : Tally R :=
  nothing.upTo (fun k => m.view p (f i j k)) (fun k => m.view q (g i j k)) inner.toNat

theorem one_element_stores {term : Int → R × Memory R → R × Memory R} {t : Tally R} {r : Pointer}
    (tallied : Tallied ops m t (forBelow inner 1 term 0 (0, m)).2) (begin j : Int) :
    ∃ n : Memory R, n.cells = m.cells ∧
      oneElement r inner begin j term m = n.store r (begin + j) (t.value ops) := by
  refine ⟨(forBelow inner 1 term 0 (0, m)).2.2.computed [begin, begin + j], tallied.cells, ?_⟩
  rw [← tallied.value]
  rfl

theorem each_element_computes (ops : Arithmetic R) {p q r : Pointer} {start : Int → Int}
    (apart : Apart p q r) (starts : ∀ i, start i = i * cols) (rows_nonneg : 0 ≤ rows)
    (cols_nonneg : 0 ≤ cols) (inner_nonneg : 0 ≤ inner) (f g : Int → Int → Int → Int)
    (values : Int → Int → Int → List Int) (m : Memory R) :
    Computes p q r m
      (filled (m.view r) (rows * cols) fun t =>
        (elementTally m p q inner f g (t / cols) (t % cols)).value ops)
      (eachElement r rows cols inner start (fun i j k (temp, m) =>
        addProduct ops p q (f i j k) (g i j k) (temp, m.computed (values i j k))) m) := by
  refine nested_rule (fun t n => Computes p q r m (filled (m.view r) t fun t =>
    (elementTally m p q inner f g (t / cols) (t % cols)).value ops) n) ?_ rows_nonneg cols_nonneg
    ⟨rfl, rfl, filled_zero.symm⟩
  intro i j n i_nonneg i_below j_nonneg j_below held
  obtain ⟨n', same, stored⟩ := one_element_stores (r := r)
    (element_tallied ops p q (f i j) (g i j) (values i j) inner_nonneg n) (start i) j
  have value : nothing.upTo (fun k : Nat => n.view p (f i j k)) (fun k : Nat => n.view q (g i j k))
      inner.toNat =
        elementTally m p q inner f g ((i * cols + j) / cols) ((i * cols + j) % cols) := by
    rw [place_row j_nonneg j_below, place_col j_nonneg j_below, held.matrix, held.vector]
    rfl
  rw [stored, starts, value]
  exact (held.reading same).fill apart (place_inside i_nonneg i_below j_nonneg j_below).1

end Computed
end Phase1.Rounding
