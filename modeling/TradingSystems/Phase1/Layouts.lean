import TradingSystems.Phase1.MatrixOps
import Mathlib.Algebra.BigOperators.Fin
import Mathlib.Data.Matrix.Mul

/- What the matrix-vector kernels compute. A matrix lies in memory row by row or column by
   column; in the second case the sums of all rows grow side by side in the result. -/
namespace Phase1
open Loops

/-- The factors are as they were, and the product has these cells. -/
structure Computes {R : Type} (matrix vector result : Pointer) (m : Memory R) (cells : Int → R)
    (n : Memory R) : Prop where
  matrix : n.view matrix = m.view matrix
  vector : n.view vector = m.view vector
  result : n.view result = cells

structure Apart (matrix vector result : Pointer) : Prop where
  matrix : matrix.array ≠ result.array
  vector : vector.array ≠ result.array

section Products
variable {R : Type} {matrix vector result : Pointer} {m n : Memory R}
  {cells value : Int → R} {rows cols row col : Int}

theorem Computes.store (held : Computes matrix vector result m cells n)
    (apart : Apart matrix vector result) (i : Int) (x : R) :
    Computes matrix vector result m (Function.update cells i x) (n.store result i x) where
  matrix := (store_view_other apart.matrix).trans held.matrix
  vector := (store_view_other apart.vector).trans held.vector
  result := by rw [store_view, held.result]

theorem Computes.reading (held : Computes matrix vector result m cells n) {n' : Memory R}
    (same : n'.cells = n.cells) : Computes matrix vector result m cells n' where
  matrix := (view_cells same).trans held.matrix
  vector := (view_cells same).trans held.vector
  result := (view_cells same).trans held.result

/-- The cells are given their values one by one. -/
theorem Computes.fill (held : Computes matrix vector result m (filled cells row value) n)
    (apart : Apart matrix vector result) (nonneg : 0 ≤ row) :
    Computes matrix vector result m (filled cells (row + 1) value)
      (n.store result row (value row)) := by
  rw [← filled_succ nonneg]
  exact held.store apart row (value row)

variable [CommRing R]

def rowSum (m : Memory R) (matrix vector : Pointer) (cols row : Int) : R :=
  sumTo cols fun col => m.view matrix (row * cols + col) * m.view vector col

def colTerm (m : Memory R) (matrix vector : Pointer) (rows col row : Int) : R :=
  m.view matrix (col * rows + row) * m.view vector col

theorem row_product_value (held : Computes matrix vector result m cells n) (nonneg : 0 ≤ cols)
    (row : Int) : (rowProduct matrix vector cols row n).1 = rowSum m matrix vector cols row := by
  rw [(row_product_summed matrix vector nonneg row n).total, held.matrix, held.vector]
  rfl

theorem accepted (some_row : 0 < rows) (some_col : 0 < cols) :
    ¬ ∃ d ∈ [rows, cols], d ≤ 0 := by
  simp only [List.mem_cons, List.not_mem_nil, or_false, exists_eq_or_imp, exists_eq_left]
  omega

theorem row_major_computes (apart : Apart matrix vector result) (some_row : 0 < rows)
    (some_col : 0 < cols) : Computes matrix vector result m
      (filled (m.view result) rows (rowSum m matrix vector cols))
      (multiplyMvRowMajor (some matrix) rows cols (some vector) (some result) m) := by
  simp only [multiplyMvRowMajor, Rounding.multiplyMvRowMajor, row_product_unrounded,
    checked_accepts (accepted some_row some_col)]
  refine count_rule (fun row n => Computes matrix vector result m
    (filled (m.view result) row (rowSum m matrix vector cols)) n) ?_ some_row.le
    ⟨rfl, rfl, filled_zero.symm⟩
  intro row n low high held
  have read := (row_product_summed matrix vector some_col.le row n).cells
  rw [row_product_value held some_col.le row]
  exact (held.reading read).fill apart low

theorem add_to_row_computes (held : Computes matrix vector result m cells n)
    (apart : Apart matrix vector result) (rows col row : Int) :
    Computes matrix vector result m
      (Function.update cells row (cells row + colTerm m matrix vector rows col row))
      (addToRow matrix vector result rows col row n) := by
  have value : n.view result row + n.view matrix (col * rows + row) * n.view vector col =
      cells row + colTerm m matrix vector rows col row := by
    rw [held.matrix, held.vector, held.result, colTerm]
  have read : (addProduct matrix vector (col * rows + row) col ((n.load result row).1,
      (n.load result row).2.computed [col * rows, col * rows + row])).2.cells = n.cells := rfl
  rw [← value]
  exact (held.reading read).store apart row _

theorem column_computes (held : Computes matrix vector result m cells n)
    (apart : Apart matrix vector result) (nonneg : 0 ≤ rows) (col : Int) :
    Computes matrix vector result m
      (filled cells rows fun row => cells row + colTerm m matrix vector rows col row)
      (forBelow rows 1 (fun row n => addToRow matrix vector result rows col row n) 0 n).2 := by
  refine count_rule (fun row n => Computes matrix vector result m
    (filled cells row fun row => cells row + colTerm m matrix vector rows col row) n) ?_ nonneg
    (by rwa [filled_zero])
  intro row n low high held
  have added := add_to_row_computes held apart rows col row
  have unchanged : filled cells row (fun row => cells row + colTerm m matrix vector rows col row)
      row = cells row := filled_outside (by omega)
  rwa [unchanged, filled_succ low] at added

theorem col_major_computes (apart : Apart matrix vector result) (some_row : 0 < rows)
    (some_col : 0 < cols) (name : String) : Computes matrix vector result m
      (filled (m.view result) rows fun row =>
        sumTo cols fun col => colTerm m matrix vector rows col row)
      (colMajor name (some matrix) rows cols (some vector) (some result) m) := by
  simp only [colMajor, Rounding.colMajor, add_to_row_unrounded,
    checked_accepts (accepted some_row some_col)]
  have zeros : Computes matrix vector result m (filled (m.view result) rows fun _ => 0)
      (forBelow rows 1 (fun row n => n.store result row 0) 0 m).2 :=
    count_rule
      (fun row n => Computes matrix vector result m (filled (m.view result) row fun _ => 0) n)
      (fun row n low _ held => held.fill apart low) some_row.le ⟨rfl, rfl, filled_zero.symm⟩
  refine count_rule (fun col n => Computes matrix vector result m (filled (m.view result) rows
    fun row => sumTo col fun col => colTerm m matrix vector rows col row) n) ?_ some_col.le zeros
  intro col n low high held
  have added := column_computes held apart some_row.le col
  rw [filled_again] at added
  have summed : (filled (m.view result) rows fun row =>
      filled (m.view result) rows (fun row => sumTo col fun col =>
        colTerm m matrix vector rows col row) row + colTerm m matrix vector rows col row) =
      filled (m.view result) rows fun row =>
        sumTo (col + 1) fun col => colTerm m matrix vector rows col row :=
    filled_congr fun row inside below => by
      rw [filled_inside inside below, sum_to_succ low]
  rwa [summed] at added

end Products

section Layouts
variable {R : Type} {rows cols : Nat}

/-- A call's arrays, with whatever lies behind their ends. -/
def operands (left right product : Int → R) : Memory R where
  cells
    | .left => left
    | .right => right
    | .product => product
  reads := []
  writes := []
  ints := []
  cerr := []

def RowMajor (M : Matrix (Fin rows) (Fin cols) R) (cells : Int → R) : Prop :=
  ∀ (row : Fin rows) (col : Fin cols), cells (row * cols + col) = M row col

def ColMajor (M : Matrix (Fin rows) (Fin cols) R) (cells : Int → R) : Prop :=
  ∀ (row : Fin rows) (col : Fin cols), cells (col * rows + row) = M row col

def Holds (v : Fin cols → R) (cells : Int → R) : Prop := ∀ col : Fin cols, cells col = v col

abbrev leftAt : Pointer := ⟨.left, 0⟩
abbrev rightAt : Pointer := ⟨.right, 0⟩
abbrev productAt : Pointer := ⟨.product, 0⟩

theorem operands_view (left right product : Int → R) :
    (operands left right product).view leftAt = left ∧
      (operands left right product).view rightAt = right ∧
      (operands left right product).view productAt = product := by
  refine ⟨?_, ?_, ?_⟩ <;>
  · funext i
    simp [Memory.view, operands]

theorem product_cells (m : Memory R) : m.cells .product = m.view productAt := by
  funext i
  simp [Memory.view]

variable [CommRing R] {M : Matrix (Fin rows) (Fin cols) R} {v : Fin cols → R}

/-- The product of matrix and vector, in front of what the array held. -/
def multiplied (M : Matrix (Fin rows) (Fin cols) R) (v : Fin cols → R) (cells : Int → R) :
    Int → R :=
  fun i => if inside : 0 ≤ i ∧ i < rows then M.mulVec v ⟨i.toNat, by omega⟩ else cells i

theorem sum_to_mul_vec {f : Int → R} {row : Fin rows}
    (term : ∀ col : Fin cols, f col = M row col * v col) : sumTo cols f = M.mulVec v row := by
  rw [sumTo, Int.toNat_natCast, Finset.sum_range]
  exact Finset.sum_congr rfl fun col _ => term col

theorem filled_multiplied {value cells : Int → R}
    (rowwise : ∀ row : Fin rows, value row = M.mulVec v row) :
    filled cells rows value = multiplied M v cells := by
  funext i
  by_cases inside : 0 ≤ i ∧ i < rows
  · have row := rowwise ⟨i.toNat, by omega⟩
    rw [filled_inside inside.1 inside.2, multiplied, dif_pos inside, ← row]
    exact congrArg value (Int.toNat_of_nonneg inside.1).symm
  · rw [filled_outside inside, multiplied, dif_neg inside]

theorem operands_apart : Apart leftAt rightAt productAt := ⟨by decide, by decide⟩

theorem row_major_product {byRow vector : Int → R} (row : RowMajor M byRow)
    (holds : Holds v vector) (some_row : 0 < rows) (some_col : 0 < cols) (result : Int → R) :
    (multiplyMvRowMajor (some leftAt) rows cols (some rightAt) (some productAt)
      (operands byRow vector result)).cells .product = multiplied M v result := by
  obtain ⟨left, right, product⟩ := operands_view byRow vector result
  have computed := (row_major_computes (m := operands byRow vector result) operands_apart
    (Int.natCast_pos.mpr some_row) (Int.natCast_pos.mpr some_col)).result
  rw [product_cells, computed, product]
  refine filled_multiplied fun i => sum_to_mul_vec fun j => ?_
  rw [left, right, row i j, holds j]

theorem col_major_product {byCol vector : Int → R} (col : ColMajor M byCol)
    (holds : Holds v vector) (some_row : 0 < rows) (some_col : 0 < cols) (result : Int → R)
    (name : String) :
    (colMajor name (some leftAt) rows cols (some rightAt) (some productAt)
      (operands byCol vector result)).cells .product = multiplied M v result := by
  obtain ⟨left, right, product⟩ := operands_view byCol vector result
  have computed := (col_major_computes (m := operands byCol vector result) operands_apart
    (Int.natCast_pos.mpr some_row) (Int.natCast_pos.mpr some_col) name).result
  rw [product_cells, computed, product]
  refine filled_multiplied fun i => sum_to_mul_vec fun j => ?_
  rw [colTerm, left, right, col i j, holds j]

/-- The kernels for both layouts compute the product of the matrix and the vector. -/
theorem layouts_agree {byRow byCol vector result : Int → R} (some_row : 0 < rows)
    (some_col : 0 < cols) (row : RowMajor M byRow) (col : ColMajor M byCol)
    (holds : Holds v vector) :
    let plain := multiplyMvRowMajor (some leftAt) rows cols (some rightAt) (some productAt)
      (operands byRow vector result)
    plain.cells .product = multiplied M v result ∧
    (multiplyMvColMajor (some leftAt) rows cols (some rightAt) (some productAt)
      (operands byCol vector result)).cells .product = plain.cells .product ∧
    (multiplyMvColMajorInline (some leftAt) rows cols (some rightAt) (some productAt)
      (operands byCol vector result)).cells .product = plain.cells .product := by
  have plain := row_major_product row holds some_row some_col result
  refine ⟨plain, ?_, ?_⟩
  · exact (col_major_product col holds some_row some_col result _).trans plain.symm
  · exact (col_major_product col holds some_row some_col result _).trans plain.symm

theorem layouts_agree_two_rows :
    let byCol := multiplyMvColMajor (some leftAt) 2 3 (some rightAt) (some productAt)
      (operands (fun i => 3 * (i % 2) + i / 2 + 1) (fun i => 10 ^ i.toNat) fun _ => (0 : Int))
    byCol.cells .product 0 = 321 ∧ byCol.cells .product 1 = 654 ∧
      byCol.cells .product = (multiplyMvRowMajor (some leftAt) 2 3 (some rightAt) (some productAt)
        (operands (· + 1) (fun i => 10 ^ i.toNat) fun _ => 0)).cells .product := by
  refine ⟨by decide +kernel, by decide +kernel, ?_⟩
  exact (layouts_agree (M := fun (i : Fin 2) (j : Fin 3) => 3 * (i : Int) + j + 1)
    (v := fun j => 10 ^ j.val) (by decide) (by decide) (by unfold RowMajor; decide)
    (by unfold ColMajor; decide) (by unfold Holds; decide)).2.1

end Layouts
end Phase1
