import TradingSystems.Library.Loops
import TradingSystems.Library.RoundedSums

/- The memory of the matrix kernels, and the kernels in an arithmetic that may round, such as
   that of doubles. A memory keeps the addresses that were read and written, and the values
   that the index expressions took; these are not bounded here. Arrays of different names do
   not overlap. -/
namespace Phase1
open Loops RoundedSums

inductive Operand where
  | left
  | right
  | product
  deriving DecidableEq, Repr

structure Pointer where
  array : Operand
  offset : Int
  deriving DecidableEq, Repr

def Pointer.plus (p : Pointer) (i : Int) : Pointer := ⟨p.array, p.offset + i⟩

structure Memory (R : Type) where
  cells : Operand → Int → R
  reads : List Pointer
  writes : List Pointer
  ints : List Int
  cerr : List String

namespace Memory
variable {R : Type}

/-- The array that a pointer points to. -/
def view (m : Memory R) (p : Pointer) (i : Int) : R := m.cells p.array (p.offset + i)

def load (m : Memory R) (p : Pointer) (i : Int) : R × Memory R :=
  (m.view p i, { m with reads := m.reads ++ [p.plus i] })

def store (m : Memory R) (p : Pointer) (i : Int) (x : R) : Memory R :=
  { m with
    cells := Function.update m.cells p.array
      (Function.update (m.cells p.array) (p.offset + i) x)
    writes := m.writes ++ [p.plus i] }

def computed (m : Memory R) (values : List Int) : Memory R := { m with ints := m.ints ++ values }

def report (m : Memory R) (line : String) : Memory R := { m with cerr := m.cerr ++ [line] }

end Memory

def checked {R : Type} (name : String) (first second result : Option Pointer)
    (dimensions : List Int) (m : Memory R) (body : Pointer → Pointer → Pointer → Memory R) :
    Memory R :=
  match first, second, result with
  | some first, some second, some result =>
    if ∃ d ∈ dimensions, d ≤ 0 then m.report "[ERROR] Invalid matrix dimensions.\n"
    else body first second result
  | _, _, _ => m.report ("[ERROR] Null pointer passed to " ++ name ++ ".\n")

section Checks
variable {R : Type} {dimensions : List Int} {name : String} {p q r : Pointer} {m : Memory R}
  {body : Pointer → Pointer → Pointer → Memory R}

theorem checked_accepts (valid : ¬ ∃ d ∈ dimensions, d ≤ 0) :
    checked name (some p) (some q) (some r) dimensions m body = body p q r := if_neg valid

theorem checked_rejects (invalid : ∃ d ∈ dimensions, d ≤ 0) :
    checked name (some p) (some q) (some r) dimensions m body =
      m.report "[ERROR] Invalid matrix dimensions.\n" := if_pos invalid

end Checks

section Elements
variable {R : Type} [CommRing R]

def oneElement (result : Pointer) (colsA start j : Int)
    (term : Int → R × Memory R → R × Memory R) (m : Memory R) : Memory R :=
  let (temp, m) := (forBelow colsA 1 term 0 (0, m)).2
  (m.computed [start, start + j]).store result (start + j) temp

def eachElement (result : Pointer) (rowsA colsB colsA : Int) (start : Int → Int)
    (term : Int → Int → Int → R × Memory R → R × Memory R) (m : Memory R) : Memory R :=
  (forBelow rowsA 1 (fun i m =>
    (forBelow colsB 1 (fun j m =>
      oneElement result colsA (start i) j (term i j) m) 0 m).2) 0 m).2

end Elements

structure Unrolled (R : Type) where
  sum0 : R
  sum1 : R
  sum2 : R
  sum3 : R
  memory : Memory R

namespace Rounding
section Kernels
variable {R : Type} [CommRing R] (ops : Arithmetic R)

def addProduct (p q : Pointer) (i j : Int) (s : R × Memory R) : R × Memory R :=
  let (temp, m) := s
  let (a, m) := m.load p i
  let (b, m) := m.load q j
  (ops.addProduct temp a b, m)

def rowProduct (matrix vector : Pointer) (cols row : Int) (m : Memory R) : R × Memory R :=
  (forBelow cols 1 (fun col (temp, m) =>
    addProduct ops matrix vector (row * cols + col) col
      (temp, m.computed [row * cols, row * cols + col])) 0 (0, m)).2

def multiplyMvRowMajor (matrix : Option Pointer) (rows cols : Int)
    (vector result : Option Pointer) (m : Memory R) : Memory R :=
  checked "multiply_mv_row_major" matrix vector result [rows, cols] m
    fun matrix vector result =>
      (forBelow rows 1 (fun row m =>
        let (temp, m) := rowProduct ops matrix vector cols row m
        m.store result row temp) 0 m).2

def round (row vector : Pointer) (i : Int) (s : Unrolled R) : Unrolled R :=
  let (sum0, m) := addProduct ops row vector i i (s.sum0, s.memory)
  let (sum1, m) := addProduct ops row vector (i + 1) (i + 1) (s.sum1, m.computed [i + 1])
  let (sum2, m) := addProduct ops row vector (i + 2) (i + 2) (s.sum2, m.computed [i + 2])
  let (sum3, m) := addProduct ops row vector (i + 3) (i + 3) (s.sum3, m.computed [i + 3])
  ⟨sum0, sum1, sum2, sum3, m⟩

def total (s : Unrolled R) : R := ops.add (ops.add (ops.add s.sum0 s.sum1) s.sum2) s.sum3

/-- The first condition is `i <= cols - 4`; the second loop goes on with its counter. -/
def dotProductUnrolledAligned (row vector : Pointer) (cols : Int) (m : Memory R) :
    R × Memory R :=
  let (i, s) := forBelow (cols - 3) 4 (round ops row vector) 0 ⟨0, 0, 0, 0, m⟩
  (forBelow cols 1 (fun i s => addProduct ops row vector i i s) i (total ops s, s.memory)).2

def multiplyMvRowMajorOptimised (matrix : Option Pointer) (rows cols : Int)
    (vector result : Option Pointer) (m : Memory R) : Memory R :=
  checked "multiply_mv_row_major_optimised" matrix vector result [rows, cols] m
    fun matrix vector result =>
      (forBelow rows 1 (fun row m =>
        let rowPtr := matrix.plus (row * cols)
        let (total, m) := dotProductUnrolledAligned ops rowPtr vector cols
          (m.computed [row * cols])
        m.store result row total) 0 m).2

def addToRow (matrix vector result : Pointer) (rows col row : Int) (m : Memory R) : Memory R :=
  let (temp, m) := m.load result row
  let (temp, m) := addProduct ops matrix vector (col * rows + row) col
    (temp, m.computed [col * rows, col * rows + row])
  m.store result row temp

def colMajor (name : String) (matrix : Option Pointer) (rows cols : Int)
    (vector result : Option Pointer) (m : Memory R) : Memory R :=
  checked name matrix vector result [rows, cols] m fun matrix vector result =>
    let (_, m) := forBelow rows 1 (fun row m => m.store result row 0) 0 m
    (forBelow cols 1 (fun col m => (forBelow rows 1 (fun row m =>
      addToRow ops matrix vector result rows col row m) 0 m).2) 0 m).2

def multiplyMvColMajor (matrix : Option Pointer) (rows cols : Int)
    (vector result : Option Pointer) (m : Memory R) : Memory R :=
  colMajor ops "multiply_mv_col_major" matrix rows cols vector result m

def multiplyMvColMajorInline (matrix : Option Pointer) (rows cols : Int)
    (vector result : Option Pointer) (m : Memory R) : Memory R :=
  colMajor ops "multiply_mv_col_major_inline" matrix rows cols vector result m

def multiplyMmNaive (matrixA : Option Pointer) (rowsA colsA : Int) (matrixB : Option Pointer)
    (rowsB colsB : Int) (result : Option Pointer) (m : Memory R) : Memory R :=
  checked "multiply_mm_naive" matrixA matrixB result [rowsA, colsA, rowsB, colsB] m
    fun matrixA matrixB result =>
      if colsA ≠ rowsB then
        m.report "[ERROR] Incompatible matrix dimensions for multiplication.\n"
      else
        eachElement result rowsA colsB colsA (colsB * ·) (fun rowA colB colA (dotResult, m) =>
          addProduct ops matrixA matrixB (colsA * rowA + colA) (colsB * colA + colB)
            (dotResult, m.computed [colsA * rowA, colsA * rowA + colA,
              colsB * colA, colsB * colA + colB])) m

def multiplyMmTransposedB (matrixA : Option Pointer) (rowsA colsA : Int)
    (matrixBTransposed : Option Pointer) (rowsB colsB : Int) (result : Option Pointer)
    (m : Memory R) : Memory R :=
  checked "multiply_mm_transposed_b" matrixA matrixBTransposed result
    [rowsA, colsA, rowsB, colsB] m fun matrixA matrixBTransposed result =>
      eachElement result rowsA colsB colsA (· * colsB) (fun i j k (temp, m) =>
        addProduct ops matrixA matrixBTransposed (i * colsA + k) (j * rowsB + k)
          (temp, m.computed [i * colsA, i * colsA + k, j * rowsB, j * rowsB + k])) m

/-- `multiply_element` is inlined here, so that its product can be fused with the sum. -/
def multiplyMmTransposedBInline (matrixA : Option Pointer) (rowsA colsA : Int)
    (matrixBTransposed : Option Pointer) (rowsB colsB : Int) (result : Option Pointer)
    (m : Memory R) : Memory R :=
  checked "multiply_mm_transposed_b" matrixA matrixBTransposed result
    [rowsA, colsA, rowsB, colsB] m fun matrixA matrixBTransposed result =>
      eachElement result rowsA colsB colsA (· * colsB) (fun i j k (temp, m) =>
        addProduct ops matrixA matrixBTransposed (colsA * i + k) (rowsB * j + k)
          (temp, m.computed [colsA * i, colsA * i + k, rowsB * j, rowsB * j + k])) m

end Kernels
end Rounding
end Phase1
