import TradingSystems.Phase1.Layouts

/- The matrix-matrix kernels. The place of element (i, j) in the result is a number that
   counts up from 0 as the loops go on, so a run fills the result from its front. -/
namespace Phase1
open Loops RoundedSums

section Kernels
variable {R : Type} [CommRing R]

def multiplyMmNaive (matrixA : Option Pointer) (rowsA colsA : Int) (matrixB : Option Pointer)
    (rowsB colsB : Int) (result : Option Pointer) (m : Memory R) : Memory R :=
  Rounding.multiplyMmNaive unrounded matrixA rowsA colsA matrixB rowsB colsB result m

/-- Its body ends after the checks. -/
def multiplyMmNaiveInline (matrixA : Option Pointer) (rowsA colsA : Int)
    (matrixB : Option Pointer) (rowsB colsB : Int) (result : Option Pointer) (m : Memory R) :
    Memory R :=
  checked "multiply_mm_naive_inline" matrixA matrixB result [rowsA, colsA, rowsB, colsB] m
    fun _ _ _ => m

def multiplyMmTransposedB (matrixA : Option Pointer) (rowsA colsA : Int)
    (matrixBTransposed : Option Pointer) (rowsB colsB : Int) (result : Option Pointer)
    (m : Memory R) : Memory R :=
  Rounding.multiplyMmTransposedB unrounded matrixA rowsA colsA matrixBTransposed rowsB colsB
    result m

def multiplyElement (matrixA matrixB : Pointer) (i j k colsA rowsB : Int) (m : Memory R) :
    R × Memory R :=
  let m := m.computed [colsA * i, colsA * i + k, rowsB * j, rowsB * j + k]
  let (a, m) := m.load matrixA (colsA * i + k)
  let (b, m) := m.load matrixB (rowsB * j + k)
  (a * b, m)

/-- It reports a null pointer under the other kernel's name. -/
def multiplyMmTransposedBInline (matrixA : Option Pointer) (rowsA colsA : Int)
    (matrixBTransposed : Option Pointer) (rowsB colsB : Int) (result : Option Pointer)
    (m : Memory R) : Memory R :=
  checked "multiply_mm_transposed_b" matrixA matrixBTransposed result
    [rowsA, colsA, rowsB, colsB] m fun matrixA matrixBTransposed result =>
      eachElement result rowsA colsB colsA (· * colsB) (fun i j k (temp, m) =>
        let (product, m) := multiplyElement matrixA matrixBTransposed i j k colsA rowsB m
        (temp + product, m)) m

theorem transposed_inline_unrounded : Rounding.multiplyMmTransposedBInline
    (unrounded : Arithmetic R) = multiplyMmTransposedBInline := rfl

theorem transposed_inline_eq (matrixA : Option Pointer) (rowsA colsA : Int)
    (matrixB : Option Pointer) (rowsB colsB : Int) (result : Option Pointer) (m : Memory R) :
    multiplyMmTransposedBInline matrixA rowsA colsA matrixB rowsB colsB result m =
      multiplyMmTransposedB matrixA rowsA colsA matrixB rowsB colsB result m := by
  simp only [← transposed_inline_unrounded, Rounding.multiplyMmTransposedBInline,
    Int.mul_comm colsA, Int.mul_comm rowsB]
  rfl

theorem accepted_dimensions {rowsA colsA rowsB colsB : Int} :
    (¬ ∃ d ∈ [rowsA, colsA, rowsB, colsB], d ≤ 0) ↔
      0 < rowsA ∧ 0 < colsA ∧ 0 < rowsB ∧ 0 < colsB := by
  simp

end Kernels

section Unchanged
variable {R : Type} {r : Pointer} {m n : Memory R} {value : Int → R} {x : R} {t : Int}

/-- The places below `t` had their values from the start and nothing changed, or one of them
    had not and its new value stays. -/
def Decided (m : Memory R) (r : Pointer) (value : Int → R) (t : Int) (n : Memory R) : Prop :=
  ((∀ i, 0 ≤ i → i < t → m.view r i = value i) ∧ n.cells = m.cells) ∨
    ∃ i, 0 ≤ i ∧ i < t ∧ m.view r i ≠ value i ∧ ∃ j, j < t ∧ n.view r j ≠ m.view r j

theorem Decided.store (held : Decided m r value t n)
    (nonneg : 0 ≤ t) (computed : n.cells = m.cells → x = value t) :
    Decided m r value (t + 1) (n.store r t x) := by
  rcases held with ⟨before, same⟩ | ⟨i, i_nonneg, i_below, i_other, j, j_below, j_other⟩
  · rw [computed same]
    by_cases already : m.view r t = value t
    · refine .inl ⟨fun i low high => ?_, ?_⟩
      · rcases lt_or_eq_of_le (Int.lt_add_one_iff.mp high) with below | rfl
        · exact before i low below
        · exact already
      · rw [store_held (by rwa [view_cells same]), same]
    · refine .inr ⟨t, nonneg, by omega, already, t, by omega, ?_⟩
      rw [store_view, Function.update_self]
      exact Ne.symm already
  · refine .inr ⟨i, i_nonneg, by omega, i_other, j, by omega, ?_⟩
    rwa [store_view, Function.update_of_ne j_below.ne]

theorem Decided.same_iff (held : Decided m r value t n) :
    n.cells = m.cells ↔ ∀ i, 0 ≤ i → i < t → m.view r i = value i := by
  rcases held with ⟨before, same⟩ | ⟨i, i_nonneg, i_below, i_other, j, _, j_other⟩
  · exact iff_of_true same before
  · exact iff_of_false (fun same => j_other (by rw [view_cells same]))
      fun all => i_other (all i i_nonneg i_below)

end Unchanged

section Elements
variable {R : Type} [CommRing R] {p q r : Pointer} {m n : Memory R} {rows cols inner : Int}
  {start : Int → Int} {f g : Int → Int → Int → Int} {values : Int → Int → Int → List Int}

def element (m : Memory R) (p q : Pointer) (inner : Int) (f g : Int → Int → Int → Int)
    (i j : Int) : R :=
  sumTo inner fun k => m.view p (f i j k) * m.view q (g i j k)

theorem one_element_stores {term : Int → R × Memory R → R × Memory R} {products : Int → R}
    {reads : Int → List Pointer}
    (summed : Summed m products reads inner (forBelow inner 1 term 0 (0, m)).2) (begin j : Int) :
    ∃ n : Memory R, n.cells = m.cells ∧
      oneElement r inner begin j term m = n.store r (begin + j) (sumTo inner products) := by
  refine ⟨(forBelow inner 1 term 0 (0, m)).2.2.computed [begin, begin + j], summed.cells, ?_⟩
  rw [← summed.total]
  rfl

theorem each_element_computes (apart : Apart p q r) (starts : ∀ i, start i = i * cols)
    (rows_nonneg : 0 ≤ rows) (cols_nonneg : 0 ≤ cols) (inner_nonneg : 0 ≤ inner)
    (f g : Int → Int → Int → Int) (values : Int → Int → Int → List Int) (m : Memory R) :
    Computes p q r m
      (filled (m.view r) (rows * cols) fun t => element m p q inner f g (t / cols) (t % cols))
      (eachElement r rows cols inner start (fun i j k (temp, m) =>
        addProduct p q (f i j k) (g i j k) (temp, m.computed (values i j k))) m) := by
  refine nested_rule (fun t n => Computes p q r m (filled (m.view r) t fun t =>
    element m p q inner f g (t / cols) (t % cols)) n) ?_ rows_nonneg cols_nonneg
    ⟨rfl, rfl, filled_zero.symm⟩
  intro i j n i_nonneg i_below j_nonneg j_below held
  obtain ⟨n', same, stored⟩ := one_element_stores (r := r)
    (element_summed p q (f i j) (g i j) (values i j) inner_nonneg n) (start i) j
  have value : (sumTo inner fun k => n.view p (f i j k) * n.view q (g i j k)) =
      element m p q inner f g ((i * cols + j) / cols) ((i * cols + j) % cols) := by
    rw [place_row j_nonneg j_below, place_col j_nonneg j_below, held.matrix, held.vector]
    rfl
  rw [stored, starts, value]
  exact (held.reading same).fill apart (place_inside i_nonneg i_below j_nonneg j_below).1

theorem each_element_same_iff (starts : ∀ i, start i = i * cols) (rows_nonneg : 0 ≤ rows)
    (some_col : 0 < cols) (inner_nonneg : 0 ≤ inner) :
    (eachElement r rows cols inner start (fun i j k (temp, m) =>
        addProduct p q (f i j k) (g i j k) (temp, m.computed (values i j k))) m).cells = m.cells ↔
      ∀ i j, 0 ≤ i → i < rows → 0 ≤ j → j < cols →
        m.view r (i * cols + j) = element m p q inner f g i j := by
  let value (t : Int) : R := element m p q inner f g (t / cols) (t % cols)
  have placed {i j : Int} (nonneg : 0 ≤ j) (below : j < cols) :
      value (i * cols + j) = element m p q inner f g i j := by
    simp only [value, place_row nonneg below, place_col nonneg below]
  have decided : Decided m r value (rows * cols) (eachElement r rows cols inner start
      (fun i j k (temp, m) =>
        addProduct p q (f i j k) (g i j k) (temp, m.computed (values i j k))) m) := by
    refine nested_rule (Decided m r value) ?_ rows_nonneg some_col.le
      (.inl ⟨fun i low high => absurd high (not_lt.mpr low), rfl⟩)
    intro i j n i_nonneg i_below j_nonneg j_below held
    obtain ⟨n', same, stored⟩ := one_element_stores (r := r)
      (element_summed p q (f i j) (g i j) (values i j) inner_nonneg n) (start i) j
    rw [stored, starts]
    have read : Decided m r value (i * cols + j) n' := by
      rwa [Decided, same, view_cells same]
    refine read.store (place_inside i_nonneg i_below j_nonneg j_below).1 fun unchanged => ?_
    have first : n.cells = m.cells := same.symm.trans unchanged
    rw [placed j_nonneg j_below, view_cells first, view_cells first]
    rfl
  rw [decided.same_iff, forall_places some_col]
  refine forall₂_congr fun i j => ?_
  constructor
  · intro all i_nonneg i_below j_nonneg j_below
    rw [← placed j_nonneg j_below]
    exact all i_nonneg i_below j_nonneg j_below
  · intro all i_nonneg i_below j_nonneg j_below
    rw [placed j_nonneg j_below]
    exact all i_nonneg i_below j_nonneg j_below

end Elements

section Agreement
variable {R : Type} [CommRing R]

/-- The inline kernel leaves the arrays as multiply_mm_naive does if both reject the call or
    the result held the product before it. -/
theorem naive_inline_agrees_iff (matrixA matrixB result : Option Pointer)
    (rowsA colsA rowsB colsB : Int) (m : Memory R) :
    (multiplyMmNaiveInline matrixA rowsA colsA matrixB rowsB colsB result m).cells =
        (multiplyMmNaive matrixA rowsA colsA matrixB rowsB colsB result m).cells ↔
      ∀ a b r, matrixA = some a → matrixB = some b → result = some r →
        (0 < rowsA ∧ 0 < colsA ∧ 0 < rowsB ∧ 0 < colsB) → colsA = rowsB →
        ∀ i j, 0 ≤ i → i < rowsA → 0 ≤ j → j < colsB →
          m.view r (colsB * i + j) =
            sumTo colsA fun k => m.view a (colsA * i + k) * m.view b (colsB * k + j) := by
  rcases matrixA with _ | a
  · exact iff_of_true rfl (fun _ _ _ given => absurd given (by simp))
  rcases matrixB with _ | b
  · exact iff_of_true rfl (fun _ _ _ _ given => absurd given (by simp))
  rcases result with _ | r
  · exact iff_of_true rfl (fun _ _ _ _ _ given => absurd given (by simp))
  by_cases invalid : ∃ d ∈ [rowsA, colsA, rowsB, colsB], d ≤ 0
  · refine iff_of_true ?_ fun _ _ _ _ _ _ positive =>
      absurd invalid (accepted_dimensions.mpr positive)
    simp only [multiplyMmNaiveInline, multiplyMmNaive, Rounding.multiplyMmNaive,
      checked_rejects invalid]
  have positive := accepted_dimensions.mp invalid
  rw [multiplyMmNaiveInline, multiplyMmNaive, Rounding.multiplyMmNaive, checked_accepts invalid,
    checked_accepts invalid, add_product_unrounded]
  by_cases fits : colsA = rowsB
  · rw [if_neg (not_not.mpr fits), eq_comm, each_element_same_iff (fun i => mul_comm colsB i)
      positive.1.le positive.2.2.2 positive.2.1.le]
    simp only [element, mul_comm colsB]
    constructor
    · rintro all _ _ _ ⟨⟩ ⟨⟩ ⟨⟩ _ _
      exact all
    · intro all
      exact all a b r rfl rfl rfl positive fits
  · rw [if_pos fits]
    exact iff_of_true rfl fun _ _ _ _ _ _ _ same => absurd same fits

theorem naive_inline_keeps_result :
    (multiplyMmNaiveInline (some leftAt) 1 1 (some rightAt) 1 1 (some productAt)
        (operands (fun _ => 2) (fun _ => 3) fun _ => (0 : Int))).cells .product 0 = 0 ∧
      (multiplyMmNaive (some leftAt) 1 1 (some rightAt) 1 1 (some productAt)
        (operands (fun _ => 2) (fun _ => 3) fun _ => (0 : Int))).cells .product 0 = 6 := by
  decide

end Agreement

section Matrices
variable {R : Type} {rows inner cols : Nat}

def entries (M : Matrix (Fin rows) (Fin cols) R) (cells : Int → R) : Int → R :=
  filled cells (rows * cols) fun t =>
    if inside : (t / cols).toNat < rows ∧ (t % cols).toNat < cols then
      M ⟨(t / cols).toNat, inside.1⟩ ⟨(t % cols).toNat, inside.2⟩
    else cells t

theorem place_of (row : Fin rows) (col : Fin cols) :
    ((row * cols + col : Int) / cols).toNat = row ∧
      ((row * cols + col : Int) % cols).toNat = col := by
  have nonneg : (0 : Int) ≤ col := Int.natCast_nonneg _
  have below : (col : Int) < cols := Int.ofNat_lt.mpr col.isLt
  rw [place_row nonneg below, place_col nonneg below]
  exact ⟨Int.toNat_natCast _, Int.toNat_natCast _⟩

theorem filled_entries {M : Matrix (Fin rows) (Fin cols) R} {value cells : Int → R}
    (some_col : 0 < cols) (placed : ∀ (i : Fin rows) (j : Fin cols), value (i * cols + j) = M i j) :
    filled cells (rows * cols) value = entries M cells := by
  refine filled_congr ((forall_places (Int.natCast_pos.mpr some_col)).mpr ?_)
  intro i j i_nonneg i_below j_nonneg j_below
  obtain ⟨i, rfl⟩ := Int.eq_ofNat_of_zero_le i_nonneg
  obtain ⟨j, rfl⟩ := Int.eq_ofNat_of_zero_le j_nonneg
  have row : i < rows := Int.ofNat_lt.mp i_below
  have col : j < cols := Int.ofNat_lt.mp j_below
  obtain ⟨same_row, same_col⟩ := place_of ⟨i, row⟩ ⟨j, col⟩
  have inside := And.intro (same_row.trans_lt row) (same_col.trans_lt col)
  rw [dif_pos inside, placed ⟨i, row⟩ ⟨j, col⟩]
  simp only [same_row, same_col]

theorem entries_row_major (M : Matrix (Fin rows) (Fin cols) R) (cells : Int → R) :
    RowMajor M (entries M cells) := by
  intro row col
  obtain ⟨low, high⟩ := place_inside (Int.natCast_nonneg row) (Int.ofNat_lt.mpr row.isLt)
    (Int.natCast_nonneg col) (Int.ofNat_lt.mpr col.isLt)
  obtain ⟨same_row, same_col⟩ := place_of row col
  have inside := And.intro (same_row.trans_lt row.isLt) (same_col.trans_lt col.isLt)
  rw [entries, filled_inside low high, dif_pos inside]
  simp only [same_row, same_col]

variable [CommRing R] {A : Matrix (Fin rows) (Fin inner) R} {B : Matrix (Fin inner) (Fin cols) R}
  {left right transposed result : Int → R}

theorem each_element_product {start : Int → Int} {f g : Int → Int → Int → Int}
    {values : Int → Int → Int → List Int} (some_col : 0 < cols)
    (starts : ∀ i, start i = i * cols)
    (factors : ∀ (i : Fin rows) (j : Fin cols) (k : Fin inner),
      left (f i j k) = A i k ∧ right (g i j k) = B k j) :
    (eachElement productAt rows cols inner start (fun i j k (temp, m) =>
      addProduct leftAt rightAt (f i j k) (g i j k) (temp, m.computed (values i j k)))
      (operands left right result)).cells .product = entries (A * B) result := by
  obtain ⟨leftView, rightView, resultView⟩ := operands_view left right result
  have computed := each_element_computes operands_apart starts (Int.natCast_nonneg rows)
    (Int.natCast_nonneg cols) (Int.natCast_nonneg inner) f g values (operands left right result)
  rw [product_cells, computed.result, resultView]
  refine filled_entries some_col fun i j => ?_
  have nonneg : (0 : Int) ≤ j := Int.natCast_nonneg _
  have below : (j : Int) < cols := Int.ofNat_lt.mpr j.isLt
  rw [place_row nonneg below, place_col nonneg below, element, leftView, rightView]
  refine sum_to_mul_vec (M := A) (v := fun k => B k j) fun k => ?_
  rw [(factors i j k).1, (factors i j k).2]

theorem naive_product (some_row : 0 < rows) (some_inner : 0 < inner) (some_col : 0 < cols)
    (a : RowMajor A left) (b : RowMajor B right) (result : Int → R) :
    (multiplyMmNaive (some leftAt) rows inner (some rightAt) inner cols (some productAt)
      (operands left right result)).cells .product = entries (A * B) result := by
  have positive := accepted_dimensions.mpr ⟨Int.natCast_pos.mpr some_row,
    Int.natCast_pos.mpr some_inner, Int.natCast_pos.mpr some_inner, Int.natCast_pos.mpr some_col⟩
  rw [multiplyMmNaive, Rounding.multiplyMmNaive, checked_accepts positive,
    if_neg (not_not.mpr rfl), add_product_unrounded]
  refine each_element_product some_col (fun i => mul_comm _ i) fun i j k => ⟨?_, ?_⟩
  · rw [mul_comm]
    exact a i k
  · rw [mul_comm]
    exact b k j

theorem transposed_product (some_row : 0 < rows) (some_inner : 0 < inner) (some_col : 0 < cols)
    (a : RowMajor A left) (b : RowMajor B.transpose transposed) (result : Int → R) :
    (multiplyMmTransposedB (some leftAt) rows inner (some rightAt) inner cols (some productAt)
      (operands left transposed result)).cells .product = entries (A * B) result := by
  have positive := accepted_dimensions.mpr ⟨Int.natCast_pos.mpr some_row,
    Int.natCast_pos.mpr some_inner, Int.natCast_pos.mpr some_inner, Int.natCast_pos.mpr some_col⟩
  rw [multiplyMmTransposedB, Rounding.multiplyMmTransposedB, checked_accepts positive,
    add_product_unrounded]
  exact each_element_product some_col (fun _ => rfl) fun i j k => ⟨a i k, b j k⟩

/-- The kernels that read the transpose of B write what multiply_mm_naive writes from B. -/
theorem transposed_agree (some_row : 0 < rows) (some_inner : 0 < inner) (some_col : 0 < cols)
    (a : RowMajor A left) (b : RowMajor B right) (bt : RowMajor B.transpose transposed) :
    let naive := multiplyMmNaive (some leftAt) rows inner (some rightAt) inner cols
      (some productAt) (operands left right result)
    naive.cells .product = entries (A * B) result ∧
    (multiplyMmTransposedB (some leftAt) rows inner (some rightAt) inner cols (some productAt)
      (operands left transposed result)).cells .product = naive.cells .product ∧
    (multiplyMmTransposedBInline (some leftAt) rows inner (some rightAt) inner cols
      (some productAt) (operands left transposed result)).cells .product =
        naive.cells .product := by
  have naive := naive_product some_row some_inner some_col a b result
  have other := transposed_product some_row some_inner some_col a bt result
  refine ⟨naive, other.trans naive.symm, ?_⟩
  rw [transposed_inline_eq]
  exact other.trans naive.symm

theorem one_row : RowMajor (fun (i : Fin 1) (j : Fin 3) => 3 * (i : Int) + j + 1) (· + 1) := by
  unfold RowMajor
  decide

theorem three_rows :
    RowMajor (fun (i : Fin 3) (j : Fin 2) => 10 * (2 * (i : Int) + j)) (fun i => 10 * i) := by
  unfold RowMajor
  decide

theorem transposed_agree_one_row :
    let naive := multiplyMmNaive (some leftAt) 1 3 (some rightAt) 3 2 (some productAt)
      (operands (· + 1) (fun i => 10 * i) fun _ => (0 : Int))
    naive.cells .product 0 = 160 ∧ naive.cells .product 1 = 220 ∧
      (multiplyMmTransposedB (some leftAt) 1 3 (some rightAt) 3 2 (some productAt)
        (operands (· + 1) (fun i => 10 * (2 * (i % 3) + i / 3)) fun _ => 0)).cells .product =
        naive.cells .product := by
  have bt : RowMajor (Matrix.transpose fun (i : Fin 3) (j : Fin 2) => 10 * (2 * (i : Int) + j))
      (fun i => 10 * (2 * (i % 3) + i / 3)) := by
    change ∀ (j : Fin 2) (i : Fin 3), 10 * (2 * ((j * 3 + i : Int) % 3) + (j * 3 + i : Int) / 3) =
      10 * (2 * (i : Int) + j)
    decide
  exact ⟨by decide, by decide,
    (transposed_agree (by decide) (by decide) (by decide) one_row three_rows bt).2.1⟩

theorem multiplied_holds (M : Matrix (Fin rows) (Fin cols) R) (v : Fin cols → R)
    (cells : Int → R) : Holds (M.mulVec v) (multiplied M v cells) := by
  intro row
  have inside : (0 : Int) ≤ row ∧ (row : Int) < rows :=
    ⟨Int.natCast_nonneg _, Int.ofNat_lt.mpr row.isLt⟩
  rw [multiplied, dif_pos inside]
  exact congrArg (M.mulVec v) (Fin.ext (Int.toNat_natCast _))

/-- The product of two matrices and a vector, in either order of the calls and whatever the
    result arrays held. -/
theorem products_compose {vector : Int → R} {v : Fin cols → R}
    (some_row : 0 < rows) (some_inner : 0 < inner) (some_col : 0 < cols)
    (a : RowMajor A left) (b : RowMajor B right) (holds : Holds v vector)
    (product staged direct indirect : Int → R) :
    let ab := (multiplyMmNaive (some leftAt) rows inner (some rightAt) inner cols
      (some productAt) (operands left right product)).cells .product
    let bv := (multiplyMvRowMajor (some leftAt) inner cols (some rightAt) (some productAt)
      (operands right vector staged)).cells .product
    let once := (multiplyMvRowMajor (some leftAt) rows cols (some rightAt) (some productAt)
      (operands ab vector direct)).cells .product
    let twice := (multiplyMvRowMajor (some leftAt) rows inner (some rightAt) (some productAt)
      (operands left bv indirect)).cells .product
    ∀ row : Fin rows, once row = (A * B).mulVec v row ∧ twice row = once row := by
  intro ab bv once twice row
  have product_held : RowMajor (A * B) ab := by
    simp only [ab, naive_product some_row some_inner some_col a b]
    exact entries_row_major (A * B) product
  have vector_held : Holds (B.mulVec v) bv := by
    simp only [bv, row_major_product b holds some_inner some_col]
    exact multiplied_holds B v staged
  have direct_value : once row = (A * B).mulVec v row := by
    simp only [once, row_major_product product_held holds some_row some_col]
    exact multiplied_holds (A * B) v direct row
  have staged_value : twice row = A.mulVec (B.mulVec v) row := by
    simp only [twice, row_major_product a vector_held some_row some_inner]
    exact multiplied_holds A (B.mulVec v) indirect row
  rw [staged_value, direct_value, Matrix.mulVec_mulVec]
  exact ⟨rfl, rfl⟩

theorem products_compose_one_row :
    let ab := (multiplyMmNaive (some leftAt) 1 3 (some rightAt) 3 2 (some productAt)
      (operands (· + 1) (fun i => 10 * i) fun _ => (0 : Int))).cells .product
    let bv := (multiplyMvRowMajor (some leftAt) 3 2 (some rightAt) (some productAt)
      (operands (fun i => 10 * i) (fun i => i + 1) fun _ => 0)).cells .product
    (multiplyMvRowMajor (some leftAt) 1 3 (some rightAt) (some productAt)
      (operands (· + 1) bv fun _ => 0)).cells .product 0 =
    (multiplyMvRowMajor (some leftAt) 1 2 (some rightAt) (some productAt)
      (operands ab (fun i => i + 1) fun _ => 0)).cells .product 0 := by
  have v : Holds (fun j : Fin 2 => (j : Int) + 1) (fun i => i + 1) := by
    unfold Holds
    decide
  have composed := (products_compose (by decide) (by decide) (by decide) one_row three_rows v
    (fun _ => 0) (fun _ => 0) (fun _ => 0) (fun _ => 0) 0).2
  simp only [Int.cast_ofNat_Int, Fin.val_zero] at composed ⊢
  exact composed

end Matrices
end Phase1
