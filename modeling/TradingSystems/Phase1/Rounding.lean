import TradingSystems.Phase1.RoundedProducts

/- What rounding does to the products. Every kernel but the unrolled one adds up an entry in
   the same order, so these agree to the last bit; the unrolled one is near them, and all of
   them are exact on integers that are small enough. -/
namespace Phase1.Rounding
open Loops RoundedSums Binary64

section Placed
variable {R : Type} {rows inner cols : Nat}

/-- The entries of a vector in front of what the array held. -/
def placed (value : Fin rows → R) (cells : Int → R) : Int → R :=
  filled cells rows fun i => if below : i.toNat < rows then value ⟨i.toNat, below⟩ else cells i

theorem placed_at (value : Fin rows → R) (cells : Int → R) (i : Fin rows) :
    placed value cells i = value i := by
  have same : (i : Int).toNat = i := Int.toNat_natCast _
  rw [placed, filled_inside (Int.natCast_nonneg _) (Int.ofNat_lt.mpr i.isLt),
    dif_pos (same.trans_lt i.isLt)]
  exact congrArg value (Fin.ext same)

theorem filled_placed {value : Int → R} {entry : Fin rows → R} {cells : Int → R}
    (same : ∀ i : Fin rows, value i = entry i) : filled cells rows value = placed entry cells := by
  refine filled_congr fun i nonneg below => ?_
  obtain ⟨i, rfl⟩ := Int.eq_ofNat_of_zero_le nonneg
  have row : i < rows := Int.ofNat_lt.mp below
  rw [Int.toNat_natCast, dif_pos row]
  exact same ⟨i, row⟩

variable [CommRing R] {A : Matrix (Fin rows) (Fin inner) R} {B : Matrix (Fin inner) (Fin cols) R}
  {v : Fin inner → R} {left byCol vector right transposed result : Int → R}

theorem extended_row (a : RowMajor A left) (i : Fin rows) :
    ∀ k < inner, along (operands left vector result) leftAt (i * inner) k = extended (A i) k :=
  extended_eq fun k => by
    rw [along, (operands_view left vector result).1]
    exact a i k

theorem extended_vector (holds : Holds v vector) :
    ∀ k < inner, along (operands left vector result) rightAt 0 k = extended v k :=
  extended_eq fun k => by
    rw [along, (operands_view left vector result).2.1, zero_add]
    exact holds k

theorem row_major_rounded (ops : Arithmetic R) (a : RowMajor A left) (holds : Holds v vector)
    (some_row : 0 < rows) (some_inner : 0 < inner) :
    (multiplyMvRowMajor ops (some leftAt) rows inner (some rightAt) (some productAt)
      (operands left vector result)).cells .product =
        placed (fun i => (dot (A i) v).value ops) result := by
  have resultView := (operands_view left vector result).2.2
  have computed := (row_major_computes ops (m := operands left vector result)
    operands_apart (Int.natCast_pos.mpr some_row) (Int.natCast_pos.mpr some_inner)).result
  rw [product_cells, computed, resultView]
  refine filled_placed fun i => ?_
  rw [rowTally, Int.toNat_natCast, dot]
  exact congrArg _ (Tally.up_to_congr (extended_row a i) (extended_vector holds))

theorem optimised_rounded (ops : Arithmetic R) (a : RowMajor A left) (holds : Holds v vector)
    (some_row : 0 < rows) (some_inner : 0 < inner) :
    (multiplyMvRowMajorOptimised ops (some leftAt) rows inner (some rightAt) (some productAt)
      (operands left vector result)).cells .product =
        placed (fun i => (unrolledDot (A i) v).value ops) result := by
  have resultView := (operands_view left vector result).2.2
  have computed := (optimised_computes ops (m := operands left vector result)
    operands_apart (Int.natCast_pos.mpr some_row) (Int.natCast_pos.mpr some_inner)).result
  rw [product_cells, computed, resultView]
  refine filled_placed fun i => ?_
  rw [unrolledTally, Int.toNat_natCast, unrolledDot]
  exact congrArg _ (Tally.unrolled_congr (extended_row a i) (extended_vector holds))

theorem col_major_rounded (ops : Arithmetic R) (a : ColMajor A byCol) (holds : Holds v vector)
    (some_row : 0 < rows) (some_inner : 0 < inner) (name : String) :
    (colMajor ops name (some leftAt) rows inner (some rightAt) (some productAt)
      (operands byCol vector result)).cells .product =
        placed (fun i => (dot (A i) v).value ops) result := by
  obtain ⟨leftView, rightView, resultView⟩ := operands_view byCol vector result
  have computed := (col_major_computes ops (m := operands byCol vector result)
    operands_apart (Int.natCast_pos.mpr some_row) (Int.natCast_pos.mpr some_inner) name).result
  rw [product_cells, computed, resultView]
  refine filled_placed fun i => ?_
  rw [colTally, Int.toNat_natCast, dot]
  refine congrArg _ (Tally.up_to_congr (extended_eq fun k => ?_) (extended_eq fun k => ?_))
  · rw [leftView]
    exact a i k
  · rw [rightView]
    exact holds k

theorem placed_multiplied {entry : Fin rows → R} (same : ∀ i, entry i = A.mulVec v i)
    (cells : Int → R) : placed entry cells = multiplied A v cells :=
  filled_multiplied fun i => by
    have below : (i : Int).toNat < rows := (Int.toNat_natCast _).trans_lt i.isLt
    rw [dif_pos below, same]
    exact congrArg (A.mulVec v) (Fin.ext (Int.toNat_natCast _))

def elements (ops : Arithmetic R) (A : Matrix (Fin rows) (Fin inner) R)
    (B : Matrix (Fin inner) (Fin cols) R) : (Int → R) → Int → R :=
  entries fun i j => (dot (A i) fun k => B k j).value ops

theorem each_element_rounded (ops : Arithmetic R) {start : Int → Int} {f g : Int → Int → Int → Int}
    {values : Int → Int → Int → List Int} (some_col : 0 < cols)
    (starts : ∀ i, start i = i * cols)
    (factors : ∀ (i : Fin rows) (j : Fin cols) (k : Fin inner),
      left (f i j k) = A i k ∧ right (g i j k) = B k j) :
    (eachElement productAt rows cols inner start (fun i j k (temp, m) =>
      addProduct ops leftAt rightAt (f i j k) (g i j k) (temp, m.computed (values i j k)))
      (operands left right result)).cells .product = elements ops A B result := by
  obtain ⟨leftView, rightView, resultView⟩ := operands_view left right result
  have computed := each_element_computes ops operands_apart starts
    (Int.natCast_nonneg rows) (Int.natCast_nonneg cols) (Int.natCast_nonneg inner) f g values
    (operands left right result)
  rw [product_cells, computed.result, resultView]
  refine filled_entries some_col fun i j => ?_
  have nonneg : (0 : Int) ≤ j := Int.natCast_nonneg _
  have below : (j : Int) < cols := Int.ofNat_lt.mpr j.isLt
  rw [place_row nonneg below, place_col nonneg below, elementTally, Int.toNat_natCast, leftView,
    rightView, dot]
  exact congrArg _ (Tally.up_to_congr (extended_eq fun k => (factors i j k).1)
    (extended_eq fun k => (factors i j k).2))

theorem accepted_sizes (some_row : 0 < rows) (some_inner : 0 < inner) (some_col : 0 < cols) :
    ¬ ∃ d ∈ [(rows : Int), inner, inner, cols], d ≤ 0 :=
  accepted_dimensions.mpr ⟨Int.natCast_pos.mpr some_row, Int.natCast_pos.mpr some_inner,
    Int.natCast_pos.mpr some_inner, Int.natCast_pos.mpr some_col⟩

theorem naive_rounded (ops : Arithmetic R) (some_row : 0 < rows) (some_inner : 0 < inner)
    (some_col : 0 < cols) (a : RowMajor A left) (b : RowMajor B right) :
    (multiplyMmNaive ops (some leftAt) rows inner (some rightAt) inner cols (some productAt)
      (operands left right result)).cells .product = elements ops A B result := by
  have positive := accepted_sizes some_row some_inner some_col
  simp only [multiplyMmNaive, checked_accepts positive, ne_eq, not_true_eq_false, ↓reduceIte]
  refine each_element_rounded ops some_col (fun i => mul_comm _ i) fun i j k => ⟨?_, ?_⟩
  · rw [mul_comm]
    exact a i k
  · rw [mul_comm]
    exact b k j

theorem transposed_rounded (ops : Arithmetic R) (some_row : 0 < rows) (some_inner : 0 < inner)
    (some_col : 0 < cols) (a : RowMajor A left) (b : RowMajor B.transpose transposed) :
    (multiplyMmTransposedB ops (some leftAt) rows inner (some rightAt) inner cols (some productAt)
      (operands left transposed result)).cells .product = elements ops A B result := by
  have positive := accepted_sizes some_row some_inner some_col
  simp only [multiplyMmTransposedB, checked_accepts positive]
  exact each_element_rounded ops some_col (fun _ => rfl) fun i j k => ⟨a i k, b j k⟩

theorem transposed_inline_rounded (ops : Arithmetic R) (some_row : 0 < rows)
    (some_inner : 0 < inner) (some_col : 0 < cols) (a : RowMajor A left)
    (b : RowMajor B.transpose transposed) :
    (multiplyMmTransposedBInline ops (some leftAt) rows inner (some rightAt) inner cols
      (some productAt) (operands left transposed result)).cells .product =
        elements ops A B result := by
  have positive := accepted_sizes some_row some_inner some_col
  simp only [multiplyMmTransposedBInline, checked_accepts positive]
  refine each_element_rounded ops some_col (fun _ => rfl) fun i j k => ⟨?_, ?_⟩
  · rw [mul_comm]
    exact a i k
  · rw [mul_comm]
    exact b j k

/-- Rows, columns, and a transposed factor: what is read in another order is still added up
    in the same one, so every rounding is the same. -/
theorem layouts_round_alike (ops : Arithmetic R) (some_row : 0 < rows) (some_inner : 0 < inner)
    (some_col : 0 < cols) (a : RowMajor A left) (byColumn : ColMajor A byCol)
    (holds : Holds v vector) (b : RowMajor B right) (bt : RowMajor B.transpose transposed)
    (result : Int → R) :
    let rowwise := (multiplyMvRowMajor ops (some leftAt) rows inner (some rightAt)
      (some productAt) (operands left vector result)).cells .product
    let naive := (multiplyMmNaive ops (some leftAt) rows inner (some rightAt) inner cols
      (some productAt) (operands left right result)).cells .product
    (multiplyMvColMajor ops (some leftAt) rows inner (some rightAt) (some productAt)
      (operands byCol vector result)).cells .product = rowwise ∧
    (multiplyMvColMajorInline ops (some leftAt) rows inner (some rightAt) (some productAt)
      (operands byCol vector result)).cells .product = rowwise ∧
    (multiplyMmTransposedB ops (some leftAt) rows inner (some rightAt) inner cols
      (some productAt) (operands left transposed result)).cells .product = naive ∧
    (multiplyMmTransposedBInline ops (some leftAt) rows inner (some rightAt) inner cols
      (some productAt) (operands left transposed result)).cells .product = naive := by
  intro rowwise naive
  have row : rowwise = _ := row_major_rounded ops a holds some_row some_inner
  have element : naive = _ := naive_rounded ops some_row some_inner some_col a b
  rw [row, element]
  exact ⟨col_major_rounded ops byColumn holds some_row some_inner _,
    col_major_rounded ops byColumn holds some_row some_inner _,
    transposed_rounded ops some_row some_inner some_col a bt,
    transposed_inline_rounded ops some_row some_inner some_col a bt⟩

end Placed

section Doubles

/-- Whether the compiler adds a product before or after it is rounded; it may choose for each
    kernel. -/
inductive Contraction where
  | separate
  | fused
  deriving DecidableEq, Repr

def doubles : Contraction → Arithmetic ℚ
  | .separate => rounded binary64
  | .fused => fused binary64

theorem doubles_within (c : Contraction) : Within roundoff halfLeast (doubles c) := by
  cases c with
  | separate => exact rounded_within binary64_near
  | fused =>
    exact fused_within binary64_near roundoff_pos.le half_least_pos.le

theorem double_whole {q : ℚ} (whole : Whole (2 ^ 53 - 1) q) : binary64 q = q := by
  obtain ⟨n, rfl, small⟩ := whole
  refine binary64_int ?_
  rw [Int.abs_eq_natAbs]
  omega

theorem doubles_exact_within (c : Contraction) : ExactWithin (2 ^ 53 - 1) (doubles c) := by
  cases c with
  | separate => exact rounded_exact_within fun _ => double_whole
  | fused => exact fused_exact_within fun _ => double_whole

theorem layouts_round_alike_two_rows :
    let large : Int → ℚ := fun t => if t = 0 ∨ t = 5 then 2 ^ 53 else 1
    let columns := multiplyMvColMajor (doubles .separate) (some leftAt) 2 3 (some rightAt)
      (some productAt) (operands large (fun _ => 1) fun _ => 0)
    columns.cells .product 0 = 2 ^ 53 ∧ columns.cells .product 1 = 2 ^ 53 + 2 ∧
      columns.cells .product = (multiplyMvRowMajor (doubles .separate) (some leftAt) 2 3
        (some rightAt) (some productAt) (operands large (fun _ => 1) fun _ => 0)).cells
          .product := by
  have a : RowMajor (fun (i : Fin 2) (k : Fin 3) => if i.val * 2 = k then (2 ^ 53 : ℚ) else 1)
      (fun t => if t = 0 ∨ t = 5 then 2 ^ 53 else 1) := by
    unfold RowMajor
    decide +kernel
  have byColumn : ColMajor
      (fun (i : Fin 2) (k : Fin 3) => if i.val * 2 = k then (2 ^ 53 : ℚ) else 1)
      (fun t => if t = 0 ∨ t = 5 then 2 ^ 53 else 1) := by
    unfold ColMajor
    decide +kernel
  have ones : Holds (fun _ : Fin 3 => (1 : ℚ)) fun _ => 1 := fun _ => rfl
  have b : RowMajor (fun (_ : Fin 3) (_ : Fin 1) => (1 : ℚ)) fun _ => 1 := fun _ _ => rfl
  have bt : RowMajor (Matrix.transpose fun (_ : Fin 3) (_ : Fin 1) => (1 : ℚ)) fun _ => 1 :=
    fun _ _ => rfl
  exact ⟨by decide +kernel, by decide +kernel, (layouts_round_alike (doubles .separate)
    (by decide) (by decide) (by decide) a byColumn ones b bt fun _ => 0).1⟩

abbrev doubleError : Nat → Nat → ℚ → ℚ := errorBound roundoff halfLeast

theorem double_error_mono {depth more roundings : Nat} {mass : ℚ} (le : depth ≤ more)
    (nonneg : 0 ≤ mass) : doubleError depth roundings mass ≤ doubleError more roundings mass :=
  error_bound_mono roundoff_pos.le half_least_pos.le le nonneg

variable {rows inner cols : Nat} {A : Matrix (Fin rows) (Fin inner) ℚ}
  {B : Matrix (Fin inner) (Fin cols) ℚ} {v : Fin inner → ℚ}
  {left byCol vector right transposed result : Int → ℚ}

theorem dot_near (c : Contraction) (x y : Fin inner → ℚ) :
    |(dot x y).value (doubles c) - ∑ k, x k * y k| ≤
      doubleError (inner + 1) (2 * inner) (∑ k, |x k * y k|) := by
  have near := (dot_adds (x := x) (y := y)).near (doubles_within c) roundoff_pos.le
    half_least_pos.le
  have roundings : (dot x y).roundings = 2 * inner := by
    rw [dot, Tally.up_to_roundings, Tally.roundings, zero_add]
  have depth : (dot x y).depth ≤ inner + 1 := (Tally.up_to_depth _).trans (by
    rw [Tally.depth]
    omega)
  rw [roundings] at near
  exact near.trans (double_error_mono depth (Finset.sum_nonneg fun _ _ => abs_nonneg _))

theorem unrolled_dot_near (c : Contraction) (x y : Fin inner → ℚ) :
    |(unrolledDot x y).value (doubles c) - ∑ k, x k * y k| ≤
      doubleError (inner / 4 + inner % 4 + 4) (2 * inner + 3) (∑ k, |x k * y k|) := by
  have near := (unrolled_adds (x := x) (y := y)).near (doubles_within c) roundoff_pos.le
    half_least_pos.le
  rw [unrolledDot, Tally.unrolled_roundings, ← unrolledDot] at near
  exact near.trans (double_error_mono (Tally.unrolled_depth _)
    (Finset.sum_nonneg fun _ _ => abs_nonneg _))

/-- The plain and the unrolled kernel in doubles, against the product and each other. -/
theorem unrolled_near_plain (some_row : 0 < rows) (some_inner : 0 < inner) (a : RowMajor A left)
    (holds : Holds v vector) (result : Int → ℚ) (c d : Contraction) (i : Fin rows) :
    let plain := (multiplyMvRowMajor (doubles c) (some leftAt) rows inner (some rightAt)
      (some productAt) (operands left vector result)).cells .product i
    let unrolled := (multiplyMvRowMajorOptimised (doubles d) (some leftAt) rows inner
      (some rightAt) (some productAt) (operands left vector result)).cells .product i
    let mass := ∑ k, |A i k * v k|
    let plainError := doubleError (inner + 1) (2 * inner) mass
    let unrolledError := doubleError (inner / 4 + inner % 4 + 4) (2 * inner + 3) mass
    |plain - A.mulVec v i| ≤ plainError ∧ |unrolled - A.mulVec v i| ≤ unrolledError ∧
      |unrolled - plain| ≤ unrolledError + plainError := by
  intro plain unrolled mass plainError unrolledError
  have plain_value : plain = (dot (A i) v).value (doubles c) := by
    simp only [plain, row_major_rounded (doubles c) a holds some_row some_inner, placed_at]
  have unrolled_value : unrolled = (unrolledDot (A i) v).value (doubles d) := by
    simp only [unrolled, optimised_rounded (doubles d) a holds some_row some_inner, placed_at]
  have first : |plain - A.mulVec v i| ≤ plainError := by
    rw [plain_value]
    exact dot_near c (A i) v
  have second : |unrolled - A.mulVec v i| ≤ unrolledError := by
    rw [unrolled_value]
    exact unrolled_dot_near d (A i) v
  refine ⟨first, second, ?_⟩
  have back : |A.mulVec v i - plain| ≤ plainError := by rwa [abs_sub_comm]
  exact (abs_sub_le unrolled (A.mulVec v i) plain).trans (add_le_add second back)

theorem unrolled_near_plain_eight :
    let large : Int → ℚ := fun t => if t = 0 then 2 ^ 53 else 1
    let plain := (multiplyMvRowMajor (doubles .separate) (some leftAt) 1 8 (some rightAt)
      (some productAt) (operands large (fun _ => 1) fun _ => 0)).cells .product 0
    let unrolled := (multiplyMvRowMajorOptimised (doubles .separate) (some leftAt) 1 8
      (some rightAt) (some productAt) (operands large (fun _ => 1) fun _ => 0)).cells .product 0
    plain = 2 ^ 53 ∧ unrolled = 2 ^ 53 + 6 ∧
      |unrolled - plain| ≤ doubleError 6 19 (2 ^ 53 + 7) + doubleError 9 16 (2 ^ 53 + 7) := by
  refine ⟨by decide +kernel, by decide +kernel, ?_⟩
  have a : RowMajor (fun (_ : Fin 1) (k : Fin 8) => if k = 0 then (2 ^ 53 : ℚ) else 1)
      (fun t => if t = 0 then 2 ^ 53 else 1) := by
    unfold RowMajor
    decide +kernel
  have holds : Holds (fun _ : Fin 8 => (1 : ℚ)) fun _ => 1 := fun _ => rfl
  have mass : ∑ k : Fin 8, |(if k = 0 then (2 ^ 53 : ℚ) else 1) * 1| = 2 ^ 53 + 7 := by
    decide +kernel
  have near := (unrolled_near_plain (by decide) (by decide) a holds (fun _ => 0) .separate
    .separate 0).2.2
  have first : (((0 : Fin 1) : Nat) : Int) = 0 := rfl
  have one : ((1 : Nat) : Int) = 1 := rfl
  have eight : ((8 : Nat) : Int) = 8 := rfl
  rw [mass, first, one, eight] at near
  exact near

/-- Integers whose sums stay below 2 ^ 53 are multiplied without any error. -/
theorem whole_products_exact {x y : Nat} (some_row : 0 < rows) (some_inner : 0 < inner)
    (some_col : 0 < cols) (a : RowMajor A left) (byColumn : ColMajor A byCol)
    (holds : Holds v vector) (b : RowMajor B right) (bt : RowMajor B.transpose transposed)
    (wholeA : ∀ i k, Whole x (A i k)) (wholeV : ∀ k, Whole y (v k))
    (wholeB : ∀ k j, Whole y (B k j)) (room : inner * (x * y) < 2 ^ 53) (result : Int → ℚ)
    (c : Contraction) :
    (multiplyMvRowMajor (doubles c) (some leftAt) rows inner (some rightAt) (some productAt)
      (operands left vector result)).cells .product = multiplied A v result ∧
    (multiplyMvRowMajorOptimised (doubles c) (some leftAt) rows inner (some rightAt)
      (some productAt) (operands left vector result)).cells .product = multiplied A v result ∧
    (multiplyMvColMajor (doubles c) (some leftAt) rows inner (some rightAt) (some productAt)
      (operands byCol vector result)).cells .product = multiplied A v result ∧
    (multiplyMvColMajorInline (doubles c) (some leftAt) rows inner (some rightAt)
      (some productAt) (operands byCol vector result)).cells .product = multiplied A v result ∧
    (multiplyMmNaive (doubles c) (some leftAt) rows inner (some rightAt) inner cols
      (some productAt) (operands left right result)).cells .product = entries (A * B) result ∧
    (multiplyMmTransposedB (doubles c) (some leftAt) rows inner (some rightAt) inner cols
      (some productAt) (operands left transposed result)).cells .product =
        entries (A * B) result ∧
    (multiplyMmTransposedBInline (doubles c) (some leftAt) rows inner (some rightAt) inner cols
      (some productAt) (operands left transposed result)).cells .product =
        entries (A * B) result := by
  have within := doubles_exact_within c
  have small : inner * (x * y) ≤ 2 ^ 53 - 1 := by omega
  have dots (i : Fin rows) : (dot (A i) v).value (doubles c) = A.mulVec v i :=
    dot_adds.whole within (wholeA i) wholeV small
  have unrolledDots (i : Fin rows) : (unrolledDot (A i) v).value (doubles c) = A.mulVec v i :=
    unrolled_adds.whole within (wholeA i) wholeV small
  have rowwise := placed_multiplied dots result
  have unrolledRow := placed_multiplied unrolledDots result
  have product : elements (doubles c) A B result = entries (A * B) result := by
    have same : (fun i j => (dot (A i) fun k => B k j).value (doubles c)) = A * B := by
      funext i j
      exact dot_adds.whole within (wholeA i) (fun k => wholeB k j) small
    rw [elements, same]
  rw [row_major_rounded _ a holds some_row some_inner,
    optimised_rounded _ a holds some_row some_inner, multiplyMvColMajor, multiplyMvColMajorInline,
    col_major_rounded _ byColumn holds some_row some_inner,
    col_major_rounded _ byColumn holds some_row some_inner,
    naive_rounded _ some_row some_inner some_col a b,
    transposed_rounded _ some_row some_inner some_col a bt,
    transposed_inline_rounded _ some_row some_inner some_col a bt]
  exact ⟨rowwise, unrolledRow, rowwise, rowwise, product, product, product⟩

theorem whole_products_exact_two_rows :
    let rowwise : Int → ℚ := fun t => (t + 1 : Int)
    let unrolled := multiplyMvRowMajorOptimised (doubles .fused) (some leftAt) 2 3 (some rightAt)
      (some productAt) (operands rowwise rowwise fun _ => 0)
    unrolled.cells .product 0 = 14 ∧ unrolled.cells .product 1 = 32 ∧
      unrolled.cells .product = (multiplyMvRowMajor (doubles .fused) (some leftAt) 2 3
        (some rightAt) (some productAt) (operands rowwise rowwise fun _ => 0)).cells .product := by
  have a : RowMajor (fun (i : Fin 2) (k : Fin 3) => ((3 * i + k + 1 : Int) : ℚ))
      fun t => (t + 1 : Int) := by
    unfold RowMajor
    decide +kernel
  have byColumn : ColMajor (fun (i : Fin 2) (k : Fin 3) => ((3 * i + k + 1 : Int) : ℚ))
      fun t => (3 * (t % 2) + t / 2 + 1 : Int) := by
    unfold ColMajor
    decide +kernel
  have holds : Holds (fun k : Fin 3 => ((k + 1 : Int) : ℚ)) fun t => (t + 1 : Int) :=
    fun _ => rfl
  have b : RowMajor (fun (k : Fin 3) (_ : Fin 1) => ((k + 1 : Int) : ℚ))
      fun t => (t + 1 : Int) := by
    unfold RowMajor
    decide +kernel
  have bt : RowMajor (Matrix.transpose fun (k : Fin 3) (_ : Fin 1) => ((k + 1 : Int) : ℚ))
      fun t => (t + 1 : Int) := by
    change ∀ (_ : Fin 1) (k : Fin 3), _ = ((k + 1 : Int) : ℚ)
    decide +kernel
  have exact_products := whole_products_exact (by decide) (by decide) (by decide) a byColumn holds
    b bt (fun i k => ⟨3 * i + k + 1, rfl, by omega⟩) (fun k => ⟨k + 1, rfl, by omega⟩)
    (fun k _ => ⟨k + 1, rfl, by omega⟩) (by decide : 3 * (6 * 3) < 2 ^ 53) (fun _ => 0) .fused
  exact ⟨by decide +kernel, by decide +kernel, exact_products.2.1.trans exact_products.1.symm⟩

end Doubles
end Phase1.Rounding
