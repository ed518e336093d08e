import TradingSystems.Library.CString
import TradingSystems.Phase1.MatrixProducts

/- Which elements the kernels access, and the values of their index expressions. The code
   keeps these in an int, so a value outside its range is an overflow. -/
namespace Phase1
open Loops CString Extraction

/-- What a run adds to the logs of its memory. -/
structure Logged {R : Type} (m : Memory R) (reads writes : List Pointer) (ints : List Int)
    (n : Memory R) : Prop where
  reads : n.reads = m.reads ++ reads
  writes : n.writes = m.writes ++ writes
  ints : n.ints = m.ints ++ ints

section Logs
variable {R : Type} {m n l : Memory R} {reads writes reads' writes' : List Pointer}
  {ints ints' : List Int} {bound : Int}

theorem logged_nothing : Logged m [] [] [] m :=
  ⟨(List.append_nil _).symm, (List.append_nil _).symm, (List.append_nil _).symm⟩

theorem Logged.trans (first : Logged m reads writes ints n)
    (second : Logged n reads' writes' ints' l) :
    Logged m (reads ++ reads') (writes ++ writes') (ints ++ ints') l where
  reads := by rw [second.reads, first.reads, List.append_assoc]
  writes := by rw [second.writes, first.writes, List.append_assoc]
  ints := by rw [second.ints, first.ints, List.append_assoc]

theorem Logged.computed (held : Logged m reads writes ints n) (values : List Int) :
    Logged m reads writes (ints ++ values) (n.computed values) where
  reads := held.reads
  writes := held.writes
  ints := by rw [Memory.computed, held.ints, List.append_assoc]

theorem Logged.store (held : Logged m reads writes ints n) (p : Pointer) (i : Int) (x : R) :
    Logged m reads (writes ++ [p.plus i]) ints (n.store p i x) where
  reads := held.reads
  writes := by rw [Memory.store, held.writes, List.append_assoc]
  ints := held.ints

theorem logged_loop {State : Type} (memory : State → Memory R) {body : Int → State → State}
    {s : State} {reads writes : Int → List Pointer} {ints : Int → List Int} (nonneg : 0 ≤ bound)
    (one : ∀ i s, Logged (memory s) (reads i) (writes i) (ints i) (memory (body i s))) :
    Logged (memory s) (collected bound reads) (collected bound writes) (collected bound ints)
      (memory (forBelow bound 1 body 0 s).2) := by
  refine count_rule (fun i t => Logged (memory s) (collected i reads) (collected i writes)
    (collected i ints) (memory t)) ?_ nonneg logged_nothing
  intro i t low high held
  rw [collected_succ low, collected_succ low, collected_succ low]
  exact held.trans (one i t)

variable [CommRing R]

theorem Logged.addProduct {s : R × Memory R} (held : Logged m reads writes ints s.2)
    (p q : Pointer) (i j : Int) :
    Logged m (reads ++ [p.plus i, q.plus j]) writes ints (addProduct p q i j s).2 where
  reads := by
    change s.2.reads ++ [p.plus i] ++ [q.plus j] = _
    rw [held.reads, List.append_assoc, List.append_assoc]
    rfl
  writes := held.writes
  ints := held.ints

theorem terms_logged (p q : Pointer) (f g : Int → Int) (values : Int → List Int)
    (nonneg : 0 ≤ bound) (s : R × Memory R) :
    Logged s.2 (collected bound fun k => [p.plus (f k), q.plus (g k)]) [] (collected bound values)
      (forBelow bound 1 (fun k (temp, m) =>
        addProduct p q (f k) (g k) (temp, m.computed (values k))) 0 s).2.2 := by
  have logged : Logged s.2 (collected bound fun k => [p.plus (f k), q.plus (g k)])
      (collected bound fun _ => []) (collected bound values)
      (forBelow bound 1 (fun k (temp, m) =>
        addProduct p q (f k) (g k) (temp, m.computed (values k))) 0 s).2.2 :=
    logged_loop Prod.snd nonneg fun k s =>
      Logged.addProduct (s := (s.1, s.2.computed (values k)))
        (logged_nothing.computed (values k)) p q (f k) (g k)
  rwa [collected_nil] at logged

theorem one_element_logged (p q r : Pointer) (f g : Int → Int) (values : Int → List Int)
    (nonneg : 0 ≤ bound) (begin j : Int) (m : Memory R) :
    Logged m (collected bound fun k => [p.plus (f k), q.plus (g k)]) [r.plus (begin + j)]
      (collected bound values ++ [begin, begin + j])
      (oneElement r bound begin j (fun k (temp, m) =>
        addProduct p q (f k) (g k) (temp, m.computed (values k))) m) :=
  ((terms_logged p q f g values nonneg (0, m)).computed [begin, begin + j]).store r (begin + j) _

theorem each_element_logged {rows cols inner : Int} (rows_nonneg : 0 ≤ rows)
    (cols_nonneg : 0 ≤ cols) (inner_nonneg : 0 ≤ inner) (p q r : Pointer) (start : Int → Int)
    (f g : Int → Int → Int → Int) (values : Int → Int → Int → List Int) (m : Memory R) :
    Logged m
      (collected rows fun i => collected cols fun j => collected inner fun k =>
        [p.plus (f i j k), q.plus (g i j k)])
      (collected rows fun i => collected cols fun j => [r.plus (start i + j)])
      (collected rows fun i => collected cols fun j =>
        collected inner (values i j) ++ [start i, start i + j])
      (eachElement r rows cols inner start (fun i j k (temp, m) =>
        addProduct p q (f i j k) (g i j k) (temp, m.computed (values i j k))) m) :=
  logged_loop id rows_nonneg fun i _ => logged_loop id cols_nonneg fun j m =>
    one_element_logged p q r (f i j) (g i j) (values i j) inner_nonneg (start i) j m

theorem unrolled_ints (row vector : Pointer) {cols : Int} (nonneg : 0 ≤ cols) (m : Memory R) :
    let s := forBelow (cols - 3) 4 (Unrolled.round row vector) 0 ⟨0, 0, 0, 0, m⟩
    s.2.memory.ints = m.ints ++
      collected (cols / 4) fun b => [4 * b + 1, 4 * b + 2, 4 * b + 3] := by
  intro s
  have rounds : (∃ b, 0 ≤ b ∧ s.1 = 4 * b ∧ s.1 ≤ cols ∧ s.2.memory.ints = m.ints ++
      collected b fun b => [4 * b + 1, 4 * b + 2, 4 * b + 3]) ∧ cols - 3 ≤ s.1 := by
    refine for_below_rule (fun i (s : Unrolled R) => ∃ b, 0 ≤ b ∧ i = 4 * b ∧ i ≤ cols ∧
      s.memory.ints = m.ints ++ collected b fun b => [4 * b + 1, 4 * b + 2, 4 * b + 3])
      (by decide) ?_ ⟨0, le_rfl, rfl, nonneg, (List.append_nil _).symm⟩
    rintro _ s inside ⟨b, b_nonneg, rfl, -, ints⟩
    refine ⟨b + 1, by omega, by omega, by omega, ?_⟩
    rw [collected_succ b_nonneg, ← List.append_assoc, ← ints]
    simp [Unrolled.round, Rounding.round, Rounding.addProduct, Memory.load, Memory.computed]
  obtain ⟨⟨b, b_nonneg, counter, within, ints⟩, past⟩ := rounds
  have last : b = cols / 4 := by omega
  rw [← last, ints]

theorem dot_product_logged (row vector : Pointer) {cols : Int} (nonneg : 0 ≤ cols)
    (m : Memory R) :
    Logged m (collected cols (dotReads row vector)) []
      (collected (cols / 4) fun b => [4 * b + 1, 4 * b + 2, 4 * b + 3])
      (dotProductUnrolledAligned row vector cols m).2 := by
  have summed := dot_product_summed row vector nonneg m
  refine ⟨summed.reads, by rw [summed.writes, List.append_nil], ?_⟩
  have remainder (i : Int) (s : R × Memory R) :
      (forBelow cols 1 (fun i s => addProduct row vector i i s) i s).2.2.ints = s.2.ints := by
    refine And.left (for_below_rule (fun _ (t : R × Memory R) => t.2.ints = s.2.ints)
      Int.one_pos ?_ rfl)
    intro i t below same
    exact same
  rw [← unrolled_ints row vector nonneg m]
  exact remainder _ _

end Logs

section Kernels
variable {R : Type} [CommRing R] {rows cols inner : Int} (p q r : Pointer)

theorem row_major_logged (some_row : 0 < rows) (some_col : 0 < cols) (m : Memory R) :
    Logged m
      (collected rows fun row => collected cols fun col =>
        [p.plus (row * cols + col), q.plus col])
      (collected rows fun row => [r.plus row])
      (collected rows fun row => collected cols fun col => [row * cols, row * cols + col])
      (multiplyMvRowMajor (some p) rows cols (some q) (some r) m) := by
  simp only [multiplyMvRowMajor, Rounding.multiplyMvRowMajor, row_product_unrounded,
    checked_accepts (accepted some_row some_col)]
  refine logged_loop id some_row.le fun row m => ?_
  exact (terms_logged p q (row * cols + ·) id (fun col => [row * cols, row * cols + col])
    some_col.le (0, m)).store r row _

theorem optimised_logged (some_row : 0 < rows) (some_col : 0 < cols) (m : Memory R) :
    Logged m
      (collected rows fun row => collected cols (dotReads (p.plus (row * cols)) q))
      (collected rows fun row => [r.plus row])
      (collected rows fun row => [row * cols] ++
        collected (cols / 4) fun b => [4 * b + 1, 4 * b + 2, 4 * b + 3])
      (multiplyMvRowMajorOptimised (some p) rows cols (some q) (some r) m) := by
  simp only [multiplyMvRowMajorOptimised, Rounding.multiplyMvRowMajorOptimised,
    dot_product_unrounded, checked_accepts (accepted some_row some_col)]
  refine logged_loop id some_row.le fun row m => ?_
  have dot := dot_product_logged (p.plus (row * cols)) q some_col.le (m.computed [row * cols])
  exact ((logged_nothing.computed [row * cols]).trans dot).store r row _

theorem add_to_row_logged (col row : Int) (m : Memory R) :
    Logged m [r.plus row, p.plus (col * rows + row), q.plus col] [r.plus row]
      [col * rows, col * rows + row] (addToRow p q r rows col row m) := by
  have read : Logged m [r.plus row] [] [] (m.load r row).2 :=
    ⟨rfl, (List.append_nil _).symm, (List.append_nil _).symm⟩
  exact (Logged.addProduct (s := ((m.load r row).1, (m.load r row).2.computed _))
    (read.computed [col * rows, col * rows + row]) p q (col * rows + row) col).store r row _

theorem col_major_logged (some_row : 0 < rows) (some_col : 0 < cols) (name : String)
    (m : Memory R) :
    Logged m
      (collected cols fun col => collected rows fun row =>
        [r.plus row, p.plus (col * rows + row), q.plus col])
      (collected rows (fun row => [r.plus row]) ++
        collected cols fun _ => collected rows fun row => [r.plus row])
      (collected cols fun col => collected rows fun row => [col * rows, col * rows + row])
      (colMajor name (some p) rows cols (some q) (some r) m) := by
  simp only [colMajor, Rounding.colMajor, add_to_row_unrounded,
    checked_accepts (accepted some_row some_col)]
  have zeros : Logged m (collected rows fun _ => []) (collected rows fun row => [r.plus row])
      (collected rows fun _ => []) (forBelow rows 1 (fun row m => m.store r row 0) 0 m).2 :=
    logged_loop id some_row.le fun row _ => logged_nothing.store r row 0
  rw [collected_nil, collected_nil] at zeros
  exact zeros.trans (logged_loop id some_col.le fun col _ => logged_loop id some_row.le fun row m =>
    add_to_row_logged p q r col row m)

theorem naive_logged (some_row : 0 < rows) (some_inner : 0 < inner) (some_col : 0 < cols)
    (m : Memory R) :
    Logged m
      (collected rows fun i => collected cols fun j => collected inner fun k =>
        [p.plus (inner * i + k), q.plus (cols * k + j)])
      (collected rows fun i => collected cols fun j => [r.plus (cols * i + j)])
      (collected rows fun i => collected cols fun j =>
        (collected inner fun k => [inner * i, inner * i + k, cols * k, cols * k + j]) ++
          [cols * i, cols * i + j])
      (multiplyMmNaive (some p) rows inner (some q) inner cols (some r) m) := by
  have positive := accepted_dimensions.mpr ⟨some_row, some_inner, some_inner, some_col⟩
  simp only [multiplyMmNaive, Rounding.multiplyMmNaive, checked_accepts positive, ne_eq,
    not_true_eq_false, ↓reduceIte]
  exact each_element_logged some_row.le some_col.le some_inner.le p q r (cols * ·)
    (fun i _ k => inner * i + k) (fun _ j k => cols * k + j)
    (fun i j k => [inner * i, inner * i + k, cols * k, cols * k + j]) m

theorem transposed_logged {innerB : Int} (some_row : 0 < rows) (some_inner : 0 < inner)
    (some_innerB : 0 < innerB) (some_col : 0 < cols) (m : Memory R) :
    Logged m
      (collected rows fun i => collected cols fun j => collected inner fun k =>
        [p.plus (i * inner + k), q.plus (j * innerB + k)])
      (collected rows fun i => collected cols fun j => [r.plus (i * cols + j)])
      (collected rows fun i => collected cols fun j =>
        (collected inner fun k => [i * inner, i * inner + k, j * innerB, j * innerB + k]) ++
          [i * cols, i * cols + j])
      (multiplyMmTransposedB (some p) rows inner (some q) innerB cols (some r) m) := by
  have positive := accepted_dimensions.mpr ⟨some_row, some_inner, some_innerB, some_col⟩
  simp only [multiplyMmTransposedB, Rounding.multiplyMmTransposedB, checked_accepts positive]
  exact each_element_logged some_row.le some_col.le some_inner.le p q r (· * cols)
    (fun i _ k => i * inner + k) (fun _ j k => j * innerB + k)
    (fun i j k => [i * inner, i * inner + k, j * innerB, j * innerB + k]) m

end Kernels

section Overflow
variable {rows cols inner : Int}

/-- An int holds the indices of a table and of the beginnings of its rows. -/
def TableFits (rows cols : Int) : Prop :=
  ∀ i j, 0 ≤ i → i < rows → 0 ≤ j → j < cols → InInt (i * cols) ∧ InInt (i * cols + j)

theorem table_fits_iff (some_row : 0 < rows) (some_col : 0 < cols) :
    TableFits rows cols ↔ rows * cols ≤ 2 ^ 31 := by
  constructor
  · intro fits
    have last := (fits (rows - 1) (cols - 1) (by omega) (by omega) (by omega) (by omega)).2.2
    rw [Int.sub_mul, Int.one_mul, intMax] at last
    omega
  · intro small i j i_nonneg i_below j_nonneg j_below
    obtain ⟨low, high⟩ := place_inside i_nonneg i_below j_nonneg j_below
    have first : 0 ≤ i * cols := Int.mul_nonneg i_nonneg some_col.le
    simp only [InInt, intMin, intMax]
    omega

theorem table_ints : (∀ v ∈ collected rows fun i => collected cols fun j =>
    [i * cols, i * cols + j], InInt v) ↔ TableFits rows cols := by
  simp only [mem_collected, List.mem_cons, List.not_mem_nil, or_false]
  constructor
  · intro fits i j i_nonneg i_below j_nonneg j_below
    exact ⟨fits _ ⟨i, i_nonneg, i_below, j, j_nonneg, j_below, .inl rfl⟩,
      fits _ ⟨i, i_nonneg, i_below, j, j_nonneg, j_below, .inr rfl⟩⟩
  · rintro fits v ⟨i, i_nonneg, i_below, j, j_nonneg, j_below, rfl | rfl⟩
    · exact (fits i j i_nonneg i_below j_nonneg j_below).1
    · exact (fits i j i_nonneg i_below j_nonneg j_below).2

theorem optimised_ints (some_row : 0 < rows) (some_col : 0 < cols) (int : InInt cols) :
    (∀ v ∈ collected rows fun row => [row * cols] ++
      collected (cols / 4) fun b => [4 * b + 1, 4 * b + 2, 4 * b + 3], InInt v) ↔
      (rows - 1) * cols < 2 ^ 31 := by
  simp only [mem_collected, List.mem_append, List.mem_cons, List.not_mem_nil, or_false, InInt,
    intMin, intMax] at int ⊢
  constructor
  · intro fits
    have last := fits _ ⟨rows - 1, by omega, by omega, .inl rfl⟩
    omega
  · rintro small v ⟨row, nonneg, below, rfl | ⟨b, b_nonneg, b_below, member⟩⟩
    · have first : 0 ≤ row * cols := Int.mul_nonneg nonneg some_col.le
      have last : row * cols ≤ (rows - 1) * cols :=
        Int.mul_le_mul_of_nonneg_right (by omega) some_col.le
      omega
    · omega

theorem product_ints (left right : Int → Int → List Int) (start : Int → Int) (some_row : 0 < rows)
    (some_col : 0 < cols) :
    (∀ v ∈ collected rows fun i => collected cols fun j =>
        collected inner (fun k => left i k ++ right j k) ++ [start i, start i + j], InInt v) ↔
      (∀ i k, 0 ≤ i → i < rows → 0 ≤ k → k < inner → ∀ v ∈ left i k, InInt v) ∧
      (∀ j k, 0 ≤ j → j < cols → 0 ≤ k → k < inner → ∀ v ∈ right j k, InInt v) ∧
      ∀ i j, 0 ≤ i → i < rows → 0 ≤ j → j < cols → InInt (start i) ∧ InInt (start i + j) := by
  simp only [mem_collected, List.mem_append, List.mem_cons, List.not_mem_nil, or_false]
  constructor
  · intro fits
    have here i j v (i_nonneg : 0 ≤ i) (i_below : i < rows) (j_nonneg : 0 ≤ j) (j_below : j < cols)
        found := fits v ⟨i, i_nonneg, i_below, j, j_nonneg, j_below, found⟩
    refine ⟨?_, ?_, ?_⟩
    · intro i k i_nonneg i_below k_nonneg k_below v member
      exact here i 0 v i_nonneg i_below le_rfl some_col (.inl ⟨k, k_nonneg, k_below, .inl member⟩)
    · intro j k j_nonneg j_below k_nonneg k_below v member
      exact here 0 j v le_rfl some_row j_nonneg j_below (.inl ⟨k, k_nonneg, k_below, .inr member⟩)
    · intro i j i_nonneg i_below j_nonneg j_below
      exact ⟨here i j _ i_nonneg i_below j_nonneg j_below (.inr (.inl rfl)),
        here i j _ i_nonneg i_below j_nonneg j_below (.inr (.inr rfl))⟩
  · rintro ⟨lefts, rights, places⟩ v ⟨i, i_nonneg, i_below, j, j_nonneg, j_below, found⟩
    rcases found with ⟨k, k_nonneg, k_below, member | member⟩ | rfl | rfl
    · exact lefts i k i_nonneg i_below k_nonneg k_below v member
    · exact rights j k j_nonneg j_below k_nonneg k_below v member
    · exact (places i j i_nonneg i_below j_nonneg j_below).1
    · exact (places i j i_nonneg i_below j_nonneg j_below).2

theorem naive_ints (some_row : 0 < rows) (some_inner : 0 < inner) (some_col : 0 < cols) :
    (∀ v ∈ collected rows fun i => collected cols fun j =>
        (collected inner fun k => [inner * i, inner * i + k, cols * k, cols * k + j]) ++
          [cols * i, cols * i + j], InInt v) ↔
      rows * inner ≤ 2 ^ 31 ∧ inner * cols ≤ 2 ^ 31 ∧ rows * cols ≤ 2 ^ 31 := by
  rw [← table_fits_iff some_row some_inner, ← table_fits_iff some_inner some_col,
    ← table_fits_iff some_row some_col]
  refine (product_ints (fun i k => [inner * i, inner * i + k])
    (fun j k => [cols * k, cols * k + j]) (cols * ·) some_row some_col).trans ?_
  simp only [mul_comm inner, mul_comm cols, List.forall_mem_cons, List.not_mem_nil, false_implies,
    implies_true, and_true]
  refine and_congr_right fun _ => and_congr_left fun _ => ⟨?_, ?_⟩
  · exact fun fits k j k_nonneg k_below j_nonneg j_below =>
      fits j k j_nonneg j_below k_nonneg k_below
  · exact fun fits j k j_nonneg j_below k_nonneg k_below =>
      fits k j k_nonneg k_below j_nonneg j_below

theorem transposed_ints (some_row : 0 < rows) (some_inner : 0 < inner) (some_col : 0 < cols) :
    (∀ v ∈ collected rows fun i => collected cols fun j =>
        (collected inner fun k => [i * inner, i * inner + k, j * inner, j * inner + k]) ++
          [i * cols, i * cols + j], InInt v) ↔
      rows * inner ≤ 2 ^ 31 ∧ inner * cols ≤ 2 ^ 31 ∧ rows * cols ≤ 2 ^ 31 := by
  rw [← table_fits_iff some_row some_inner, mul_comm inner cols,
    ← table_fits_iff some_col some_inner, ← table_fits_iff some_row some_col]
  refine (product_ints (fun i k => [i * inner, i * inner + k])
    (fun j k => [j * inner, j * inner + k]) (· * cols) some_row some_col).trans ?_
  simp only [List.forall_mem_cons, List.not_mem_nil, false_implies, implies_true, and_true]
  rfl

def IndicesFit {R : Type} (run : Memory R → Memory R) : Prop :=
  ∀ m, ∃ ints, (run m).ints = m.ints ++ ints ∧ ∀ v ∈ ints, InInt v

variable {R : Type} [CommRing R]

theorem logged_fits {run : Memory R → Memory R} {reads writes : List Pointer} {ints : List Int}
    (logged : ∀ m, Logged m reads writes ints (run m)) :
    IndicesFit run ↔ ∀ v ∈ ints, InInt v := by
  constructor
  · intro fits
    obtain ⟨others, added, inside⟩ := fits (operands 0 0 0)
    have same : others = ints := List.append_cancel_left (added.symm.trans (logged _).ints)
    rwa [same] at inside
  · exact fun inside m => ⟨ints, (logged m).ints, inside⟩

/-- The guards bound the dimensions from below only, so each kernel also needs its tables to be
    small; the unrolled one computes where its rows begin and no more. -/
theorem indices_fit_iff (p q r : Pointer) (some_row : 0 < rows) (some_inner : 0 < inner)
    (some_col : 0 < cols) (int : InInt cols) :
    (IndicesFit (multiplyMvRowMajor (some p) rows cols (some q) (some r) (R := R)) ↔
      rows * cols ≤ 2 ^ 31) ∧
    (IndicesFit (multiplyMvRowMajorOptimised (some p) rows cols (some q) (some r) (R := R)) ↔
      (rows - 1) * cols < 2 ^ 31) ∧
    (IndicesFit (multiplyMvColMajor (some p) rows cols (some q) (some r) (R := R)) ↔
      rows * cols ≤ 2 ^ 31) ∧
    (IndicesFit (multiplyMmNaive (some p) rows inner (some q) inner cols (some r) (R := R)) ↔
      rows * inner ≤ 2 ^ 31 ∧ inner * cols ≤ 2 ^ 31 ∧ rows * cols ≤ 2 ^ 31) := by
  refine ⟨?_, ?_, ?_, ?_⟩
  · rw [logged_fits (row_major_logged p q r some_row some_col), table_ints,
      table_fits_iff some_row some_col]
  · rw [logged_fits (optimised_logged p q r some_row some_col),
      optimised_ints some_row some_col int]
  · refine (logged_fits (col_major_logged p q r some_row some_col "multiply_mv_col_major")).trans ?_
    rw [table_ints, table_fits_iff some_col some_row, mul_comm]
  · rw [logged_fits (naive_logged p q r some_row some_inner some_col),
      naive_ints some_row some_inner some_col]

theorem indices_fit_iff_hundred :
    IndicesFit (multiplyMvRowMajor (some leftAt) 100 100 (some rightAt) (some productAt)
      (R := Int)) :=
  (indices_fit_iff leftAt rightAt productAt (by decide) Int.one_pos (by decide)
    (by decide)).1.mpr (by decide)

theorem square_overflows :
    InInt 46341 ∧ ¬ IndicesFit (multiplyMvRowMajor (some leftAt) 46341 46341 (some rightAt)
      (some productAt) (R := Int)) := by
  refine ⟨by decide, fun fits => ?_⟩
  rw [logged_fits (row_major_logged leftAt rightAt productAt (by decide) (by decide)), table_ints,
    table_fits_iff (by decide) (by decide)] at fits
  exact absurd fits (by decide)

end Overflow

section Bounds
variable {rowsA colsA rowsB colsB rows cols inner : Int}

abbrev ProductKernel (R : Type) : Type :=
  Option Pointer → Int → Int → Option Pointer → Int → Int → Option Pointer → Memory R → Memory R

/-- The numbers of elements of a call's arrays. -/
def extent (rowsA colsA rowsB colsB : Int) : Operand → Int
  | .left => rowsA * colsA
  | .right => rowsB * colsB
  | .product => rowsA * colsB

structure InBounds {R : Type} (extent : Operand → Int) (m : Memory R) : Prop where
  accesses : ∀ p ∈ m.reads ++ m.writes, 0 ≤ p.offset ∧ p.offset < extent p.array
  ints : ∀ v ∈ m.ints, InInt v

/-- A call of the right shape stays in the arrays, and any other one does nothing. -/
def Guarded {R : Type} (kernel : ProductKernel R) (rowsA colsA rowsB colsB : Int)
    (left right result : Int → R) : Prop :=
  let n := kernel (some leftAt) rowsA colsA (some rightAt) rowsB colsB (some productAt)
    (operands left right result)
  ((0 < rowsA ∧ 0 < colsA ∧ 0 < rowsB ∧ 0 < colsB) ∧ colsA = rowsB ∧
      InBounds (extent rowsA colsA rowsB colsB) n) ∨
    (n.cells .product = result ∧ n.reads = [])

theorem product_accesses {f g : Int → Int → Int} {start : Int → Int}
    (lefts : ∀ i k, 0 ≤ i → i < rows → 0 ≤ k → k < inner → 0 ≤ f i k ∧ f i k < rows * inner)
    (rights : ∀ j k, 0 ≤ j → j < cols → 0 ≤ k → k < inner → 0 ≤ g j k ∧ g j k < inner * cols)
    (places : ∀ i j, 0 ≤ i → i < rows → 0 ≤ j → j < cols →
      0 ≤ start i + j ∧ start i + j < rows * cols) :
    ∀ p ∈ (collected rows fun i => collected cols fun j => collected inner fun k =>
        [leftAt.plus (f i k), rightAt.plus (g j k)]) ++
        collected rows fun i => collected cols fun j => [productAt.plus (start i + j)],
      0 ≤ p.offset ∧ p.offset < extent rows inner inner cols p.array := by
  intro p member
  simp only [List.mem_append, mem_collected, List.mem_cons, List.not_mem_nil, or_false] at member
  rcases member with ⟨i, i_nonneg, i_below, j, j_nonneg, j_below, k, k_nonneg, k_below, rfl | rfl⟩ |
    ⟨i, i_nonneg, i_below, j, j_nonneg, j_below, rfl⟩
  · simpa only [Pointer.plus, zero_add, extent] using lefts i k i_nonneg i_below k_nonneg k_below
  · simpa only [Pointer.plus, zero_add, extent] using rights j k j_nonneg j_below k_nonneg k_below
  · simpa only [Pointer.plus, zero_add, extent] using places i j i_nonneg i_below j_nonneg j_below

variable {R : Type} {left right result : Int → R}

theorem logged_in_bounds {reads writes : List Pointer} {ints : List Int} {size : Operand → Int}
    {n : Memory R} (logged : Logged (operands left right result) reads writes ints n)
    (inside : ∀ p ∈ reads ++ writes, 0 ≤ p.offset ∧ p.offset < size p.array) :
    InBounds size n ↔ ∀ v ∈ ints, InInt v := by
  have reads_same : n.reads = reads := logged.reads
  have writes_same : n.writes = writes := logged.writes
  have ints_same : n.ints = ints := logged.ints
  constructor
  · intro bounds
    rw [← ints_same]
    exact bounds.ints
  · intro fits
    refine ⟨?_, ?_⟩
    · rwa [reads_same, writes_same]
    · rwa [ints_same]

variable [CommRing R]

theorem naive_in_bounds_iff (some_row : 0 < rows) (some_inner : 0 < inner) (some_col : 0 < cols) :
    InBounds (extent rows inner inner cols)
      (multiplyMmNaive (some leftAt) rows inner (some rightAt) inner cols (some productAt)
        (operands left right result)) ↔
      rows * inner ≤ 2 ^ 31 ∧ inner * cols ≤ 2 ^ 31 ∧ rows * cols ≤ 2 ^ 31 := by
  have logged := naive_logged leftAt rightAt productAt some_row some_inner some_col
    (operands left right result)
  rw [logged_in_bounds logged, naive_ints some_row some_inner some_col]
  refine product_accesses (fun i k i_nonneg i_below k_nonneg k_below => ?_)
    (fun j k j_nonneg j_below k_nonneg k_below => ?_)
    fun i j i_nonneg i_below j_nonneg j_below => ?_
  · rw [mul_comm inner]
    exact place_inside i_nonneg i_below k_nonneg k_below
  · rw [mul_comm cols]
    exact place_inside k_nonneg k_below j_nonneg j_below
  · rw [mul_comm cols]
    exact place_inside i_nonneg i_below j_nonneg j_below

theorem transposed_in_bounds_iff (some_row : 0 < rows) (some_inner : 0 < inner)
    (some_col : 0 < cols) :
    InBounds (extent rows inner inner cols)
      (multiplyMmTransposedB (some leftAt) rows inner (some rightAt) inner cols (some productAt)
        (operands left right result)) ↔
      rows * inner ≤ 2 ^ 31 ∧ inner * cols ≤ 2 ^ 31 ∧ rows * cols ≤ 2 ^ 31 := by
  have logged := transposed_logged leftAt rightAt productAt some_row some_inner some_inner some_col
    (operands left right result)
  rw [logged_in_bounds logged, transposed_ints some_row some_inner some_col]
  refine product_accesses (fun i k i_nonneg i_below k_nonneg k_below => ?_)
    (fun j k j_nonneg j_below k_nonneg k_below => ?_)
    fun i j i_nonneg i_below j_nonneg j_below => ?_
  · exact place_inside i_nonneg i_below k_nonneg k_below
  · rw [mul_comm inner]
    exact place_inside j_nonneg j_below k_nonneg k_below
  · exact place_inside i_nonneg i_below j_nonneg j_below

theorem accepted_reads {f g : Int → Int → Int → Int} (some_row : 0 < rows) (some_inner : 0 < inner)
    (some_col : 0 < cols) (p q : Pointer) :
    (collected rows fun i => collected cols fun j => collected inner fun k =>
      [p.plus (f i j k), q.plus (g i j k)]) ≠ [] := by
  refine List.ne_nil_of_mem (a := p.plus (f 0 0 0)) ?_
  simp only [mem_collected]
  exact ⟨0, le_rfl, some_row, 0, le_rfl, some_col, 0, le_rfl, some_inner, List.mem_cons_self⟩

theorem naive_guarded_iff (left right result : Int → R) :
    Guarded multiplyMmNaive rowsA colsA rowsB colsB left right result ↔
      ((0 < rowsA ∧ 0 < colsA ∧ 0 < rowsB ∧ 0 < colsB) → colsA = rowsB →
        rowsA * colsA ≤ 2 ^ 31 ∧ rowsB * colsB ≤ 2 ^ 31 ∧ rowsA * colsB ≤ 2 ^ 31) := by
  by_cases invalid : ∃ d ∈ [rowsA, colsA, rowsB, colsB], d ≤ 0
  · refine iff_of_true (.inr ?_) fun positive => absurd invalid (accepted_dimensions.mpr positive)
    simp only [multiplyMmNaive, Rounding.multiplyMmNaive, checked_rejects invalid]
    exact ⟨rfl, rfl⟩
  have positive := accepted_dimensions.mp invalid
  by_cases shape : colsA = rowsB
  · subst shape
    have logged := naive_logged leftAt rightAt productAt positive.1 positive.2.1 positive.2.2.2
      (operands left right result)
    have reads : (multiplyMmNaive (some leftAt) rowsA colsA (some rightAt) colsA colsB
        (some productAt) (operands left right result)).reads ≠ [] :=
      logged.reads ▸ List.append_ne_nil_of_right_ne_nil _
        (accepted_reads positive.1 positive.2.1 positive.2.2.2 leftAt rightAt)
    simp only [Guarded, positive, reads, and_false, or_false, true_and, forall_const,
      naive_in_bounds_iff positive.1 positive.2.1 positive.2.2.2, and_self]
  · refine iff_of_true (.inr ?_) fun _ same => absurd same shape
    simp only [multiplyMmNaive, Rounding.multiplyMmNaive, checked_accepts invalid, ne_eq, shape,
      not_false_eq_true, ↓reduceIte]
    exact ⟨rfl, rfl⟩

theorem transposed_guarded_iff (left right result : Int → R) :
    Guarded multiplyMmTransposedB rowsA colsA rowsB colsB left right result ↔
      ((0 < rowsA ∧ 0 < colsA ∧ 0 < rowsB ∧ 0 < colsB) → colsA = rowsB ∧
        rowsA * colsA ≤ 2 ^ 31 ∧ rowsB * colsB ≤ 2 ^ 31 ∧ rowsA * colsB ≤ 2 ^ 31) := by
  by_cases invalid : ∃ d ∈ [rowsA, colsA, rowsB, colsB], d ≤ 0
  · refine iff_of_true (.inr ?_) fun positive => absurd invalid (accepted_dimensions.mpr positive)
    simp only [multiplyMmTransposedB, Rounding.multiplyMmTransposedB, checked_rejects invalid]
    exact ⟨rfl, rfl⟩
  have positive := accepted_dimensions.mp invalid
  have logged := transposed_logged leftAt rightAt productAt positive.1 positive.2.1 positive.2.2.1
    positive.2.2.2 (operands left right result)
  have reads : (multiplyMmTransposedB (some leftAt) rowsA colsA (some rightAt) rowsB colsB
      (some productAt) (operands left right result)).reads ≠ [] :=
    logged.reads ▸ List.append_ne_nil_of_right_ne_nil _
      (accepted_reads positive.1 positive.2.1 positive.2.2.2 leftAt rightAt)
  by_cases shape : colsA = rowsB
  · subst shape
    simp only [Guarded, positive, reads, and_false, or_false, true_and, forall_const,
      transposed_in_bounds_iff positive.1 positive.2.1 positive.2.2.2, and_self]
  · simp only [Guarded, positive, reads, shape, and_false, or_false, false_and, forall_const,
      and_self]

/-- The three kernels together. The two for the transpose lack a check of the shape that the
    other one has, and none bounds the sizes of the tables. -/
theorem guarded_iff (rowsA colsA rowsB colsB : Int) (left right result : Int → R) :
    (Guarded multiplyMmNaive rowsA colsA rowsB colsB left right result ∧
      Guarded multiplyMmTransposedB rowsA colsA rowsB colsB left right result ∧
      Guarded multiplyMmTransposedBInline rowsA colsA rowsB colsB left right result) ↔
      (∃ d ∈ [rowsA, colsA, rowsB, colsB], d ≤ 0) ∨ colsA = rowsB ∧
        rowsA * colsA ≤ 2 ^ 31 ∧ rowsB * colsB ≤ 2 ^ 31 ∧ rowsA * colsB ≤ 2 ^ 31 := by
  have inline : Guarded (R := R) multiplyMmTransposedBInline rowsA colsA rowsB colsB left right
      result ↔ Guarded multiplyMmTransposedB rowsA colsA rowsB colsB left right result := by
    unfold Guarded
    rw [transposed_inline_eq]
  rw [inline, and_self, naive_guarded_iff, transposed_guarded_iff, ← accepted_dimensions]
  constructor
  · rintro ⟨-, transposed⟩
    by_cases invalid : ∃ d ∈ [rowsA, colsA, rowsB, colsB], d ≤ 0
    · exact .inl invalid
    · exact .inr (transposed invalid)
  · rintro (invalid | ⟨shape, fits⟩)
    · exact ⟨fun valid => absurd invalid valid, fun valid => absurd invalid valid⟩
    · exact ⟨fun _ _ => fits, fun _ => ⟨shape, fits⟩⟩

/-- Two columns and one row: the second element of B's array of one is read. -/
theorem transposed_reads_past_end :
    (multiplyMmTransposedB (some leftAt) 1 2 (some rightAt) 1 1 (some productAt)
        (operands (fun _ => 1) (fun _ => 1) fun _ => (0 : Int))).reads =
      [leftAt.plus 0, rightAt.plus 0, leftAt.plus 1, rightAt.plus 1] ∧
      ¬ Guarded multiplyMmTransposedB 1 2 1 1 (fun _ => 1) (fun _ => 1) fun _ => (0 : Int) := by
  refine ⟨by decide, fun guarded => ?_⟩
  exact absurd ((transposed_guarded_iff _ _ _).mp guarded (by decide)).1 (by decide)

end Bounds
end Phase1
