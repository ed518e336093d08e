import TradingSystems.Phase1.Kernels
import Mathlib.Algebra.Ring.Defs
import Mathlib.Tactic.Abel

/- The matrix-vector kernels over a commutative ring, where nothing is rounded. -/
namespace Phase1
open Loops RoundedSums

section Kernels
variable {R : Type} [CommRing R]

def addProduct (p q : Pointer) (i j : Int) (s : R × Memory R) : R × Memory R :=
  Rounding.addProduct unrounded p q i j s

def rowProduct (matrix vector : Pointer) (cols row : Int) (m : Memory R) : R × Memory R :=
  Rounding.rowProduct unrounded matrix vector cols row m

def multiplyMvRowMajor (matrix : Option Pointer) (rows cols : Int)
    (vector result : Option Pointer) (m : Memory R) : Memory R :=
  Rounding.multiplyMvRowMajor unrounded matrix rows cols vector result m

def Unrolled.round (row vector : Pointer) (i : Int) (s : Unrolled R) : Unrolled R :=
  Rounding.round unrounded row vector i s

def Unrolled.total (s : Unrolled R) : R := Rounding.total unrounded s

def dotProductUnrolledAligned (row vector : Pointer) (cols : Int) (m : Memory R) :
    R × Memory R := Rounding.dotProductUnrolledAligned unrounded row vector cols m

def multiplyMvRowMajorOptimised (matrix : Option Pointer) (rows cols : Int)
    (vector result : Option Pointer) (m : Memory R) : Memory R :=
  Rounding.multiplyMvRowMajorOptimised unrounded matrix rows cols vector result m

def addToRow (matrix vector result : Pointer) (rows col row : Int) (m : Memory R) : Memory R :=
  Rounding.addToRow unrounded matrix vector result rows col row m

def colMajor (name : String) (matrix : Option Pointer) (rows cols : Int)
    (vector result : Option Pointer) (m : Memory R) : Memory R :=
  Rounding.colMajor unrounded name matrix rows cols vector result m

def multiplyMvColMajor (matrix : Option Pointer) (rows cols : Int)
    (vector result : Option Pointer) (m : Memory R) : Memory R :=
  Rounding.multiplyMvColMajor unrounded matrix rows cols vector result m

def multiplyMvColMajorInline (matrix : Option Pointer) (rows cols : Int)
    (vector result : Option Pointer) (m : Memory R) : Memory R :=
  Rounding.multiplyMvColMajorInline unrounded matrix rows cols vector result m

section Steps
variable {p q row vector : Pointer} {i j : Int} {temp : R} {m : Memory R} {s : Unrolled R}

theorem add_product_eq : addProduct p q i j (temp, m) =
    (temp + m.view p i * m.view q j, ((m.load p i).2.load q j).2) := rfl

theorem total_eq : s.total = s.sum0 + s.sum1 + s.sum2 + s.sum3 := rfl

theorem add_product_unrounded : Rounding.addProduct (unrounded : Arithmetic R) = addProduct := rfl

theorem row_product_unrounded : Rounding.rowProduct (unrounded : Arithmetic R) = rowProduct := rfl

theorem dot_product_unrounded : Rounding.dotProductUnrolledAligned (unrounded : Arithmetic R) =
    dotProductUnrolledAligned := rfl

theorem add_to_row_unrounded : Rounding.addToRow (unrounded : Arithmetic R) = addToRow := rfl

end Steps
end Kernels

section Reading
variable {R : Type} {m n : Memory R} {p q : Pointer} {i j : Int} {x : R}

theorem plus_plus : (p.plus i).plus j = p.plus (i + j) := by
  simp [Pointer.plus, Int.add_assoc]

theorem view_plus : m.view (p.plus i) j = m.view p (i + j) := by
  simp [Memory.view, Pointer.plus, Int.add_assoc]

theorem view_cells (same : n.cells = m.cells) : n.view p = m.view p := by
  funext i
  rw [Memory.view, Memory.view, same]

theorem store_view : (m.store p i x).view p = Function.update (m.view p) i x := by
  funext j
  by_cases here : j = i
  · simp [Memory.view, Memory.store, here]
  · simp [Memory.view, Memory.store, here]

theorem store_view_other (apart : q.array ≠ p.array) : (m.store p i x).view q = m.view q := by
  funext j
  simp [Memory.view, Memory.store, apart]

theorem store_held (same : m.view p i = x) : (m.store p i x).cells = m.cells := by
  subst same
  have inner : Function.update (m.cells p.array) (p.offset + i) (m.view p i) = m.cells p.array :=
    Function.update_eq_self _ _
  rw [Memory.store, inner]
  exact Function.update_eq_self _ _

end Reading

section Sums
variable {R : Type} [CommRing R] {m m' : Memory R} {f : Int → R} {reads : Int → List Pointer}
  {p q : Pointer} {i j n : Int} {temp rest total : R}

/-- The terms below `n` were added up and nothing was written. -/
structure Summed (m : Memory R) (f : Int → R) (reads : Int → List Pointer) (n : Int)
    (s : R × Memory R) : Prop where
  total : s.1 = sumTo n f
  cells : s.2.cells = m.cells
  reads : s.2.reads = m.reads ++ collected n reads
  writes : s.2.writes = m.writes

theorem summed_zero : Summed m f reads 0 (0, m) where
  total := sum_to_zero.symm
  cells := rfl
  reads := by rw [collected_zero, List.append_nil]
  writes := rfl

theorem Summed.computed (held : Summed m f reads n (total, m')) (values : List Int) :
    Summed m f reads n (total, m'.computed values) :=
  ⟨held.total, held.cells, held.reads, held.writes⟩

theorem Summed.add (held : Summed m f reads n (total, m')) (nonneg : 0 ≤ n)
    (term : f n = m.view p i * m.view q j) (read : reads n = [p.plus i, q.plus j])
    (one : total = rest + temp) :
    Summed m f reads (n + 1)
      (rest + (addProduct p q i j (temp, m')).1, (addProduct p q i j (temp, m')).2) where
  total := by
    have left : m'.view p i = m.view p i := congrFun (view_cells held.cells) i
    have right : m'.view q j = m.view q j := congrFun (view_cells held.cells) j
    have before : total = sumTo n f := held.total
    rw [sum_to_succ nonneg, term, ← before, one, ← left, ← right, add_assoc]
    rfl
  cells := held.cells
  reads := by
    have before : m'.reads = m.reads ++ collected n reads := held.reads
    rw [collected_succ nonneg, read, ← List.append_assoc, ← before]
    simp [add_product_eq, Memory.load]
  writes := held.writes

theorem element_summed (p q : Pointer) (f g : Int → Int) (values : Int → List Int)
    (nonneg : 0 ≤ n) (m : Memory R) :
    Summed m (fun k => m.view p (f k) * m.view q (g k))
      (fun k => [p.plus (f k), q.plus (g k)]) n
      (forBelow n 1 (fun k (temp, m) =>
        addProduct p q (f k) (g k) (temp, m.computed (values k))) 0 (0, m)).2 := by
  refine count_rule (Summed m _ _) ?_ nonneg summed_zero
  intro k s low high held
  obtain ⟨temp, m'⟩ := s
  have added := (held.computed (values k)).add (i := f k) (j := g k) low rfl rfl
    (zero_add temp).symm
  rwa [zero_add] at added

theorem row_product_summed (matrix vector : Pointer) {cols : Int} (nonneg : 0 ≤ cols) (row : Int)
    (m : Memory R) :
    Summed m (fun col => m.view matrix (row * cols + col) * m.view vector col)
      (fun col => [matrix.plus (row * cols + col), vector.plus col]) cols
      (rowProduct matrix vector cols row m) :=
  element_summed matrix vector (row * cols + ·) id
    (fun col => [row * cols, row * cols + col]) nonneg m

abbrev dotTerm (m : Memory R) (row vector : Pointer) (col : Int) : R :=
  m.view row col * m.view vector col

abbrev dotReads (row vector : Pointer) (col : Int) : List Pointer := [row.plus col, vector.plus col]

theorem round_summed {row vector : Pointer} {s : Unrolled R} (nonneg : 0 ≤ i)
    (held : Summed m (dotTerm m row vector) (dotReads row vector) i (s.total, s.memory)) :
    Summed m (dotTerm m row vector) (dotReads row vector) (i + 4)
      ((s.round row vector i).total, (s.round row vector i).memory) := by
  let a := addProduct row vector i i (s.sum0, s.memory)
  let b := addProduct row vector (i + 1) (i + 1) (s.sum1, a.2.computed [i + 1])
  let c := addProduct row vector (i + 2) (i + 2) (s.sum2, b.2.computed [i + 2])
  have first : s.total = s.sum1 + s.sum2 + s.sum3 + s.sum0 := by
    rw [total_eq]
    abel
  have second : s.sum1 + s.sum2 + s.sum3 + a.1 = a.1 + s.sum2 + s.sum3 + s.sum1 := by abel
  have third : a.1 + s.sum2 + s.sum3 + b.1 = a.1 + b.1 + s.sum3 + s.sum2 := by abel
  have fourth : a.1 + b.1 + s.sum3 + c.1 = a.1 + b.1 + c.1 + s.sum3 := by abel
  have one := held.add nonneg rfl rfl first
  have two := (one.computed [i + 1]).add (by omega) rfl rfl second
  rw [add_assoc i 1 1] at two
  have three := (two.computed [i + 2]).add (by omega) rfl rfl third
  rw [add_assoc i _ 1] at three
  have four := (three.computed [i + 3]).add (by omega) rfl rfl fourth
  rw [add_assoc i _ 1] at four
  exact four

theorem unrolled_summed (row vector : Pointer) {cols : Int} (nonneg : 0 ≤ cols) (m : Memory R) :
    let s := forBelow (cols - 3) 4 (Unrolled.round row vector) 0 ⟨0, 0, 0, 0, m⟩
    0 ≤ s.1 ∧ s.1 ≤ cols ∧
      Summed m (dotTerm m row vector) (dotReads row vector) s.1 (s.2.total, s.2.memory) := by
  refine (for_below_rule (fun i (s : Unrolled R) => 0 ≤ i ∧ i ≤ cols ∧
    Summed m (dotTerm m row vector) (dotReads row vector) i (s.total, s.memory))
    (by decide) ?_ ?_).1
  · intro i s inside held
    exact ⟨by omega, by omega, round_summed held.1 held.2.2⟩
  · refine ⟨le_rfl, nonneg, ?_⟩
    simpa [total_eq] using summed_zero (R := R)

/-- The four accumulators and the remainder add up the same terms in the same order of
    columns. -/
theorem dot_product_summed (row vector : Pointer) {cols : Int} (nonneg : 0 ≤ cols)
    (m : Memory R) :
    Summed m (dotTerm m row vector) (dotReads row vector) cols
      (dotProductUnrolledAligned row vector cols m) := by
  obtain ⟨low, high, held⟩ := unrolled_summed row vector nonneg m
  refine count_rule (Summed m _ _) ?_ high held
  intro col s later below held
  obtain ⟨total, m'⟩ := s
  have added := held.add (low.trans later) rfl rfl (zero_add total).symm
  rwa [zero_add] at added

end Sums

/-- The two memories hold the same data and were accessed alike. -/
structure SameData {R : Type} (m n : Memory R) : Prop where
  cells : n.cells = m.cells
  reads : n.reads = m.reads
  writes : n.writes = m.writes

section Agreement
variable {R : Type} {m n : Memory R}

theorem checked_same {name other : String} {first second result : Option Pointer}
    {dimensions : List Int} {body rest : Pointer → Pointer → Pointer → Memory R}
    (same : ∀ p q r, (∀ d ∈ dimensions, 0 < d) → SameData (body p q r) (rest p q r)) :
    SameData (checked name first second result dimensions m body)
      (checked other first second result dimensions m rest) := by
  unfold checked
  split
  · split
    · exact ⟨rfl, rfl, rfl⟩
    · rename_i positive
      push Not at positive
      exact same _ _ _ positive
  · exact ⟨rfl, rfl, rfl⟩

theorem SameData.store {x y : R} (same : SameData m n) (value : y = x) (p : Pointer) (i : Int) :
    SameData (m.store p i x) (n.store p i y) := by
  subst value
  exact ⟨by rw [Memory.store, Memory.store, same.cells], same.reads,
    congrArg (· ++ [p.plus i]) same.writes⟩

variable [CommRing R]

theorem row_same (same : SameData m n) {cols : Int} (nonneg : 0 ≤ cols)
    (matrix vector : Pointer) (row : Int) (values : List Int) :
    let plain := rowProduct matrix vector cols row m
    let unrolled := dotProductUnrolledAligned (matrix.plus (row * cols)) vector cols
      (n.computed values)
    unrolled.1 = plain.1 ∧ SameData plain.2 unrolled.2 := by
  have plain := row_product_summed matrix vector nonneg row m
  have unrolled := dot_product_summed (matrix.plus (row * cols)) vector nonneg (n.computed values)
  have cells : (n.computed values).cells = m.cells := same.cells
  have terms : dotTerm (n.computed values) (matrix.plus (row * cols)) vector =
      fun col => m.view matrix (row * cols + col) * m.view vector col := by
    funext col
    rw [dotTerm, view_plus, view_cells cells, view_cells cells]
  have addresses : dotReads (matrix.plus (row * cols)) vector =
      fun col => [matrix.plus (row * cols + col), vector.plus col] := by
    funext col
    rw [dotReads, plus_plus]
  rw [terms, addresses] at unrolled
  refine ⟨unrolled.total.trans plain.total.symm, ?_, ?_, ?_⟩
  · rw [unrolled.cells, plain.cells, cells]
  · rw [unrolled.reads, plain.reads]
    exact congrArg (· ++ _) same.reads
  · rw [unrolled.writes, plain.writes]
    exact same.writes

/-- The unrolled kernel writes what the plain one writes, from the same reads, also where
    the arrays of the call are the same ones; a row and the vector are read column by
    column, each column once. -/
theorem optimised_same (matrix vector result : Option Pointer) (rows cols : Int) (m : Memory R) :
    SameData (multiplyMvRowMajor matrix rows cols vector result m)
      (multiplyMvRowMajorOptimised matrix rows cols vector result m) ∧
    ∀ row vector : Pointer, (dotProductUnrolledAligned row vector cols m).2.reads = m.reads ++
      (List.range cols.toNat).flatMap fun col : Nat => [row.plus col, vector.plus col] := by
  constructor
  · refine checked_same fun matrix vector result positive => ?_
    have nonneg : 0 ≤ cols := (positive cols (by simp)).le
    refine for_below_related SameData (by decide) ?_ ⟨rfl, rfl, rfl⟩
    intro row m n same
    obtain ⟨value, after⟩ := row_same same nonneg matrix vector row [row * cols]
    exact after.store value result row
  · intro row vector
    rcases le_or_gt 0 cols with nonneg | negative
    · exact (dot_product_summed row vector nonneg m).reads
    · have past : cols ≤ 0 := negative.le
      rw [dotProductUnrolledAligned, Rounding.dotProductUnrolledAligned,
        for_below_exit (by decide) (by omega)]
      simp only [for_below_exit Int.one_pos past, Int.toNat_of_nonpos past, List.range_zero,
        List.flatMap_nil, List.append_nil]

theorem optimised_same_five_columns :
    let m : Memory Int := ⟨fun x i => if x = .left then i else 2, [], [], [], []⟩
    let after := multiplyMvRowMajorOptimised (some ⟨.left, 0⟩) 2 5 (some ⟨.right, 0⟩)
      (some ⟨.product, 0⟩) m
    after.cells .product 0 = 20 ∧ after.cells .product 1 = 70 ∧
      after.writes = [⟨.product, 0⟩, ⟨.product, 1⟩] := by
  intro m after
  have same := (optimised_same (some ⟨.left, 0⟩) (some ⟨.right, 0⟩) (some ⟨.product, 0⟩) 2 5 m).1
  rw [same.cells, same.writes]
  decide

end Agreement

end Phase1
