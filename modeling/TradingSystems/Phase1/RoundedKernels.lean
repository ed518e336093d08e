import TradingSystems.Phase1.MatrixProducts

/- What the kernels add up, as tallies: the order of the operations is that of the loops, in
   whatever arithmetic. -/
namespace Phase1.Rounding
open Loops RoundedSums Tally

section Tallies
variable {R : Type} {ops : Arithmetic R} {m n : Memory R} {p q : Pointer} {before : Tally R}
  {s : R × Memory R} {i j bound : Int}

abbrev along (m : Memory R) (p : Pointer) (start : Int) : Nat → R := fun k => m.view p (start + k)

theorem along_plus : along m (p.plus i) 0 = along m p i := by
  funext k
  rw [along, along, view_plus, zero_add]

theorem along_congr (same : n.view p = m.view p) : along n p i = along m p i := by
  funext k
  rw [along, along, same]

variable [CommRing R]

/-- The tally was added up and nothing was written. -/
structure Tallied (ops : Arithmetic R) (m : Memory R) (t : Tally R) (s : R × Memory R) : Prop where
  value : s.1 = t.value ops
  cells : s.2.cells = m.cells

theorem Tallied.computed (held : Tallied ops m before s) (values : List Int) :
    Tallied ops m before (s.1, s.2.computed values) := ⟨held.value, held.cells⟩

theorem Tallied.add (held : Tallied ops m before s) :
    Tallied ops m (before.product (m.view p i) (m.view q j)) (addProduct ops p q i j s) where
  value := by
    have left := congrFun (view_cells (p := p) held.cells) i
    have right := congrFun (view_cells (p := q) held.cells) j
    rw [Tally.value, ← held.value, ← left, ← right]
    rfl
  cells := held.cells

theorem products_tallied {body : Int → R × Memory R → R × Memory R} {f g : Int → R}
    (one : ∀ k t s, Tallied ops m t s → Tallied ops m (t.product (f k) (g k)) (body k s))
    (low : i ≤ bound) (held : Tallied ops m before s) :
    Tallied ops m (before.upTo (fun k => f (i + k)) (fun k => g (i + k)) (bound - i).toNat)
      (forBelow bound 1 body i s).2 := by
  refine count_rule (fun j s => Tallied ops m
    (before.upTo (fun k => f (i + k)) (fun k => g (i + k)) (j - i).toNat) s) ?_ low ?_
  · intro j s first last held
    have place : i + (j - i).toNat = j := by omega
    have next : (j + 1 - i).toNat = (j - i).toNat + 1 := by omega
    rw [next, upTo, place]
    exact one j _ s held
  · rw [sub_self]
    exact held

theorem element_tallied (ops : Arithmetic R) (p q : Pointer) (f g : Int → Int)
    (values : Int → List Int) (nonneg : 0 ≤ bound) (m : Memory R) :
    Tallied ops m
      (nothing.upTo (fun k => m.view p (f k)) (fun k => m.view q (g k)) bound.toNat)
      (forBelow bound 1 (fun k (temp, m) =>
        addProduct ops p q (f k) (g k) (temp, m.computed (values k))) 0 (0, m)).2 := by
  have start : Tallied ops m nothing (0, m) := ⟨rfl, rfl⟩
  have tallied := products_tallied (i := 0) (f := fun k => m.view p (f k))
    (g := fun k => m.view q (g k)) (fun k t s held => (held.computed (values k)).add) nonneg start
  simp only [zero_add, sub_zero] at tallied
  exact tallied

theorem row_product_tallied (ops : Arithmetic R) (matrix vector : Pointer) {cols : Int}
    (nonneg : 0 ≤ cols) (row : Int) (m : Memory R) :
    Tallied ops m (nothing.upTo (along m matrix (row * cols)) (along m vector 0) cols.toNat)
      (rowProduct ops matrix vector cols row m) := by
  have tallied := element_tallied ops matrix vector (row * cols + ·) id
    (fun col => [row * cols, row * cols + col]) nonneg m
  have right : along m vector 0 = fun k : Nat => m.view vector k := by
    funext k
    rw [along, zero_add]
  rw [right]
  exact tallied

/-- The four accumulators hold the four lanes. -/
structure Lanes (ops : Arithmetic R) (m : Memory R) (f g : Nat → R) (n : Nat) (s : Unrolled R) :
    Prop where
  sum0 : s.sum0 = (lane f g 0 n).value ops
  sum1 : s.sum1 = (lane f g 1 n).value ops
  sum2 : s.sum2 = (lane f g 2 n).value ops
  sum3 : s.sum3 = (lane f g 3 n).value ops
  cells : s.memory.cells = m.cells

theorem Lanes.round {row vector : Pointer} {k : Nat} {u : Unrolled R}
    (held : Lanes ops m (along m row 0) (along m vector 0) k u) :
    Lanes ops m (along m row 0) (along m vector 0) (k + 1)
      (Rounding.round ops row vector (4 * k : Nat) u) := by
  have view (p : Pointer) (i : Int) : u.memory.view p i = m.view p i :=
    congrFun (view_cells held.cells) i
  have place (i : Nat) : (0 : Int) + (4 * k + i : Nat) = (4 * k : Nat) + i := by omega
  constructor
  · rw [lane, upTo, Tally.value, ← lane, ← held.sum0, along, along, place, ← view, ← view]
    simp only [Rounding.round, addProduct, Memory.load, Nat.cast_zero, add_zero]
    rfl
  · rw [lane, upTo, Tally.value, ← lane, ← held.sum1, along, along, place, ← view, ← view]
    rfl
  · rw [lane, upTo, Tally.value, ← lane, ← held.sum2, along, along, place, ← view, ← view]
    rfl
  · rw [lane, upTo, Tally.value, ← lane, ← held.sum3, along, along, place, ← view, ← view]
    rfl
  · exact held.cells

theorem unrolled_lanes (ops : Arithmetic R) (row vector : Pointer) {cols : Int} (nonneg : 0 ≤ cols)
    (m : Memory R) :
    let s := forBelow (cols - 3) 4 (round ops row vector) 0 ⟨0, 0, 0, 0, m⟩
    s.1 = (4 * (cols.toNat / 4) : Nat) ∧
      Lanes ops m (along m row 0) (along m vector 0) (cols.toNat / 4) s.2 := by
  let keep (i : Int) (u : Unrolled R) : Prop := ∃ k : Nat, i = (4 * k : Nat) ∧ i ≤ cols ∧
    Lanes ops m (along m row 0) (along m vector 0) k u
  have one : ∀ i u, i < cols - 3 → keep i u → keep (i + 4) (round ops row vector i u) := by
    rintro i u inside ⟨k, rfl, high, held⟩
    exact ⟨k + 1, by omega, by omega, held.round⟩
  have start : keep 0 ⟨0, 0, 0, 0, m⟩ := ⟨0, rfl, nonneg, rfl, rfl, rfl, rfl, rfl⟩
  obtain ⟨⟨k, place, high, held⟩, past⟩ := for_below_rule keep (by decide) one start
  have last : k = cols.toNat / 4 := by omega
  subst last
  exact ⟨place, held⟩

theorem dot_product_tallied (ops : Arithmetic R) (row vector : Pointer) {cols : Int}
    (nonneg : 0 ≤ cols) (m : Memory R) :
    Tallied ops m (unrolled (along m row 0) (along m vector 0) cols.toNat)
      (dotProductUnrolledAligned ops row vector cols m) := by
  obtain ⟨place, held⟩ := unrolled_lanes ops row vector nonneg m
  unfold dotProductUnrolledAligned
  generalize forBelow (cols - 3) 4 (round ops row vector) 0 ⟨0, 0, 0, 0, m⟩ = s at place held ⊢
  obtain ⟨i, u⟩ := s
  have place : i = (4 * (cols.toNat / 4) : Nat) := place
  have start : Tallied ops m (lanes (along m row 0) (along m vector 0) (cols.toNat / 4))
      (total ops u, u.memory) := by
    refine ⟨?_, held.cells⟩
    rw [total, held.sum0, held.sum1, held.sum2, held.sum3]
    rfl
  have low : i ≤ cols := by omega
  have rest : (cols - i).toNat = cols.toNat % 4 := by omega
  have tallied := products_tallied (fun k t s held => held.add (p := row) (q := vector)
    (i := k) (j := k)) low start
  have shifted (p : Pointer) : (fun k : Nat => m.view p (i + k)) =
      fun k => along m p 0 (4 * (cols.toNat / 4) + k) := by
    funext k
    rw [along, zero_add, place, Nat.cast_add]
  rw [rest, shifted, shifted] at tallied
  exact tallied

end Tallies
end Phase1.Rounding
