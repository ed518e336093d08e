import Mathlib.Data.List.Rotate

/- The newest items of a stream, in the order of their arrival. A window of fixed size is
   kept either by dropping its front, or in a ring that overwrites its oldest item. -/
namespace Newest
variable {Item : Type} {n : Nat} {xs : List Item}

def newest (n : Nat) (xs : List Item) : List Item := xs.drop (xs.length - n)

theorem newest_length (n : Nat) (xs : List Item) : (newest n xs).length = min xs.length n := by
  rw [newest, List.length_drop]
  omega

theorem newest_all (few : xs.length ≤ n) : newest n xs = xs := by
  rw [newest, Nat.sub_eq_zero_of_le few, List.drop_zero]

theorem newest_filling (few : xs.length < n) (x : Item) :
    newest n (xs ++ [x]) = newest n xs ++ [x] := by
  have more : (xs ++ [x]).length ≤ n := by
    rw [List.length_append]
    exact few
  rw [newest_all more, newest_all few.le]

theorem newest_sliding (positive : 0 < n) (full : n ≤ xs.length) (x : Item) :
    newest n (xs ++ [x]) = (newest n xs).tail ++ [x] := by
  have next : (xs ++ [x]).length - n = xs.length - n + 1 := by
    rw [List.length_append]
    simp only [List.length_singleton]
    omega
  rw [newest, next, List.drop_append_of_le_length (by omega), newest, List.tail_drop]

theorem newest_cons (full : n ≤ xs.length) (x : Item) : newest n (x :: xs) = newest n xs := by
  have more : (x :: xs).length - n = xs.length - n + 1 := by
    rw [List.length_cons]
    omega
  rw [newest, newest, more, List.drop_succ_cons]

theorem slides_onto_itself {window : List Item} (some_item : window ≠ []) (x : Item) :
    window.tail ++ [x] = window ↔ ∀ y ∈ window, y = x := by
  induction window with
  | nil => exact absurd rfl some_item
  | cons a window ih =>
    cases window with
    | nil => simp [eq_comm]
    | cons b window =>
      have rest := ih (List.cons_ne_nil b window)
      rw [List.tail_cons] at rest
      rw [List.tail_cons, List.cons_append, List.cons.injEq, rest]
      constructor
      · rintro ⟨same, all⟩ y member
        rcases List.mem_cons.mp member with first | later
        · rw [first, ← same]
          exact all b (by simp)
        · exact all y later
      · intro all
        exact ⟨(all b (by simp)).trans (all a (by simp)).symm,
          fun y member => all y (List.mem_cons_of_mem a member)⟩

/-- Writing at the oldest item and moving on gives the window without its front. -/
theorem overwrite_oldest {ring : List Item} {oldest : Nat} (inside : oldest < ring.length)
    (x : Item) : (ring.set oldest x).rotate (oldest + 1) = (ring.rotate oldest).tail ++ [x] := by
  have within : oldest + 1 ≤ (ring.set oldest x).length := by
    rw [List.length_set]
    exact inside
  have behind : (ring.set oldest x).drop (oldest + 1) = ring.drop (oldest + 1) :=
    List.drop_set_of_lt (Nat.lt_succ_self oldest)
  have front : (ring.set oldest x).take (oldest + 1) = ring.take oldest ++ [x] := by
    rw [List.take_succ_eq_append_getElem (by rw [List.length_set]; exact inside),
      List.take_set_of_le le_rfl, List.getElem_set_self]
  have some_left : ring.drop oldest ≠ [] := by
    intro none
    rw [List.drop_eq_nil_iff] at none
    omega
  rw [List.rotate_eq_drop_append_take within, List.rotate_eq_drop_append_take inside.le, behind,
    front, List.tail_append_of_ne_nil some_left, List.tail_drop, List.append_assoc]

theorem rotate_wrapped (ring : List Item) : ring.rotate ring.length = ring.rotate 0 := by
  rw [List.rotate_length, List.rotate_zero]

end Newest
