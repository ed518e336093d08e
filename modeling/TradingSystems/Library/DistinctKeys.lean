import Mathlib.Data.List.Nodup
import Mathlib.Data.List.Perm.Basic

/- Lists whose elements carry pairwise distinct keys: an element is found by its
   key, and taking the key out removes that element and nothing else. -/
namespace DistinctKeys
variable {Item Key : Type} {key : Item → Key} {xs : List Item}

theorem eq_of_key (distinct : (xs.map key).Nodup) {x y : Item} (hx : x ∈ xs) (hy : y ∈ xs)
    (same : key x = key y) : x = y :=
  List.inj_on_of_nodup_map distinct hx hy same

variable [DecidableEq Key]

theorem find_key (distinct : (xs.map key).Nodup) {x : Item} (member : x ∈ xs) :
    xs.find? (fun y => key y = key x) = some x := by
  cases found : xs.find? (fun y => key y = key x) with
  | none =>
    have missed := List.find?_eq_none.mp found x member
    simp at missed
  | some y =>
    have same := List.find?_some found
    have listed := List.mem_of_find?_eq_some found
    exact congrArg some (eq_of_key distinct listed member (by simpa using same))

theorem filter_absent {k : Key} (absent : k ∉ xs.map key) :
    xs.filter (fun y => key y ≠ k) = xs := by
  rw [List.filter_eq_self]
  intro y member
  have differ : key y ≠ k := fun same => absent (List.mem_map.mpr ⟨y, member, same⟩)
  simpa using differ

theorem filter_head {x : Item} (distinct : ((x :: xs).map key).Nodup) :
    (x :: xs).filter (fun y => key y ≠ key x) = xs := by
  rw [List.map_cons, List.nodup_cons] at distinct
  rw [List.filter_cons_of_neg (by simp)]
  exact filter_absent distinct.1

theorem perm_cons_filter (distinct : (xs.map key).Nodup) {x : Item} (member : x ∈ xs) :
    xs.Perm (x :: xs.filter (fun y => key y ≠ key x)) := by
  induction xs with
  | nil => simp at member
  | cons y ys ih =>
    rcases List.mem_cons.mp member with same | later
    · subst y
      rw [filter_head distinct]
    · rw [List.map_cons, List.nodup_cons] at distinct
      have differ : key y ≠ key x := by
        intro same
        exact distinct.1 (same ▸ List.mem_map.mpr ⟨x, later, rfl⟩)
      rw [List.filter_cons_of_pos (by simpa using differ)]
      exact ((ih distinct.2 later).cons y).trans (List.Perm.swap x y _)

end DistinctKeys
