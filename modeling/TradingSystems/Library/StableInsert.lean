import Mathlib.Data.List.Sort

/- Insertion into a sorted list behind every element that is not strictly worse.
   `List.orderedInsert` with a strict relation is the insertion of an ordered
   multimap: the new element goes after the elements of an equal key. -/
namespace StableInsert
variable {Item Image : Type} {better : Item → Item → Prop} [DecidableRel better]

theorem ordered_insert_pairwise {ahead : Item → Item → Prop} {x : Item} {xs : List Item}
    (sorted : xs.Pairwise ahead)
    (strict : ∀ y ∈ xs, better x y → ahead x y)
    (arrival : ∀ y ∈ xs, ¬ better x y → ahead y x)
    (trans : ∀ y ∈ xs, ∀ z ∈ xs, better x y → ahead y z → better x z) :
    (xs.orderedInsert better x).Pairwise ahead := by
  induction xs with
  | nil => simp
  | cons y ys ih =>
    have tail := List.pairwise_cons.mp sorted
    rw [List.orderedInsert_cons]
    split
    · rename_i wins
      refine List.pairwise_cons.mpr ⟨?_, sorted⟩
      intro z member
      rcases List.mem_cons.mp member with same | later
      · subst z
        exact strict y (by simp) wins
      · exact strict z (by simp [later])
          (trans y (by simp) z (by simp [later]) wins (tail.1 z later))
    · rename_i loses
      refine List.pairwise_cons.mpr ⟨?_, ?_⟩
      · intro z member
        rcases (List.mem_orderedInsert better).mp member with same | later
        · subst z
          exact arrival y (by simp) loses
        · exact tail.1 z later
      · exact ih tail.2 (fun z hz => strict z (by simp [hz]))
          (fun z hz => arrival z (by simp [hz]))
          (fun z hz w hw => trans z (by simp [hz]) w (by simp [hw]))

theorem filterMap_ordered_insert {better' : Image → Image → Prop} [DecidableRel better']
    (view : Item → Option Image) {x : Item} {x' : Image} {xs : List Item}
    (viewed : view x = some x')
    (total : ∀ y ∈ xs, ∃ y', view y = some y' ∧ (better x y ↔ better' x' y')) :
    (xs.orderedInsert better x).filterMap view =
      (xs.filterMap view).orderedInsert better' x' := by
  induction xs with
  | nil => simp [viewed]
  | cons y ys ih =>
    obtain ⟨y', shown, agree⟩ := total y (by simp)
    have tail := ih (fun z hz => total z (by simp [hz]))
    simp only [List.orderedInsert_cons, List.filterMap_cons, shown]
    by_cases wins : better x y
    · simp [wins, agree.mp wins, viewed, shown]
    · simp [wins, mt agree.mpr wins, shown, tail]

theorem ordered_insert_filter {keep : Item → Bool} {x : Item} {xs : List Item}
    (dropped : keep x = false) (kept : ∀ y ∈ xs, keep y = true) :
    (xs.orderedInsert better x).filter keep = xs := by
  induction xs with
  | nil => simp [dropped]
  | cons y ys ih =>
    have stays := kept y (by simp)
    have others : ∀ z ∈ ys, keep z = true := fun z hz => kept z (by simp [hz])
    rw [List.orderedInsert_cons]
    split
    · rw [List.filter_cons_of_neg (by simp [dropped]), List.filter_eq_self]
      exact kept
    · rw [List.filter_cons_of_pos stays, ih others]

section Levels
variable {Key : Type} [DecidableEq Key] {key : Item → Key} {before : Key → Key → Prop}
  [DecidableRel before]

theorem ordered_insert_behind {x : Item} {xs ys : List Item} (behind : ∀ y ∈ xs, ¬ better x y) :
    (xs ++ ys).orderedInsert better x = xs ++ ys.orderedInsert better x := by
  induction xs with
  | nil => rfl
  | cons y xs ih =>
    obtain ⟨first, others⟩ := List.forall_mem_cons.mp behind
    rw [List.cons_append, List.orderedInsert_cons, if_neg first, ih others, List.cons_append]

theorem ordered_insert_first {x : Item} {xs : List Item} (first : ∀ y ∈ xs, better x y) :
    xs.orderedInsert better x = x :: xs := by
  cases xs with
  | nil => rfl
  | cons y xs => rw [List.orderedInsert_cons, if_pos (first y List.mem_cons_self)]

/-- In a list that consists of levels, one for each key, a new element comes at the end of
    the level of its key. -/
theorem ordered_insert_levels (asymm : ∀ {j k : Key}, before j k → ¬ before k j) {ks : List Key}
    (sorted : ks.Pairwise before) {level : Key → List Item}
    (own : ∀ k, ∀ y ∈ level k, key y = k) {x : Item} (listed : key x ∈ ks) :
    (ks.flatMap level).orderedInsert (fun x y => before (key x) (key y)) x =
      ks.flatMap fun k => if k = key x then level k ++ [x] else level k := by
  induction ks with
  | nil => cases listed
  | cons k ks ih =>
    obtain ⟨ahead, tail⟩ := List.pairwise_cons.mp sorted
    rw [List.flatMap_cons, List.flatMap_cons]
    by_cases here : k = key x
    · have same_level : ∀ y ∈ level k, ¬ before (key x) (key y) := by
        intro y member less
        rw [own k y member, ← here] at less
        exact asymm less less
      have later : ∀ y ∈ ks.flatMap level, before (key x) (key y) := by
        intro y member
        obtain ⟨j, listed_j, inside⟩ := List.mem_flatMap.mp member
        rw [own j y inside, ← here]
        exact ahead j listed_j
      have untouched : (ks.flatMap fun j => if j = key x then level j ++ [x] else level j) =
          ks.flatMap level := by
        refine List.flatMap_congr fun j listed_j => if_neg fun same => ?_
        have less := ahead j listed_j
        rw [same, here] at less
        exact asymm less less
      rw [ordered_insert_behind same_level, ordered_insert_first later, if_pos here, untouched,
        List.append_assoc, List.singleton_append]
    · have inside : key x ∈ ks := (List.mem_cons.mp listed).resolve_left (Ne.symm here)
      have worse : ∀ y ∈ level k, ¬ before (key x) (key y) := by
        intro y member
        rw [own k y member]
        exact asymm (ahead _ inside)
      rw [ordered_insert_behind worse, if_neg here, ih tail inside]

end Levels

end StableInsert
