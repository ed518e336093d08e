import Mathlib.Data.List.Nodup
import Mathlib.Data.List.Sublists

/- Which of two elements comes first. In a queue without repetitions this is the
   sublist `[a, b]`, and serving from the front leaves a suffix, which keeps the
   order. In a list of events it is about kinds: each `asks` is answered later. -/
namespace Before
variable {Item : Type} {a b : Item} {q r : List Item}

theorem pair_of_pairwise {ahead : Item → Item → Prop} (sorted : q.Pairwise ahead)
    (ha : a ∈ q) (hb : b ∈ q) (first : ¬ ahead b a) (differ : a ≠ b) : [a, b].Sublist q := by
  obtain ⟨front, back, split⟩ := List.mem_iff_append.mp ha
  subst split
  rcases List.mem_append.mp hb with early | late
  · exact absurd ((List.pairwise_append.mp sorted).2.2 b early a (by simp)) first
  · rcases List.mem_cons.mp late with same | behind
    · exact absurd same.symm differ
    · exact (List.Sublist.cons_cons a (List.singleton_sublist.mpr behind)).trans
        (List.sublist_append_right front (a :: back))

theorem pairwise_of_pair {ahead : Item → Item → Prop} (sorted : q.Pairwise ahead)
    (before : [a, b].Sublist q) : ahead a b := by
  have pair := sorted.sublist before
  simpa using pair

theorem pair_in_suffix (distinct : q.Nodup) (before : [a, b].Sublist q) (suffix : r <:+ q)
    (present : a ∈ r) : [a, b].Sublist r := by
  obtain ⟨front, split⟩ := suffix
  subst split
  have absent : a ∉ front := fun early =>
    List.disjoint_of_nodup_append distinct early present
  obtain ⟨left, right, cut, inFront, inBack⟩ := List.sublist_append_iff.mp before
  cases left with
  | nil =>
    simp only [List.nil_append] at cut
    exact cut ▸ inBack
  | cons c left =>
    have head : a = c := (List.cons.inj cut).1
    exact absurd (inFront.subset (by simp [head])) absent

/-- Once the later of the two is at the front, the earlier has gone. -/
theorem gone_when_next (distinct : q.Nodup) (before : [a, b].Sublist q)
    (suffix : (b :: r) <:+ q) : a ∉ b :: r := by
  intro present
  have pair := pair_in_suffix distinct before suffix present
  have tail := List.nodup_cons.mp (distinct.sublist suffix.sublist)
  cases pair with
  | cons _ inside => exact tail.1 (inside.subset (by simp))
  | cons_cons _ inside => exact tail.1 (inside.subset (by simp))

theorem snoc_split {l front back : List Item} {x z : Item} (split : l ++ [z] = front ++ x :: back) :
    (front = l ∧ x = z ∧ back = []) ∨ ∃ rest, back = rest ++ [z] ∧ l = front ++ x :: rest := by
  rcases List.eq_nil_or_concat back with none | ⟨rest, w, some⟩
  · subst none
    obtain ⟨same, last⟩ := List.append_inj' split rfl
    cases last
    exact Or.inl ⟨same.symm, rfl, rfl⟩
  · rw [List.concat_eq_append] at some
    subst some
    rw [← List.cons_append, ← List.append_assoc] at split
    obtain ⟨same, last⟩ := List.append_inj' split rfl
    cases last
    exact Or.inr ⟨rest, rfl, same⟩

section Answers
variable {asks answers : Item → Prop} {x : Item} {l : List Item}

/-- Every element that asks is followed by one that answers. -/
def Answered (asks answers : Item → Prop) (l : List Item) : Prop :=
  ∀ front x back, l = front ++ x :: back → asks x → ∃ y ∈ back, answers y

theorem answered_nil : Answered asks answers ([] : List Item) := by
  intro front x back split
  simp at split

theorem answered_cons_iff : Answered asks answers (x :: l) ↔
    (asks x → ∃ y ∈ l, answers y) ∧ Answered asks answers l := by
  constructor
  · intro answered
    exact ⟨answered [] x l rfl, fun front y back split =>
      answered (x :: front) y back (by rw [split]; rfl)⟩
  · rintro ⟨first, rest⟩ front y back split ask
    cases front with
    | nil =>
      cases split
      exact first ask
    | cons z front =>
      cases split
      exact rest front y back rfl ask

theorem answered_by (last : answers x) (apart : ¬ asks x) : Answered asks answers (l ++ [x]) := by
  intro front y back split ask
  rcases snoc_split split with ⟨_, same, _⟩ | ⟨rest, behind, _⟩
  · exact absurd (same ▸ ask) apart
  · exact ⟨x, by simp [behind], last⟩

theorem not_answered (last : asks x) : ¬ Answered asks answers (l ++ [x]) := by
  intro answered
  obtain ⟨y, member, _⟩ := answered l x [] rfl last
  cases member

theorem answered_snoc_iff (neither : ¬ asks x) (silent : ¬ answers x) :
    Answered asks answers (l ++ [x]) ↔ Answered asks answers l := by
  constructor
  · intro answered front y back split ask
    obtain ⟨z, member, answer⟩ := answered front y (back ++ [x]) (by simp [split]) ask
    rcases List.mem_append.mp member with inside | new
    · exact ⟨z, inside, answer⟩
    · exact absurd (List.mem_singleton.mp new ▸ answer) silent
  · intro answered front y back split ask
    rcases snoc_split split with ⟨_, same, _⟩ | ⟨rest, behind, inside⟩
    · exact absurd (same ▸ ask) neither
    · obtain ⟨w, member, answer⟩ := answered front y rest inside ask
      exact ⟨w, by simp [behind, member], answer⟩

end Answers
end Before
