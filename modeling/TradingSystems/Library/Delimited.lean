import Mathlib.Data.List.Basic

/- Records that end with a delimiter. What follows the last delimiter is unfinished and
   is no record. -/
namespace Delimited
variable {α : Type} [BEq α] [LawfulBEq α] {d : α} {xs record rest : List α}

def records (d : α) (xs : List α) : List (List α) := (xs.splitOn d).dropLast

def takeRecord (d : α) (xs : List α) : List α × List α :=
  (xs.takeWhile fun x => !x == d, (xs.dropWhile fun x => !x == d).tail)

theorem records_unfinished (unfinished : d ∉ xs) : records d xs = [] := by
  rw [records, List.splitOn_eq_singleton unfinished]
  rfl

theorem records_first (whole : d ∉ record) :
    records d (record ++ d :: rest) = record :: records d rest := by
  rw [records, List.splitOn_append_cons_self_of_not_mem whole,
    List.dropLast_cons_of_ne_nil (List.splitOn_ne_nil d rest)]
  rfl

theorem take_record_first (whole : d ∉ record) :
    takeRecord d (record ++ d :: rest) = (record, rest) := by
  have inside : ∀ x ∈ record, (!x == d) = true := by
    intro x member
    have other : x ≠ d := fun same => whole (same ▸ member)
    simpa using other
  rw [takeRecord, List.takeWhile_append_of_pos inside, List.dropWhile_append_of_pos inside]
  simp

end Delimited
