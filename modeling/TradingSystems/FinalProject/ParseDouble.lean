import TradingSystems.FinalProject.Client

/- What `parse_double` reads of any text in front of a terminator: the longest numeral,
   which may be empty, and nothing behind it. -/
namespace FinalProject
open Decimal Extraction

inductive IsNumeral : Text → ℚ → Prop where
  | whole {ds : Text} (all : AllDigits ds) : IsNumeral ds (value ds)
  | pointed {ds es : Text} (all : AllDigits ds) (behind : AllDigits es) :
      IsNumeral (ds ++ '.' :: es) (value ds + fraction es)

structure Longest (t numeral : Text) (v : ℚ) : Prop where
  front : numeral <+: t
  reads : IsNumeral numeral v
  longest : ∀ other v', other <+: t → IsNumeral other v' → other.length ≤ numeral.length

section Longest
variable {whole frac left rest : Text}

theorem point_stops (left : Text) : ∀ c ∈ ('.' :: left).head?, c.isDigit = false := by
  intro c head
  cases head
  rfl

theorem whole_longest (all : AllDigits whole) (stop : ∀ c ∈ left.head?, c.isDigit = false)
    (point : left.head? ≠ some '.') : Longest (whole ++ left) whole (value whole) where
  front := List.prefix_append whole left
  reads := .whole all
  longest := by
    intro other v front reads
    cases reads with
    | whole all' => exact run_longest front all' stop
    | pointed all' _ =>
      obtain ⟨more, split⟩ := front
      rw [List.append_assoc, List.cons_append] at split
      obtain ⟨_, same⟩ := run_unique split all' (point_stops _) all stop
      exact absurd (congrArg List.head? same.symm) point

theorem pointed_longest (all : AllDigits whole) (behind : AllDigits frac)
    (stop : ∀ c ∈ left.head?, c.isDigit = false) :
    Longest (whole ++ '.' :: frac ++ left) (whole ++ '.' :: frac)
      (value whole + fraction frac) where
  front := List.prefix_append _ left
  reads := .pointed all behind
  longest := by
    intro other v front reads
    rw [List.append_assoc, List.cons_append] at front
    cases reads with
    | whole all' =>
      have short := run_longest front all' (point_stops _)
      rw [List.length_append]
      omega
    | pointed all' behind' =>
      rename_i ds es
      obtain ⟨more, split⟩ := front
      rw [List.append_assoc, List.cons_append] at split
      obtain ⟨rfl, same⟩ := run_unique split all' (point_stops _) all (point_stops _)
      have short := run_longest ⟨more, List.tail_eq_of_cons_eq same⟩ behind' stop
      simp only [List.length_append, List.length_cons]
      omega

theorem terminated_stops (stop : ∀ c ∈ left.head?, c.isDigit = false) (rest : Text) :
    ∃ c more, left ++ nul :: rest = c :: more ∧ c.isDigit = false ∧
      (left.head? ≠ some '.' → c ≠ '.') := by
  cases left with
  | nil => exact ⟨nul, rest, rfl, rfl, fun _ => by decide⟩
  | cons c more =>
    refine ⟨c, more ++ nul :: rest, rfl, stop c rfl, fun point same => point ?_⟩
    rw [same]
    rfl

/-- The value and the stopping place are those of the longest numeral in front of the
    terminator, whatever is behind it. -/
theorem parse_double_longest (t rest : Text) : ∃ numeral left v,
    t = numeral ++ left ∧ Longest t numeral v ∧
      parseDouble (t ++ nul :: rest) = .ok (v, left ++ nul :: rest) := by
  obtain ⟨whole, left, rfl, all, stop⟩ := run_in_front Char.isDigit t
  by_cases point : left.head? = some '.'
  · obtain ⟨tail, rfl⟩ := List.head?_eq_some_iff.mp point
    obtain ⟨frac, left, rfl, behind, stop⟩ := run_in_front Char.isDigit tail
    obtain ⟨c, more, next, not_digit, _⟩ := terminated_stops stop rest
    have shape : whole ++ '.' :: (frac ++ left) = whole ++ '.' :: frac ++ left := by simp
    refine ⟨whole ++ '.' :: frac, left, _, shape, shape ▸ pointed_longest all behind stop, ?_⟩
    rw [List.append_assoc, List.cons_append, List.append_assoc, next]
    exact parse_double_pointed all behind not_digit
  · obtain ⟨c, more, next, not_digit, other⟩ := terminated_stops stop rest
    refine ⟨whole, left, _, rfl, whole_longest all stop point, ?_⟩
    rw [List.append_assoc, next]
    exact parse_double_whole all not_digit (other point)

end Longest
end FinalProject
