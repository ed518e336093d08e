import TradingSystems.Library.Runs
import Mathlib.Order.Lattice

/- Runs in which some steps read a clock that never goes back. What is stamped with a
   reading is then never stamped later than what is read afterwards. -/
namespace Clock
open Runs
variable {State Label Time : Type} [LinearOrder Time] {reading : Label → Option Time}

def Forward (reading : Label → Option Time) (ls : List Label) : Prop :=
  (ls.filterMap reading).Pairwise (· ≤ ·)

instance (ls : List Label) : Decidable (Forward reading ls) :=
  inferInstanceAs (Decidable (List.Pairwise _ _))

theorem forward_snoc {ls : List Label} {l : Label} (forward : Forward reading (ls ++ [l])) :
    Forward reading ls ∧ ∀ now ∈ reading l, ∀ earlier ∈ ls.filterMap reading, earlier ≤ now := by
  unfold Forward at forward
  rw [List.filterMap_append, List.pairwise_append] at forward
  obtain ⟨before, _, across⟩ := forward
  refine ⟨before, ?_⟩
  intro now read earlier member
  have last : now ∈ [l].filterMap reading := List.mem_filterMap.mpr ⟨l, by simp, read⟩
  exact across earlier member now last

variable (reading) in
theorem run_forward {step : State → Label → State → Prop} (keep : List Time → State → Prop)
    (quiet : ∀ {past s l t}, step s l t → reading l = none → keep past s → keep past t)
    (read : ∀ {past s l t now}, step s l t → reading l = some now →
      (∀ earlier ∈ past, earlier ≤ now) → keep past s → keep (past ++ [now]) t)
    {s t : State} {ls : List Label} (run : Run step s ls t) (forward : Forward reading ls)
    (start : keep [] s) : keep (ls.filterMap reading) t := by
  induction run with
  | nil => exact start
  | @snoc t u ls l before last ih =>
    obtain ⟨earlier, latest⟩ := forward_snoc forward
    rw [List.filterMap_append]
    cases taken : reading l with
    | none => simpa [taken] using quiet last taken (ih earlier)
    | some now => simpa [taken] using read last taken (latest now taken) (ih earlier)

end Clock
