import Mathlib.Algebra.BigOperators.Group.Finset.Basic
import Mathlib.Data.Fintype.Basic
import Mathlib.Logic.Function.Basic

/- Steps of one thread among many. Where at most one thread is busy, a thread that is
   not busy relies on nothing, so a step has to be checked for its own thread alone;
   and what the threads hold together changes by what that thread holds. -/
namespace Exclusive
variable {Thread Pc : Type} {busy : Pc → Bool} {f : Thread → Pc}

def AtMostOne (busy : Pc → Bool) (f : Thread → Pc) : Prop :=
  ∀ p q, busy (f p) → busy (f q) → p = q

theorem others_idle (one : AtMostOne busy f) {p : Thread} (held : busy (f p)) :
    ∀ q, q ≠ p → busy (f q) = false := by
  intro q differ
  by_contra other
  exact differ (one q p (by simpa using other) held)

variable [DecidableEq Thread] {p : Thread} {pc : Pc}

theorem at_most_one_update (others : ∀ q, q ≠ p → busy (f q) = false) :
    AtMostOne busy (Function.update f p pc) := by
  have only : ∀ q, busy (Function.update f p pc q) → q = p := by
    intro q held
    by_contra differ
    rw [Function.update_of_ne differ, others q differ] at held
    cases held
  intro q r hq hr
  rw [only q hq, only r hr]

theorem at_most_one_idle (one : AtMostOne busy f) (idle : busy pc = false) :
    AtMostOne busy (Function.update f p pc) := by
  have before : ∀ q, busy (Function.update f p pc q) → busy (f q) := by
    intro q held
    by_cases same : q = p
    · subst same
      simp [idle] at held
    · rwa [Function.update_of_ne same] at held
  exact fun q r hq hr => one q r (before q hq) (before r hr)

theorem all_update {holds : Pc → Prop} (all : ∀ q, holds (f q)) (held : holds pc) :
    ∀ q, holds (Function.update f p pc q) := by
  intro q
  by_cases same : q = p
  · subst same
    simpa using held
  · rw [Function.update_of_ne same]
    exact all q

/-- After a step of the busy thread the others hold whatever the step changed. -/
theorem all_update_alone {holds : Pc → Prop} (weak : ∀ pc, busy pc = false → holds pc)
    (others : ∀ q, q ≠ p → busy (f q) = false) (held : holds pc) :
    ∀ q, holds (Function.update f p pc q) := by
  intro q
  by_cases same : q = p
  · subst same
    simpa using held
  · rw [Function.update_of_ne same]
    exact weak _ (others q same)

section Holdings
variable {Holding : Type} [AddCommMonoid Holding] [Fintype Thread] (f : Thread → Pc) (p : Thread)
  (pc : Pc) (weight : Pc → Holding)

theorem sum_update_each (weight : Thread → Pc → Holding) :
    ∑ q, weight q (Function.update f p pc q) + weight p (f p) =
      ∑ q, weight q (f q) + weight p pc := by
  have others : ∑ q ∈ Finset.univ.erase p, weight q (Function.update f p pc q) =
      ∑ q ∈ Finset.univ.erase p, weight q (f q) := by
    refine Finset.sum_congr rfl fun q member => ?_
    rw [Function.update_of_ne (Finset.ne_of_mem_erase member)]
  rw [← Finset.add_sum_erase _ _ (Finset.mem_univ p), others, Function.update_self,
    ← Finset.add_sum_erase Finset.univ (fun q => weight q (f q)) (Finset.mem_univ p)]
  ac_rfl

theorem sum_update :
    ∑ q, weight (Function.update f p pc q) + weight (f p) = ∑ q, weight (f q) + weight pc :=
  sum_update_each f p pc fun _ => weight

/-- The thread had nothing before. -/
theorem sum_taken (empty : weight (f p) = 0) :
    ∑ q, weight (Function.update f p pc q) = ∑ q, weight (f q) + weight pc := by
  have change := sum_update f p pc weight
  rwa [empty, add_zero] at change

theorem sum_given (empty : weight pc = 0) :
    ∑ q, weight (Function.update f p pc q) + weight (f p) = ∑ q, weight (f q) := by
  have change := sum_update f p pc weight
  rwa [empty, add_zero] at change

theorem sum_same [IsRightCancelAdd Holding] (same : weight pc = weight (f p)) :
    ∑ q, weight (Function.update f p pc q) = ∑ q, weight (f q) := by
  have change := sum_update f p pc weight
  rw [same] at change
  exact add_right_cancel change

theorem sum_kept (before : weight (f p) = 0) (after : weight pc = 0) :
    ∑ q, weight (Function.update f p pc q) = ∑ q, weight (f q) := by
  rw [sum_taken f p pc weight before, after, add_zero]

end Holdings
end Exclusive
