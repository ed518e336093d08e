import TradingSystems.Session7.OrderProcessing
import TradingSystems.Library.Exclusive
import Mathlib.Algebra.BigOperators.Group.Finset.Piecewise
import Mathlib.Algebra.Order.BigOperators.Group.Finset
import Mathlib.Algebra.Order.Ring.Nat

/- The semaphore. A permit is in the semaphore or with a consumer between `acquire` and
   `release`, so that never more than three consumers are at work on an order. -/
namespace Session7
open Runs Exclusive
variable {producers consumers : Nat}

def ConsumerPc.permits : ConsumerPc → Nat
  | .acquired _ | .booked _ | .recorded | .counted => 1
  | _ => 0

def Program.atWork (s : Program producers consumers) : Finset (Fin consumers) :=
  Finset.univ.filter fun c => (s.consumer c).permits = 1

def Permits (s : Program producers consumers) : Prop :=
  s.processingSemaphore + ∑ c, (s.consumer c).permits = 3

section Steps
variable {numOrders : Fin producers → Nat} {s t : Program producers consumers}
  {e : Event producers consumers}

theorem kept_permits (permits : Permits s)
    (semaphore : t.processingSemaphore = s.processingSemaphore)
    (held : ∑ c, (t.consumer c).permits = ∑ c, (s.consumer c).permits) : Permits t := by
  rw [Permits, semaphore, held]
  exact permits

theorem consumer_permits (step : Program.ConsumerStep s e t) (permits : Permits s) :
    Permits t := by
  cases step with
  | startConsumer here _ | pop here _ | popEmpty here _ | stamp here =>
    exact kept_permits permits rfl (sum_kept _ _ _ ConsumerPc.permits (by rw [here]; rfl) rfl)
  | loadDone here =>
    have gone : ∀ done : Bool, (if done then ConsumerPc.exited else .top).permits = 0 := by
      intro done
      cases done <;> rfl
    exact kept_permits permits rfl
      (sum_kept _ _ _ ConsumerPc.permits (by rw [here]; rfl) (gone s.producersDone))
  | @acquire c order here free =>
    have taken := sum_taken s.consumer c (.acquired order) ConsumerPc.permits (by rw [here]; rfl)
    change ∑ d, (Function.update s.consumer c (.acquired order) d).permits = _ + 1 at taken
    unfold Permits at *
    change s.processingSemaphore - 1 +
      ∑ d, (Function.update s.consumer c (.acquired order) d).permits = 3
    omega
  | updateBook here | record here | count here =>
    exact kept_permits permits rfl (sum_same _ _ _ ConsumerPc.permits (by rw [here]; rfl))
  | @release c here =>
    have given := sum_given s.consumer c .top ConsumerPc.permits rfl
    rw [here] at given
    change ∑ d, (Function.update s.consumer c .top d).permits + 1 = _ at given
    unfold Permits at *
    change s.processingSemaphore + 1 + ∑ d, (Function.update s.consumer c .top d).permits = 3
    omega

theorem step_permits (step : s.Step numOrders e t) (permits : Permits s) : Permits t := by
  rcases Program.step_kinds step with main | producer | consumer
  · cases main <;> exact permits
  · cases producer <;> exact permits
  · exact consumer_permits consumer permits

end Steps

section Permitted
variable {s : Program producers consumers}

theorem permits_le_one (pc : ConsumerPc) : pc.permits ≤ 1 := by
  cases pc <;> simp [ConsumerPc.permits]

theorem at_work_card : s.atWork.card = ∑ c, (s.consumer c).permits := by
  rw [Program.atWork, Finset.card_filter]
  refine Finset.sum_congr rfl fun c _ => ?_
  have most := permits_le_one (s.consumer c)
  split <;> omega

theorem Permits.holder (permits : Permits s) (empty : s.processingSemaphore = 0) :
    ∃ c, (s.consumer c).permits = 1 := by
  have some_held : s.atWork.card ≠ 0 := by
    rw [at_work_card]
    unfold Permits at permits
    omega
  obtain ⟨c, member⟩ := Finset.card_ne_zero.mp some_held
  exact ⟨c, (Finset.mem_filter.mp member).2⟩

theorem create_permits : Permits (Program.create : Program producers consumers) := by
  simp [Permits, Program.create, ConsumerPc.permits]

/-- In every interleaving the semaphore counts the permits that are not in use, and at
    most three consumers are between `acquire` and `release`. -/
theorem at_most_three_at_work {numOrders : Fin producers → Nat}
    {events : List (Event producers consumers)}
    (run : Run (Program.Step numOrders) .create events s) :
    s.processingSemaphore + s.atWork.card = 3 ∧ s.atWork.card ≤ 3 := by
  have permits : Permits s :=
    run_invariant Permits (fun step => step_permits step) run create_permits
  rw [Permits, ← at_work_card] at permits
  exact ⟨permits, by omega⟩

end Permitted

/-- Four orders popped by four consumers, of which three have a permit. -/
def threeAtWork : List (Event 1 4) :=
  [.countDown, .startProducer 0, .make 0 0, .push 0, .make 0 1, .push 0, .make 0 2, .push 0,
   .make 0 3, .push 0, .startConsumer 0, .startConsumer 1, .startConsumer 2, .startConsumer 3,
   .pop 0, .pop 1, .pop 2, .pop 3, .stamp 0 4, .stamp 1 4, .stamp 2 4, .stamp 3 4,
   .acquire 0, .acquire 1, .acquire 2]

theorem at_most_three_at_work_full : ∃ s : Program 1 4,
    Run (Program.Step fun _ => 4) .create threeAtWork s ∧ s.processingSemaphore = 0 ∧
      s.processingSemaphore + s.atWork.card = 3 ∧ s.atWork.card ≤ 3 := by
  have replayed : ∃ s : Program 1 4, replay (Program.act fun _ => 4) .create threeAtWork = some s ∧
      s.processingSemaphore = 0 := ⟨_, rfl, rfl⟩
  obtain ⟨s, done, empty⟩ := replayed
  have run : Run (Program.Step fun _ => 4) _ _ s := run_of_replay id done
  exact ⟨s, run, empty, at_most_three_at_work run⟩

end Session7
