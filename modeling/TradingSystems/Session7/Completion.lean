import TradingSystems.Session7.Permits

/- Completion. With a consumer in the program no interleaving ever gets stuck: from
   every state some further steps let every thread finish. Each thread has a bounded
   number of steps left that bring it forward, a queued order the seven of its consumer,
   and somebody can always make one of them. -/
namespace Session7
open Runs Exclusive Wrapping
variable {producers consumers : Nat}

def MainPc.remaining : MainPc → Nat
  | .launched => 3
  | .joining => 2
  | .joined => 1
  | .signalled => 0

/-- The steps of a producer, and seven for each order that it has yet to push. -/
def ProducerPc.remaining (numOrders : Nat) : ProducerPc → Nat
  | .waiting => 9 * numOrders + 2
  | .ready i => 9 * (numOrders - i) + 1
  | .pushing i _ => 9 * (numOrders - i)
  | .returned => 0

def ConsumerPc.remaining : ConsumerPc → Nat
  | .waiting | .failed => 2
  | .top => 1
  | .popped _ => 7
  | .stamped _ => 6
  | .acquired _ => 5
  | .booked _ => 4
  | .recorded => 3
  | .counted => 2
  | .exited => 0

def Program.remaining (numOrders : Fin producers → Nat) (s : Program producers consumers) : Nat :=
  s.main.remaining + ∑ p, (s.producer p).remaining (numOrders p) + 7 * s.orderQueue.length +
    ∑ c, (s.consumer c).remaining

structure Program.Finished (s : Program producers consumers) : Prop where
  main : s.main = .signalled
  returned : ∀ p, (s.producer p).isReturned
  exited : ∀ c, s.consumer c = .exited

/-- A consumer is gone only after the flag was set. -/
def ConsumerPc.LeftAfter (producersDone : Bool) (pc : ConsumerPc) : Prop :=
  pc = .exited → producersDone = true

/-- What the waits of the program rely on. -/
structure Orderly (numOrders : Fin producers → Nat) (s : Program producers consumers) : Prop where
  latch : s.startLatch = if s.main = .launched then 1 else 0
  done : s.producersDone = true ↔ s.main = .signalled
  pushing : ∀ p i order, s.producer p = .pushing i order → i < numOrders p
  joined : s.main = .joined ∨ s.main = .signalled → ∀ p, (s.producer p).isReturned
  exited : ∀ c, (s.consumer c).LeftAfter s.producersDone
  permits : Permits s

section Invariant
variable {numOrders : Fin producers → Nat} {s t : Program producers consumers}
  {e : Event producers consumers}

theorem create_orderly : Orderly numOrders (Program.create : Program producers consumers) where
  latch := rfl
  done := by simp [Program.create]
  pushing := fun _ _ _ here => by cases here
  joined := fun here => by simp [Program.create] at here
  exited := fun _ here => by cases here
  permits := create_permits

theorem main_orderly (step : Program.MainStep s e t) (orderly : Orderly numOrders s) :
    Orderly numOrders t := by
  have permits := orderly.permits
  cases step with
  | countDown here =>
    have latch := orderly.latch
    have done := orderly.done
    rw [if_pos here] at latch
    refine ⟨by simp [latch], ?_, orderly.pushing, ?_, orderly.exited, permits⟩
    · simpa [here] using done
    · rintro (other | other) <;> cases other
  | joinProducers here returned =>
    have latch := orderly.latch
    have done := orderly.done
    simp only [here, reduceCtorEq, if_false] at latch
    refine ⟨by simpa using latch, ?_, orderly.pushing, fun _ => returned, orderly.exited, permits⟩
    simpa [here] using done
  | setDone here =>
    have latch := orderly.latch
    simp only [here, reduceCtorEq, if_false] at latch
    exact ⟨by simpa using latch, by simp, orderly.pushing, fun _ => orderly.joined (Or.inl here),
      fun _ _ => rfl, permits⟩

theorem set_producer_orderly {p : Fin producers} {pc : ProducerPc} (orderly : Orderly numOrders s)
    (running : (s.producer p).isReturned = false)
    (bounded : ∀ i order, pc = .pushing i order → i < numOrders p) :
    Orderly numOrders (s.setProducer p pc) where
  latch := orderly.latch
  done := orderly.done
  pushing := by
    intro q i order here
    by_cases same : q = p
    · subst same
      exact bounded i order (by simpa [Program.setProducer] using here)
    · exact orderly.pushing q i order (by simpa [Program.setProducer, same] using here)
  joined := by
    intro ended
    have returned := orderly.joined ended p
    rw [running] at returned
    cases returned
  exited := orderly.exited
  permits := orderly.permits

theorem producer_orderly (step : Program.ProducerStep numOrders s e t)
    (orderly : Orderly numOrders s) : Orderly numOrders t := by
  cases step with
  | startProducer here _ =>
    exact set_producer_orderly orderly (by rw [here]; rfl) fun _ _ other => by cases other
  | make here more =>
    refine set_producer_orderly orderly (by rw [here]; rfl) ?_
    intro i order same
    cases same
    exact more
  | @push p i order here room =>
    have kept : Orderly numOrders (s.setProducer p (.ready (i + 1))) :=
      set_producer_orderly orderly (by rw [here]; rfl) fun _ _ other => by cases other
    exact ⟨kept.latch, kept.done, kept.pushing, kept.joined, kept.exited, kept.permits⟩
  | pushFull here full => exact orderly
  | finish here done =>
    exact set_producer_orderly orderly (by rw [here]; rfl) fun _ _ other => by cases other

theorem consumer_exited (step : Program.ConsumerStep s e t)
    (exited : ∀ c, (s.consumer c).LeftAfter s.producersDone) :
    ∀ c, (t.consumer c).LeftAfter t.producersDone := by
  cases step with
  | loadDone here =>
    refine all_update exited ?_
    intro gone
    change s.producersDone = true
    simpa using gone
  | _ => exact all_update exited fun gone => by cases gone

theorem consumer_orderly (step : Program.ConsumerStep s e t) (orderly : Orderly numOrders s) :
    Orderly numOrders t := by
  have permits := consumer_permits step orderly.permits
  have exited := consumer_exited step orderly.exited
  cases step <;>
    exact ⟨orderly.latch, orderly.done, orderly.pushing, orderly.joined, exited, permits⟩

theorem step_orderly (step : s.Step numOrders e t) (orderly : Orderly numOrders s) :
    Orderly numOrders t := by
  rcases Program.step_kinds step with main | producer | consumer
  · exact main_orderly main orderly
  · exact producer_orderly producer orderly
  · exact consumer_orderly consumer orderly

end Invariant

def Advances (numOrders : Fin producers → Nat) (s : Program producers consumers) : Prop :=
  ∃ events t, Run (Program.Step numOrders) s events t ∧
    t.remaining numOrders < s.remaining numOrders

section Progress
variable {numOrders : Fin producers → Nat} {s t : Program producers consumers}

variable (numOrders) in
theorem remaining_consumer {c : Fin consumers} {pc : ConsumerPc} (main : t.main = s.main)
    (producer : t.producer = s.producer) (consumer : t.consumer = Function.update s.consumer c pc) :
    t.remaining numOrders + 7 * s.orderQueue.length + (s.consumer c).remaining =
      s.remaining numOrders + 7 * t.orderQueue.length + pc.remaining := by
  have change := sum_update s.consumer c pc ConsumerPc.remaining
  unfold Program.remaining
  rw [main, producer, consumer]
  omega

variable (numOrders) in
theorem remaining_producer {p : Fin producers} {pc : ProducerPc} (main : t.main = s.main)
    (consumer : t.consumer = s.consumer) (producer : t.producer = Function.update s.producer p pc) :
    t.remaining numOrders + 7 * s.orderQueue.length +
        (s.producer p).remaining (numOrders p) =
      s.remaining numOrders + 7 * t.orderQueue.length + pc.remaining (numOrders p) := by
  have change := sum_update_each s.producer p pc fun q => ProducerPc.remaining (numOrders q)
  unfold Program.remaining
  rw [main, producer, consumer]
  omega

theorem consumer_advances {c : Fin consumers} {pc : ConsumerPc}
    {e : Event producers consumers} (step : s.Step numOrders e t) (main : t.main = s.main)
    (producer : t.producer = s.producer) (queue : t.orderQueue = s.orderQueue)
    (consumer : t.consumer = Function.update s.consumer c pc)
    (fewer : pc.remaining < (s.consumer c).remaining) : Advances numOrders s := by
  have change := remaining_consumer numOrders main producer consumer
  rw [queue] at change
  exact ⟨[e], t, run_one step, by omega⟩

theorem busy_advances {c : Fin consumers} (busy : 1 < (s.consumer c).remaining)
    (started : s.startLatch = 0)
    (permit : ∀ order, s.consumer c = .stamped order → s.processingSemaphore ≠ 0) :
    Advances numOrders s := by
  cases here : s.consumer c with
  | top => simp [here, ConsumerPc.remaining] at busy
  | exited => simp [here, ConsumerPc.remaining] at busy
  | waiting =>
    have step : s.Step numOrders (.startConsumer c) (s.setConsumer c .top) := by
      simp [Program.Step, Program.act, Program.actConsumer, here, started]
    exact consumer_advances step rfl rfl rfl rfl (by simp [here, ConsumerPc.remaining])
  | failed =>
    have step : s.Step numOrders (.loadDone c)
        (s.setConsumer c (if s.producersDone then .exited else .top)) := by
      simp [Program.Step, Program.act, Program.actConsumer, here]
    refine consumer_advances step rfl rfl rfl rfl ?_
    rw [here]
    cases s.producersDone <;> simp [ConsumerPc.remaining]
  | popped order =>
    have step : s.Step numOrders (.stamp c 0)
        (s.setConsumer c (.stamped { order with dequeueTime := some 0 })) := by
      simp [Program.Step, Program.act, Program.actConsumer, here]
    exact consumer_advances step rfl rfl rfl rfl (by simp [here, ConsumerPc.remaining])
  | stamped order =>
    have step : s.Step numOrders (.acquire c) { s.setConsumer c (.acquired order) with
        processingSemaphore := s.processingSemaphore - 1 } := by
      simp [Program.Step, Program.act, Program.actConsumer, here, permit order here]
    exact consumer_advances step rfl rfl rfl rfl (by simp [here, ConsumerPc.remaining])
  | acquired order =>
    have step : s.Step numOrders (.updateBook c)
        { s.setConsumer c (.booked order) with orderBook := bookOrder s.orderBook order } := by
      simp [Program.Step, Program.act, Program.actConsumer, here]
    exact consumer_advances step rfl rfl rfl rfl (by simp [here, ConsumerPc.remaining])
  | booked order =>
    have step : s.Step numOrders (.record c)
        { s.setConsumer c .recorded with completedOrders := s.completedOrders ++ [order] } := by
      simp [Program.Step, Program.act, Program.actConsumer, here]
    exact consumer_advances step rfl rfl rfl rfl (by simp [here, ConsumerPc.remaining])
  | recorded =>
    have step : s.Step numOrders (.count c) { s.setConsumer c .counted with
        ordersProcessed := wrapped 32 (s.ordersProcessed + 1) } := by
      simp [Program.Step, Program.act, Program.actConsumer, here]
    exact consumer_advances step rfl rfl rfl rfl (by simp [here, ConsumerPc.remaining])
  | counted =>
    have step : s.Step numOrders (.release c)
        { s.setConsumer c .top with processingSemaphore := s.processingSemaphore + 1 } := by
      simp [Program.Step, Program.act, Program.actConsumer, here]
    exact consumer_advances step rfl rfl rfl rfl (by simp [here, ConsumerPc.remaining])

theorem consumers_advance {c : Fin consumers} (busy : 1 < (s.consumer c).remaining)
    (started : s.startLatch = 0) (permits : Permits s) : Advances numOrders s := by
  by_cases free : s.processingSemaphore = 0
  · obtain ⟨d, held⟩ := permits.holder free
    have working : 1 < (s.consumer d).remaining := by
      cases here : s.consumer d <;> simp [here, ConsumerPc.permits] at held <;>
        simp [ConsumerPc.remaining]
    refine busy_advances working started ?_
    intro order here
    simp [here, ConsumerPc.permits] at held
  · exact busy_advances busy started fun _ _ => free

theorem producer_advances {p : Fin producers} (running : (s.producer p).isReturned = false)
    (started : s.startLatch = 0) (empty : s.orderQueue = []) (orderly : Orderly numOrders s) :
    Advances numOrders s := by
  cases here : s.producer p with
  | waiting =>
    have step : s.Step numOrders (.startProducer p) (s.setProducer p (.ready 0)) := by
      simp [Program.Step, Program.act, Program.actProducer, here, started]
    have change := remaining_producer numOrders (s := s)
      (t := s.setProducer p (.ready 0)) rfl rfl rfl
    refine ⟨_, _, run_one step, ?_⟩
    simp only [here, ProducerPc.remaining, Program.setProducer] at change ⊢
    omega
  | ready i =>
    by_cases more : i < numOrders p
    · have step : s.Step numOrders (.make p 0)
          (s.setProducer p (.pushing i (makeOrder (p + 1) i 0))) := by
        simp [Program.Step, Program.act, Program.actProducer, here, more]
      have change := remaining_producer numOrders (s := s)
        (t := s.setProducer p (.pushing i (makeOrder (p + 1) i 0))) rfl rfl rfl
      refine ⟨_, _, run_one step, ?_⟩
      simp only [here, ProducerPc.remaining, Program.setProducer] at change ⊢
      omega
    · have step : s.Step numOrders (.finish p) (s.setProducer p .returned) := by
        simp [Program.Step, Program.act, Program.actProducer, here, more]
      have change := remaining_producer numOrders (s := s)
        (t := s.setProducer p .returned) rfl rfl rfl
      refine ⟨_, _, run_one step, ?_⟩
      simp only [here, ProducerPc.remaining, Program.setProducer] at change ⊢
      omega
  | pushing i order =>
    have bounded := orderly.pushing p i order here
    let t : Program producers consumers := { s.setProducer p (.ready (i + 1)) with
      orderQueue := s.orderQueue ++ [order], pushed := s.pushed ++ [order] }
    have step : s.Step numOrders (.push p) t := by
      simp [Program.Step, Program.act, Program.actProducer, here, empty, queueCapacity, t]
    have change := remaining_producer numOrders (s := s) (t := t) rfl rfl rfl
    have longer : t.orderQueue.length = s.orderQueue.length + 1 := by simp [t]
    refine ⟨_, _, run_one step, ?_⟩
    rw [here, longer] at change
    simp only [ProducerPc.remaining] at change
    omega
  | returned => simp [here, ProducerPc.isReturned] at running

theorem main_advances {e : Event producers consumers} (step : s.Step numOrders e t)
    (producer : t.producer = s.producer) (consumer : t.consumer = s.consumer)
    (queue : t.orderQueue = s.orderQueue) (fewer : t.main.remaining < s.main.remaining) :
    Advances numOrders s := by
  refine ⟨[e], t, run_one step, ?_⟩
  unfold Program.remaining
  rw [producer, consumer, queue]
  omega

theorem pop_advances {c : Fin consumers} (top : s.consumer c = .top) (some : s.orderQueue ≠ []) :
    Advances numOrders s := by
  obtain ⟨order, rest, queue⟩ := List.exists_cons_of_ne_nil some
  let t : Program producers consumers := { s.setConsumer c (.popped order) with orderQueue := rest }
  have step : s.Step numOrders (.pop c) t := by
    simp [Program.Step, Program.act, Program.actConsumer, top, queue, t]
  have change := remaining_consumer numOrders (s := s) (t := t) (c := c) rfl rfl rfl
  rw [top, queue, List.length_cons] at change
  change t.remaining numOrders + 7 * (rest.length + 1) + 1 =
    s.remaining numOrders + 7 * rest.length + 7 at change
  exact ⟨_, t, run_one step, by omega⟩

theorem exit_advances {c : Fin consumers} (top : s.consumer c = .top) (empty : s.orderQueue = [])
    (done : s.producersDone = true) : Advances numOrders s := by
  have looked : s.Step numOrders (.popEmpty c) (s.setConsumer c .failed) := by
    simp [Program.Step, Program.act, Program.actConsumer, top, empty]
  have left : (s.setConsumer c .failed).Step numOrders (.loadDone c)
      ((s.setConsumer c .failed).setConsumer c .exited) := by
    simp [Program.Step, Program.act, Program.actConsumer, Program.setConsumer, done]
  have first := remaining_consumer numOrders (s := s) (t := s.setConsumer c .failed) (c := c)
    rfl rfl rfl
  have second := remaining_consumer numOrders (s := s.setConsumer c .failed)
    (t := (s.setConsumer c .failed).setConsumer c .exited) (c := c) rfl rfl rfl
  refine ⟨_, _, (run_one looked).snoc left, ?_⟩
  simp only [top, ConsumerPc.remaining, Program.setConsumer, Function.update_self] at first second ⊢
  omega

theorem unfinished_advances (some_consumer : 0 < consumers) (orderly : Orderly numOrders s)
    (unfinished : ¬ s.Finished) : Advances numOrders s := by
  by_cases launched : s.main = .launched
  · have step : s.Step numOrders .countDown
        { s with main := .joining, startLatch := s.startLatch - 1 } := by
      simp [Program.Step, Program.act, Program.actMain, launched]
    exact main_advances step rfl rfl rfl (by simp [launched, MainPc.remaining])
  have started : s.startLatch = 0 := by simpa [launched] using orderly.latch
  by_cases busy : ∃ c, 1 < (s.consumer c).remaining
  · obtain ⟨c, working⟩ := busy
    exact consumers_advance working started orderly.permits
  have idle : ∀ c, s.consumer c = .top ∨ s.consumer c = .exited := by
    intro c
    have few : ¬ 1 < (s.consumer c).remaining := fun working => busy ⟨c, working⟩
    cases here : s.consumer c <;> simp [here, ConsumerPc.remaining] at few ⊢
  by_cases waits : ∃ c, s.consumer c = .top
  · obtain ⟨c, top⟩ := waits
    by_cases empty : s.orderQueue = []
    · by_cases running : ∃ p, (s.producer p).isReturned = false
      · obtain ⟨p, running⟩ := running
        exact producer_advances running started empty orderly
      have returned : ∀ p, (s.producer p).isReturned := by simpa using running
      cases here : s.main with
      | launched => exact absurd here launched
      | joining =>
        have step : s.Step numOrders .joinProducers { s with main := .joined } := by
          simp [Program.Step, Program.act, Program.actMain, here, returned]
        exact main_advances step rfl rfl rfl (by simp [here, MainPc.remaining])
      | joined =>
        have step : s.Step numOrders .setDone
            { s with main := .signalled, producersDone := true } := by
          simp [Program.Step, Program.act, Program.actMain, here]
        exact main_advances step rfl rfl rfl (by simp [here, MainPc.remaining])
      | signalled => exact exit_advances top empty (orderly.done.mpr here)
    · exact pop_advances top empty
  · -- every consumer has gone, so the flag was set and there is nothing left to do
    have gone : ∀ c, s.consumer c = .exited :=
      fun c => (idle c).resolve_left fun top => waits ⟨c, top⟩
    have signalled := orderly.done.mp (orderly.exited ⟨0, some_consumer⟩ (gone _))
    exact absurd ⟨signalled, orderly.joined (Or.inr signalled), gone⟩ unfinished

/-- Whatever has happened so far, the program can still come to its end. -/
theorem always_finishes (some_consumer : 0 < consumers) {events : List (Event producers consumers)}
    (run : Run (Program.Step numOrders) .create events s) :
    ∃ more t, Run (Program.Step numOrders) s more t ∧ t.Finished := by
  have orderly : Orderly numOrders s :=
    run_invariant (Orderly numOrders) (fun step => step_orderly step) run create_orderly
  exact run_finishes (Program.remaining numOrders) Program.Finished (Orderly numOrders)
    (fun step => step_orderly step) (fun _ => unfinished_advances some_consumer) orderly

end Progress

theorem always_finishes_waiting : ∃ s : Program 1 4,
    Run (Program.Step fun _ => 4) .create threeAtWork s ∧
      s.act (fun _ => 4) (.acquire 3) = none ∧
      ∃ more t, Run (Program.Step fun _ => 4) s more t ∧ t.Finished := by
  have replayed : ∃ s : Program 1 4, replay (Program.act fun _ => 4) .create threeAtWork = some s ∧
      s.act (fun _ => 4) (.acquire 3) = none := ⟨_, rfl, rfl⟩
  obtain ⟨s, done, blocked⟩ := replayed
  have run : Run (Program.Step fun _ => 4) _ _ s := run_of_replay id done
  exact ⟨s, run, blocked, always_finishes (by decide) run⟩

end Session7
