import TradingSystems.Session7.MemoryOrderingBenchmark

/- Completion of the benchmark. The consumers go on until the counter shows all operations,
   but the producers push only what is left after the division, so that the benchmark can
   come to its end exactly when the operations divide evenly among the producers. -/
namespace Session7.MemoryOrdering
open Runs Fifo Exclusive ConcurrentQueue
variable {numProducers numConsumers : Nat}

def MainPc.remaining : MainPc → Nat
  | .created => 3
  | .joiningProducers => 2
  | .joiningConsumers => 1
  | .joined => 0

/-- The steps of a producer, and three for each item that it has yet to push. -/
def ProducerPc.remaining (items : Nat) : ProducerPc → Nat
  | .spinning => 6 * items + 2
  | .loop i => 6 * (items - i) + 1
  | .pushing i _ => 6 * (items - i)
  | .adding i => 6 * (items - (i + 1)) + 2
  | .returned => 0

def ConsumerPc.remaining : ConsumerPc → Nat
  | .spinning | .popping | .adding => 2
  | .loop => 1
  | .returned => 0

def Benchmark.remaining (items queued : Nat) (s : Benchmark numProducers numConsumers) : Nat :=
  s.main.remaining + ∑ p, (s.producer p).remaining items + 3 * queued +
    ∑ c, (s.consumer c).remaining

structure Benchmark.Finished (s : Benchmark numProducers numConsumers) : Prop where
  main : s.main = .joined
  producers : ∀ p, s.producer p = .returned
  consumers : ∀ c, s.consumer c = .returned

/-- What the waits of the benchmark rely on. -/
structure Waits (s : Benchmark numProducers numConsumers) : Prop where
  flag : s.startFlag = true ↔ s.main ≠ .created
  producers : s.main = .joiningConsumers ∨ s.main = .joined → ∀ p, s.producer p = .returned
  consumers : s.main = .joined → ∀ c, s.consumer c = .returned

section Invariant
variable {cap numOperations : Nat} {s t : Benchmark numProducers numConsumers}
  {e : Event numProducers numConsumers}

theorem create_waits (buffer : Nat → Nat) :
    Waits (Benchmark.create buffer : Benchmark numProducers numConsumers) where
  flag := by simp [Benchmark.create]
  producers := fun ended => by simp [Benchmark.create] at ended
  consumers := fun ended => by cases ended

theorem Waits.producer_moved {p : Fin numProducers} (waits : Waits s)
    (running : s.producer p ≠ .returned) (flag : t.startFlag = s.startFlag)
    (main : t.main = s.main) (consumer : t.consumer = s.consumer) : Waits t where
  flag := by rw [flag, main]; exact waits.flag
  producers := by
    rw [main]
    exact fun ended => absurd (waits.producers ended p) running
  consumers := by
    rw [main, consumer]
    exact waits.consumers

theorem Waits.consumer_moved {c : Fin numConsumers} (waits : Waits s)
    (running : s.consumer c ≠ .returned) (flag : t.startFlag = s.startFlag)
    (main : t.main = s.main) (producer : t.producer = s.producer) : Waits t where
  flag := by rw [flag, main]; exact waits.flag
  producers := by
    rw [main, producer]
    exact waits.producers
  consumers := by
    rw [main]
    exact fun ended => absurd (waits.consumers ended c) running

theorem step_waits (step : s.Step cap numOperations e t) (waits : Waits s) : Waits t := by
  cases Benchmark.step_acts step with
  | start here =>
    refine ⟨by simp, fun ended => ?_, fun ended => by cases ended⟩
    rcases ended with other | other <;> cases other
  | joinProducers here returned =>
    refine ⟨?_, fun _ => returned, fun ended => by cases ended⟩
    simpa [here] using waits.flag
  | joinConsumers here returned =>
    refine ⟨?_, fun _ => waits.producers (Or.inl here), fun _ => returned⟩
    simpa [here] using waits.flag
  | retry => exact waits
  | lookProducer here | testMore here _ | testDone here _ | push here _ | addProduced here =>
    exact waits.producer_moved (by rw [here]; simp) rfl rfl rfl
  | lookConsumer here | loadMore here _ | loadDone here _ =>
    exact waits.consumer_moved (by rw [here]; simp) rfl rfl rfl
  | pop here _ | popEmpty here | addConsumed here =>
    exact waits.consumer_moved (by rw [here]; simp) rfl rfl rfl

end Invariant

/-- The ring holds `f`, and the waits are as they should be. -/
structure Going (cap numOperations : Nat) (f : Queue Nat cap)
    (s : Benchmark numProducers numConsumers) : Prop where
  shared : Shared cap numOperations (itemsPerProducer numOperations numProducers) f s
  waits : Waits s

/-- The queue is part of what remains to be done, so the measure needs what it holds. -/
def Benchmark.measure (cap numOperations : Nat) (s : Benchmark numProducers numConsumers) : Nat :=
  s.remaining (itemsPerProducer numOperations numProducers) (s.queue.size cap)

def Advances (cap numOperations : Nat) (s : Benchmark numProducers numConsumers) : Prop :=
  ∃ events t, Run (Benchmark.Step cap numOperations) s events t ∧
    t.measure cap numOperations < s.measure cap numOperations

section Progress
variable {cap numOperations : Nat} {f : Queue Nat cap} {s t : Benchmark numProducers numConsumers}
  {e : Event numProducers numConsumers}

theorem Going.size (going : Going cap numOperations f s) : s.queue.size cap = f.items.length :=
  going.shared.shown.size_eq

variable (cap numOperations) in
theorem measure_consumer {c : Fin numConsumers} {pc : ConsumerPc} (main : t.main = s.main)
    (producer : t.producer = s.producer) (consumer : t.consumer = Function.update s.consumer c pc) :
    t.measure cap numOperations + 3 * s.queue.size cap + (s.consumer c).remaining =
      s.measure cap numOperations + 3 * t.queue.size cap + pc.remaining := by
  have change := sum_update s.consumer c pc ConsumerPc.remaining
  unfold Benchmark.measure Benchmark.remaining
  rw [main, producer, consumer]
  omega

variable (cap numOperations) in
theorem measure_producer {p : Fin numProducers} {pc : ProducerPc} (main : t.main = s.main)
    (consumer : t.consumer = s.consumer) (producer : t.producer = Function.update s.producer p pc) :
    t.measure cap numOperations + 3 * s.queue.size cap +
        (s.producer p).remaining (itemsPerProducer numOperations numProducers) =
      s.measure cap numOperations + 3 * t.queue.size cap +
        pc.remaining (itemsPerProducer numOperations numProducers) := by
  have change := sum_update s.producer p pc
    (ProducerPc.remaining (itemsPerProducer numOperations numProducers))
  unfold Benchmark.measure Benchmark.remaining
  rw [main, producer, consumer]
  omega

theorem consumer_advances {c : Fin numConsumers} {pc : ConsumerPc}
    (step : s.Step cap numOperations e t) (main : t.main = s.main)
    (producer : t.producer = s.producer) (queue : t.queue = s.queue)
    (consumer : t.consumer = Function.update s.consumer c pc)
    (fewer : pc.remaining < (s.consumer c).remaining) : Advances cap numOperations s := by
  have change := measure_consumer cap numOperations main producer consumer
  rw [queue] at change
  exact ⟨[e], t, run_one step, by omega⟩

theorem producer_advances {p : Fin numProducers} {pc : ProducerPc}
    (step : s.Step cap numOperations e t) (main : t.main = s.main)
    (consumer : t.consumer = s.consumer) (queue : t.queue = s.queue)
    (producer : t.producer = Function.update s.producer p pc)
    (fewer : pc.remaining (itemsPerProducer numOperations numProducers) <
      (s.producer p).remaining (itemsPerProducer numOperations numProducers)) :
    Advances cap numOperations s := by
  have change := measure_producer cap numOperations main consumer producer
  rw [queue] at change
  exact ⟨[e], t, run_one step, by omega⟩

theorem main_advances (step : s.Step cap numOperations e t) (producer : t.producer = s.producer)
    (consumer : t.consumer = s.consumer) (queue : t.queue = s.queue)
    (fewer : t.main.remaining < s.main.remaining) : Advances cap numOperations s := by
  refine ⟨[e], t, run_one step, ?_⟩
  unfold Benchmark.measure Benchmark.remaining
  rw [producer, consumer, queue]
  omega

theorem pop_advances {c : Fin numConsumers} (going : Going cap numOperations f s)
    (here : s.consumer c = .popping) (some : f.items ≠ []) :
    ∃ t, s.Step cap numOperations (.pop c) t ∧
      t.measure cap numOperations + 3 = s.measure cap numOperations := by
  have success := (pop_iff going.shared.shown 0).1.mpr some
  obtain ⟨g, shown, queued⟩ := (pop_iff going.shared.shown 0).2 success
  let t : Benchmark numProducers numConsumers := { s.setConsumer c .adding with
    queue := (s.queue.pop cap 0).2.2, popped := s.popped ++ [(s.queue.pop cap 0).2.1] }
  have step : s.Step cap numOperations (.pop c) t := by
    simp [Benchmark.Step, Benchmark.act, Benchmark.actConsumer, here, success, t]
  have change := measure_consumer cap numOperations (s := s) (t := t) (c := c) rfl rfl rfl
  have before := going.size
  have after : t.queue.size cap = g.items.length := shown.size_eq
  rw [queued, List.length_cons] at before
  rw [here] at change
  change _ + 2 = _ + 2 at change
  exact ⟨t, step, by omega⟩

theorem busy_advances {c : Fin numConsumers} (going : Going cap numOperations f s)
    (busy : (s.consumer c).remaining = 2) (started : s.startFlag = true) :
    Advances cap numOperations s := by
  cases here : s.consumer c with
  | loop | returned => simp [here, ConsumerPc.remaining] at busy
  | spinning =>
    have step : s.Step cap numOperations (.lookConsumer c) (s.setConsumer c .loop) := by
      simp [Benchmark.Step, Benchmark.act, Benchmark.actConsumer, here, started]
    exact consumer_advances step rfl rfl rfl rfl (by simp [here, ConsumerPc.remaining])
  | popping =>
    by_cases some : f.items = []
    · have failed : (s.queue.pop cap 0).1 = false := by
        have := mt (pop_iff going.shared.shown 0).1.mp (not_not.mpr some)
        simpa using this
      have step : s.Step cap numOperations (.pop c) (s.setConsumer c .loop) := by
        simp [Benchmark.Step, Benchmark.act, Benchmark.actConsumer, here, failed]
      exact consumer_advances step rfl rfl rfl rfl (by simp [here, ConsumerPc.remaining])
    · obtain ⟨t, step, less⟩ := pop_advances going here some
      exact ⟨_, t, run_one step, by omega⟩
  | adding =>
    have step : s.Step cap numOperations (.addConsumed c)
        { s.setConsumer c .loop with consumed := s.consumed + 1 } := by
      simp [Benchmark.Step, Benchmark.act, Benchmark.actConsumer, here]
    exact consumer_advances step rfl rfl rfl rfl (by simp [here, ConsumerPc.remaining])

theorem loop_advances {c : Fin numConsumers} (going : Going cap numOperations f s)
    (here : s.consumer c = .loop) (some : numOperations ≤ s.consumed ∨ f.items ≠ []) :
    Advances cap numOperations s := by
  by_cases more : s.consumed < numOperations
  · have loaded : s.Step cap numOperations (.load c) (s.setConsumer c .popping) := by
      simp [Benchmark.Step, Benchmark.act, Benchmark.actConsumer, here, more]
    have first := measure_consumer cap numOperations (s := s) (t := s.setConsumer c .popping)
      (c := c) rfl rfl rfl
    rw [here] at first
    change _ + 3 * s.queue.size cap + 1 = _ + 3 * s.queue.size cap + 2 at first
    have kept : Going cap numOperations f (s.setConsumer c .popping) :=
      ⟨going.shared.turned (by rw [here]; rfl) (fun other => by cases other),
        step_waits loaded going.waits⟩
    obtain ⟨t, taken, less⟩ := pop_advances kept (Function.update_self ..)
      (some.resolve_left (not_le.mpr more))
    exact ⟨_, t, (run_one loaded).snoc taken, by omega⟩
  · have step : s.Step cap numOperations (.load c) (s.setConsumer c .returned) := by
      simp [Benchmark.Step, Benchmark.act, Benchmark.actConsumer, here, more]
    exact consumer_advances step rfl rfl rfl rfl (by simp [here, ConsumerPc.remaining])

theorem running_advances {p : Fin numProducers} (room : 2 ≤ cap)
    (going : Going cap numOperations f s) (running : s.producer p ≠ .returned)
    (started : s.startFlag = true) (empty : f.items = []) : Advances cap numOperations s := by
  cases here : s.producer p with
  | spinning =>
    have step : s.Step cap numOperations (.lookProducer p) (s.setProducer p (.loop 0)) := by
      simp [Benchmark.Step, Benchmark.act, Benchmark.actProducer, here, started]
    exact producer_advances step rfl rfl rfl rfl (by simp [here, ProducerPc.remaining])
  | loop i =>
    by_cases more : i < itemsPerProducer numOperations numProducers
    · have step : s.Step cap numOperations (.test p) (s.setProducer p
          (.pushing i (p * itemsPerProducer numOperations numProducers + i))) := by
        simp [Benchmark.Step, Benchmark.act, Benchmark.actProducer, here, more]
      exact producer_advances step rfl rfl rfl rfl (by simp [here, ProducerPc.remaining])
    · have step : s.Step cap numOperations (.test p) (s.setProducer p .returned) := by
        simp [Benchmark.Step, Benchmark.act, Benchmark.actProducer, here, more]
      exact producer_advances step rfl rfl rfl rfl (by simp [here, ProducerPc.remaining])
  | pushing i item =>
    have inside := going.shared.inside p
    rw [here] at inside
    have success : (s.queue.push cap item).1 = true := by
      refine (push_iff going.shared.shown item).1.mpr ?_
      rw [empty, List.length_nil]
      omega
    obtain ⟨g, shown, queued⟩ := (push_iff going.shared.shown item).2 success
    let t : Benchmark numProducers numConsumers :=
      { s.setProducer p (.adding i) with queue := (s.queue.push cap item).2 }
    have step : s.Step cap numOperations (.push p) t := by
      simp [Benchmark.Step, Benchmark.act, Benchmark.actProducer, here, success, t]
    have change := measure_producer cap numOperations (s := s) (t := t) (p := p) rfl rfl rfl
    have before := going.size
    have after : t.queue.size cap = g.items.length := shown.size_eq
    rw [queued, List.length_append, List.length_singleton] at after
    rw [here] at change
    simp only [ProducerPc.remaining] at change
    have more := inside.1
    exact ⟨_, t, run_one step, by omega⟩
  | adding i =>
    have inside := going.shared.inside p
    rw [here] at inside
    have step : s.Step cap numOperations (.addProduced p)
        { s.setProducer p (.loop (i + 1)) with produced := s.produced + 1 } := by
      simp [Benchmark.Step, Benchmark.act, Benchmark.actProducer, here]
    refine producer_advances step rfl rfl rfl rfl ?_
    simp [here, ProducerPc.remaining]
  | returned => exact absurd here running

theorem Going.all_pushed (going : Going cap numOperations f s)
    (even : numProducers ∣ numOperations) (returned : ∀ p, s.producer p = .returned)
    (empty : f.items = []) (idle : ∀ c, (s.consumer c).pending = 0) :
    numOperations ≤ s.consumed := by
  have count := going.shared.count
  have consumed := going.shared.consumed
  simp only [returned, ProducerPc.sent, Finset.sum_const, Finset.card_univ, Fintype.card_fin,
    smul_eq_mul, empty, List.length_nil, itemsPerProducer, Nat.mul_div_cancel' even] at count
  simp only [idle, Finset.sum_const_zero] at consumed
  omega

theorem unfinished_advances (room : 2 ≤ cap) (some_consumer : 0 < numConsumers)
    (even : numProducers ∣ numOperations) (going : Going cap numOperations f s)
    (unfinished : ¬ s.Finished) : Advances cap numOperations s := by
  by_cases created : s.main = .created
  · have step : s.Step cap numOperations .start
        { s with startFlag := true, main := .joiningProducers } := by
      simp [Benchmark.Step, Benchmark.act, Benchmark.actMain, created]
    exact main_advances step rfl rfl rfl (by simp [created, MainPc.remaining])
  have started := going.waits.flag.mpr created
  by_cases busy : ∃ c, (s.consumer c).remaining = 2
  · obtain ⟨c, working⟩ := busy
    exact busy_advances going working started
  have idle : ∀ c, s.consumer c = .loop ∨ s.consumer c = .returned := by
    intro c
    have few : ¬ (s.consumer c).remaining = 2 := fun working => busy ⟨c, working⟩
    cases here : s.consumer c <;> simp [here, ConsumerPc.remaining] at few ⊢
  have nothing_pending : ∀ c, (s.consumer c).pending = 0 := by
    intro c
    rcases idle c with here | here <;> rw [here] <;> rfl
  by_cases waiting : ∃ c, s.consumer c = .loop
  · obtain ⟨c, here⟩ := waiting
    by_cases empty : f.items = []
    · by_cases running : ∃ p, s.producer p ≠ .returned
      · obtain ⟨p, running⟩ := running
        exact running_advances room going running started empty
      · -- all items are pushed, popped and counted, so this consumer can leave
        have returned : ∀ p, s.producer p = .returned := by simpa using running
        exact loop_advances going here
          (Or.inl (going.all_pushed even returned empty nothing_pending))
    · exact loop_advances going here (Or.inr empty)
  · have gone : ∀ c, s.consumer c = .returned :=
      fun c => (idle c).resolve_left fun here => waiting ⟨c, here⟩
    have done := going.shared.left ⟨0, some_consumer⟩ (gone _)
    have empty := (going.shared.complete done).2.1
    by_cases running : ∃ p, s.producer p ≠ .returned
    · obtain ⟨p, running⟩ := running
      exact running_advances room going running started empty
    have returned : ∀ p, s.producer p = .returned := by simpa using running
    cases here : s.main with
    | created => exact absurd here created
    | joiningProducers =>
      have step : s.Step cap numOperations .joinProducers { s with main := .joiningConsumers } := by
        simp [Benchmark.Step, Benchmark.act, Benchmark.actMain, here, returned]
      exact main_advances step rfl rfl rfl (by simp [here, MainPc.remaining])
    | joiningConsumers =>
      have step : s.Step cap numOperations .joinConsumers { s with main := .joined } := by
        simp [Benchmark.Step, Benchmark.act, Benchmark.actMain, here, gone]
      exact main_advances step rfl rfl rfl (by simp [here, MainPc.remaining])
    | joined => exact absurd ⟨here, returned, gone⟩ unfinished

theorem step_going (step : s.Step cap numOperations e t)
    (going : ∃ f, Going cap numOperations f s) : ∃ f, Going cap numOperations f t := by
  obtain ⟨f, shared, waits⟩ := going
  obtain ⟨g, kept⟩ := step_shared step shared
  exact ⟨g, kept, step_waits step waits⟩

/-- From every state that the benchmark can reach it can come to its end if and only if the
    operations divide evenly among the producers; else no consumer ever returns. -/
theorem benchmark_finishes_iff (room : 2 ≤ cap) (some_consumer : 0 < numConsumers)
    {buffer : Nat → Nat} {events : List (Event numProducers numConsumers)}
    (run : Run (Benchmark.Step cap numOperations) (.create buffer) events s) :
    ((∃ more t, Run (Benchmark.Step cap numOperations) s more t ∧ t.Finished) ↔
      numProducers ∣ numOperations) ∧
    (¬ numProducers ∣ numOperations → ∀ c, s.consumer c ≠ .returned) := by
  have positive : 0 < cap := by omega
  have even_of : ∀ {events : List (Event numProducers numConsumers)}
      {t : Benchmark numProducers numConsumers} {c : Fin numConsumers},
      Run (Benchmark.Step cap numOperations) (.create buffer) events t →
        t.consumer c = .returned → numProducers ∣ numOperations := by
    intro events t c whole gone
    obtain ⟨f, shared⟩ := run_shared positive whole
    exact ⟨_, (shared.complete (shared.left c gone)).1.symm⟩
  refine ⟨⟨?_, ?_⟩, fun uneven c gone => uneven (even_of run gone)⟩
  · rintro ⟨more, t, rest, finished⟩
    exact even_of (run_append run rest) (finished.consumers ⟨0, some_consumer⟩)
  · intro even
    have going : ∃ f, Going cap numOperations f s :=
      run_invariant (fun s => ∃ f, Going cap numOperations f s) (fun step => step_going step) run
        ⟨_, create_shared positive buffer, create_waits buffer⟩
    refine run_finishes (Benchmark.measure cap numOperations) Benchmark.Finished
      (fun s => ∃ f, Going cap numOperations f s) (fun step => step_going step) ?_ going
    rintro u ⟨f, going⟩ unfinished
    exact unfinished_advances room some_consumer even going unfinished

end Progress

theorem benchmark_finishes_iff_uneven : ∃ s : Benchmark 2 1,
    Run (Benchmark.Step 3 3) (.create fun _ => 0)
      [.start, .lookProducer 0, .lookProducer 1, .test 0, .test 1, .push 1, .push 0,
       .addProduced 0, .addProduced 1, .test 0, .test 1] s ∧
      ¬ ∃ more t, Run (Benchmark.Step 3 3) s more t ∧ t.Finished := by
  have replayed : ∃ s : Benchmark 2 1, replay (Benchmark.act 3 3) (.create fun _ => 0)
      [.start, .lookProducer 0, .lookProducer 1, .test 0, .test 1, .push 1, .push 0,
       .addProduced 0, .addProduced 1, .test 0, .test 1] = some s := ⟨_, rfl⟩
  obtain ⟨s, done⟩ := replayed
  have run : Run (Benchmark.Step 3 3) _ _ s := run_of_replay id done
  refine ⟨s, run, ?_⟩
  rw [(benchmark_finishes_iff (by decide) (by decide) run).1]
  decide

end Session7.MemoryOrdering
