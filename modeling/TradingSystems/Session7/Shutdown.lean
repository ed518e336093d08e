import TradingSystems.Session7.OrderProcessing
import TradingSystems.Library.Before
import TradingSystems.Library.Exclusive

/- Shutdown. A consumer that finds the queue empty looks at the flag only later, and
   pushes and the flag may come in between. Orders are lost exactly when no consumer
   finds the queue empty after the last push. -/
namespace Session7
open Runs Before Exclusive
variable {producers consumers : Nat}

def ConsumerPc.hand : ConsumerPc → Multiset Order
  | .popped order | .stamped order | .acquired order | .booked order => {order.sent}
  | _ => 0

def ConsumerPc.leaving : ConsumerPc → Bool
  | .failed | .exited => true
  | _ => false

def Event.Pushes : Event producers consumers → Prop
  | .push _ => True
  | _ => False

def Event.FindsEmpty : Event producers consumers → Prop
  | .popEmpty _ => True
  | _ => False

/-- What a step does to the queue, to the consumers' hands and to the records. -/
inductive Effect (s t : Program producers consumers) : Event producers consumers → Prop where
  | pushed (p : Fin producers) (order : Order) (pushed : t.pushed = s.pushed ++ [order])
      (queue : t.orderQueue = s.orderQueue ++ [order]) (consumer : t.consumer = s.consumer)
      (completed : t.completedOrders = s.completedOrders) : Effect s t (.push p)
  | popped (c : Fin consumers) (order : Order) (top : s.consumer c = .top)
      (queue : s.orderQueue = order :: t.orderQueue) (pushed : t.pushed = s.pushed)
      (consumer : t.consumer = Function.update s.consumer c (.popped order))
      (completed : t.completedOrders = s.completedOrders) : Effect s t (.pop c)
  | foundEmpty (c : Fin consumers) (top : s.consumer c = .top) (empty : s.orderQueue = [])
      (queue : t.orderQueue = s.orderQueue) (pushed : t.pushed = s.pushed)
      (consumer : t.consumer = Function.update s.consumer c .failed)
      (completed : t.completedOrders = s.completedOrders) : Effect s t (.popEmpty c)
  | recorded (c : Fin consumers) (order : Order) (booked : s.consumer c = .booked order)
      (queue : t.orderQueue = s.orderQueue) (pushed : t.pushed = s.pushed)
      (consumer : t.consumer = Function.update s.consumer c .recorded)
      (completed : t.completedOrders = s.completedOrders ++ [order]) : Effect s t (.record c)
  | other (e : Event producers consumers) (quiet : ¬ e.Pushes) (silent : ¬ e.FindsEmpty)
      (queue : t.orderQueue = s.orderQueue) (pushed : t.pushed = s.pushed)
      (completed : t.completedOrders = s.completedOrders)
      (hands : ∀ c, (t.consumer c).hand = (s.consumer c).hand)
      (leaves : ∀ c, (t.consumer c).leaving → (s.consumer c).leaving) : Effect s t e

section Effects
variable {numOrders : Fin producers → Nat} {s t : Program producers consumers}

theorem moved_effect {c : Fin consumers} {pc pc' : ConsumerPc} {e : Event producers consumers}
    (at_pc : s.consumer c = pc) (consumer : t.consumer = Function.update s.consumer c pc')
    (hand : pc'.hand = pc.hand) (leaving : pc'.leaving → pc.leaving) (quiet : ¬ e.Pushes)
    (silent : ¬ e.FindsEmpty) (queue : t.orderQueue = s.orderQueue) (pushed : t.pushed = s.pushed)
    (completed : t.completedOrders = s.completedOrders) : Effect s t e := by
  refine .other e quiet silent queue pushed completed ?_ ?_
  · intro d
    by_cases same : d = c
    · subst same
      simp [consumer, hand, at_pc]
    · simp [consumer, Function.update_of_ne same]
  · intro d
    by_cases same : d = c
    · subst same
      simpa [consumer, at_pc] using leaving
    · simp [consumer, Function.update_of_ne same]

theorem consumer_effect {e : Event producers consumers} (step : s.actConsumer e = some t) :
    Effect s t e := by
  cases Program.consumer_step step with
  | startConsumer here _ => exact moved_effect here rfl rfl id id id rfl rfl rfl
  | pop here queue => exact .popped _ _ here queue rfl rfl rfl
  | popEmpty here empty => exact .foundEmpty _ here empty rfl rfl rfl rfl
  | loadDone here =>
    refine moved_effect here rfl ?_ (fun _ => rfl) id id rfl rfl rfl
    split <;> rfl
  | stamp here => exact moved_effect here rfl rfl id id id rfl rfl rfl
  | acquire here _ => exact moved_effect here rfl rfl id id id rfl rfl rfl
  | updateBook here => exact moved_effect here rfl rfl id id id rfl rfl rfl
  | record here => exact .recorded _ _ here rfl rfl rfl rfl
  | count here => exact moved_effect here rfl rfl id id id rfl rfl rfl
  | release here => exact moved_effect here rfl rfl id id id rfl rfl rfl

theorem still_effect {e : Event producers consumers} (quiet : ¬ e.Pushes) (silent : ¬ e.FindsEmpty)
    (queue : t.orderQueue = s.orderQueue) (pushed : t.pushed = s.pushed)
    (completed : t.completedOrders = s.completedOrders) (consumer : t.consumer = s.consumer) :
    Effect s t e :=
  .other e quiet silent queue pushed completed (fun c => by rw [consumer])
    (fun c => by rw [consumer]; exact id)

theorem producer_effect {e : Event producers consumers}
    (step : s.actProducer numOrders e = some t) : Effect s t e := by
  cases e with
  | push p =>
    cases at_pc : s.producer p <;> simp only [Program.actProducer, at_pc, reduceCtorEq] at step
    split at step <;> cases step
    exact .pushed p _ rfl rfl rfl rfl
  | startProducer p | make p now | pushFull p | finish p =>
    cases at_pc : s.producer p <;> simp only [Program.actProducer, at_pc, reduceCtorEq] at step
    split at step <;> cases step
    exact still_effect id id rfl rfl rfl rfl
  | _ => cases step

theorem main_effect {e : Event producers consumers} (step : s.actMain e = some t) :
    Effect s t e := by
  cases e <;> simp only [Program.actMain, reduceCtorEq] at step
  all_goals
    split at step <;> cases step
    exact still_effect id id rfl rfl rfl rfl

theorem step_effect {e : Event producers consumers} (step : s.Step numOrders e t) :
    Effect s t e := by
  rcases Program.step_cases step with main | producer | consumer
  · exact main_effect main
  · exact producer_effect producer
  · exact consumer_effect consumer

end Effects

def Balanced (s : Program producers consumers) : Prop :=
  (s.pushed.map Order.sent : Multiset Order) =
    (s.orderQueue.map Order.sent : Multiset Order) + ∑ c, (s.consumer c).hand +
      (s.completedOrders.map Order.sent : Multiset Order)

def FoundEmptyLast (events : List (Event producers consumers)) : Prop :=
  Answered Event.Pushes Event.FindsEmpty events

structure Draining (events : List (Event producers consumers))
    (s : Program producers consumers) : Prop where
  balanced : Balanced s
  drained : FoundEmptyLast events → s.orderQueue = []
  pending : ¬ FoundEmptyLast events → s.orderQueue ≠ [] ∨ ∃ c, (s.consumer c).leaving = false

section Drain
variable {s t : Program producers consumers} {e : Event producers consumers}
  {events : List (Event producers consumers)}

theorem effect_balanced (effect : Effect s t e) (balanced : Balanced s) : Balanced t := by
  unfold Balanced at *
  cases effect with
  | pushed p order pushed queue consumer completed =>
    rw [pushed, queue, consumer, completed, List.map_append, List.map_append,
      ← Multiset.coe_add, ← Multiset.coe_add, balanced]
    ac_rfl
  | popped c order top queue pushed consumer completed =>
    have taken := sum_taken s.consumer c (.popped order) ConsumerPc.hand (by rw [top]; rfl)
    rw [pushed, consumer, completed, balanced, queue, taken, List.map_cons, ← Multiset.cons_coe,
      ← Multiset.singleton_add, ConsumerPc.hand]
    ac_rfl
  | foundEmpty c top empty queue pushed consumer completed =>
    have same := sum_kept s.consumer c .failed ConsumerPc.hand (by rw [top]; rfl) rfl
    rw [pushed, queue, consumer, completed, same, balanced]
  | recorded c order booked queue pushed consumer completed =>
    have given := sum_given s.consumer c .recorded ConsumerPc.hand rfl
    rw [booked] at given
    rw [pushed, queue, consumer, completed, balanced, ← given, List.map_append,
      ← Multiset.coe_add, List.map_cons, List.map_nil, Multiset.coe_singleton, ConsumerPc.hand]
    ac_rfl
  | other _ _ _ queue pushed completed hands =>
    rw [pushed, queue, completed, Finset.sum_congr rfl fun c _ => hands c, balanced]

theorem effect_draining (effect : Effect s t e) (draining : Draining events s) :
    Draining (events ++ [e]) t := by
  have balanced := effect_balanced effect draining.balanced
  cases effect with
  | pushed p order pushed queue consumer completed =>
    refine ⟨balanced, fun found => absurd found (not_answered trivial), fun _ => Or.inl ?_⟩
    simp [queue]
  | popped c order top queue pushed consumer completed =>
    refine ⟨balanced, fun found => ?_, fun _ => Or.inr ⟨c, by simp [consumer, ConsumerPc.leaving]⟩⟩
    have before := draining.drained ((answered_snoc_iff id id).mp found)
    rw [queue] at before
    cases before
  | foundEmpty c top empty queue pushed consumer completed =>
    exact ⟨balanced, fun _ => queue.trans empty,
      fun open_push => absurd (answered_by trivial id) open_push⟩
  | recorded c order booked queue pushed consumer completed =>
    refine ⟨balanced, fun found => ?_, fun _ => Or.inr ⟨c, by simp [consumer, ConsumerPc.leaving]⟩⟩
    exact queue.trans (draining.drained ((answered_snoc_iff id id).mp found))
  | other _ quiet silent queue pushed completed hands leaves =>
    refine ⟨balanced, fun found => ?_, fun lost => ?_⟩
    · exact queue.trans (draining.drained ((answered_snoc_iff quiet silent).mp found))
    · rcases draining.pending (mt (answered_snoc_iff quiet silent).mpr lost) with some | ⟨c, busy⟩
      · exact Or.inl (queue ▸ some)
      · refine Or.inr ⟨c, ?_⟩
        by_contra left
        rw [leaves c (by simpa using left)] at busy
        cases busy

end Drain

theorem run_draining {numOrders : Fin producers → Nat} {s : Program producers consumers}
    {events : List (Event producers consumers)}
    (run : Run (Program.Step numOrders) .create events s) : Draining events s := by
  refine run_history Draining (fun step draining => effect_draining (step_effect step) draining)
    run ⟨?_, fun _ => rfl, fun lost => absurd answered_nil lost⟩
  simp [Balanced, Program.create, ConsumerPc.hand]

/-- When every consumer has gone, all orders were processed and the queue is empty if
    and only if some consumer found it empty after the last push. -/
theorem nothing_lost_iff {numOrders : Fin producers → Nat} {s : Program producers consumers}
    {events : List (Event producers consumers)}
    (run : Run (Program.Step numOrders) .create events s)
    (exited : ∀ c, s.consumer c = .exited) :
    (s.completedOrders.map Order.sent).Perm (s.pushed.map Order.sent) ∧ s.orderQueue = [] ↔
      FoundEmptyLast events := by
  have draining := run_draining run
  constructor
  · rintro ⟨_, empty⟩
    by_contra lost
    rcases draining.pending lost with some | ⟨c, busy⟩
    · exact some empty
    · simp [exited c, ConsumerPc.leaving] at busy
  · intro found
    have empty := draining.drained found
    have balanced := draining.balanced
    simp only [Balanced, empty, exited, ConsumerPc.hand, Finset.sum_const_zero, List.map_nil,
      Multiset.coe_nil, zero_add] at balanced
    exact ⟨(Multiset.coe_eq_coe.mp balanced).symm, empty⟩

/-- The consumer finds the queue empty, the only order is pushed, main sets the flag,
    and the consumer leaves. -/
theorem order_lost : ∃ s : Program 1 1,
    Run (Program.Step fun _ => 1) .create
      [.countDown, .startConsumer 0, .popEmpty 0, .startProducer 0, .make 0 0, .push 0,
       .finish 0, .joinProducers, .setDone, .loadDone 0] s ∧
      (∀ c, s.consumer c = .exited) ∧
      ¬ ((s.completedOrders.map Order.sent).Perm (s.pushed.map Order.sent) ∧
        s.orderQueue = []) := by
  have replayed : ∃ s : Program 1 1, replay (Program.act fun _ => 1) .create
      [.countDown, .startConsumer 0, .popEmpty 0, .startProducer 0, .make 0 0, .push 0,
       .finish 0, .joinProducers, .setDone, .loadDone 0] = some s ∧
      s.consumer 0 = .exited ∧ s.orderQueue = [makeOrder 1 0 0] := ⟨_, rfl, rfl, rfl⟩
  obtain ⟨s, done, exited, queue⟩ := replayed
  refine ⟨s, run_of_replay id done, fun c => ?_, fun kept => ?_⟩
  · rw [Subsingleton.elim c 0, exited]
  · rw [queue] at kept
    cases kept.2

theorem nothing_lost_iff_drained : ∃ s : Program 1 1,
    Run (Program.Step fun _ => 1) .create
      [.countDown, .startConsumer 0, .startProducer 0, .make 0 0, .push 0, .pop 0, .stamp 0 1,
       .acquire 0, .updateBook 0, .record 0, .count 0, .release 0, .finish 0, .joinProducers,
       .setDone, .popEmpty 0, .loadDone 0] s ∧
      (s.completedOrders.map Order.sent).Perm (s.pushed.map Order.sent) ∧ s.orderQueue = [] := by
  have replayed : ∃ s : Program 1 1, replay (Program.act fun _ => 1) .create
      [.countDown, .startConsumer 0, .startProducer 0, .make 0 0, .push 0, .pop 0, .stamp 0 1,
       .acquire 0, .updateBook 0, .record 0, .count 0, .release 0, .finish 0, .joinProducers,
       .setDone, .popEmpty 0, .loadDone 0] = some s ∧ s.consumer 0 = .exited := ⟨_, rfl, rfl⟩
  obtain ⟨s, done, exited⟩ := replayed
  have run : Run (Program.Step fun _ => 1) _ _ s := run_of_replay id done
  refine ⟨s, run, (nothing_lost_iff run fun c => ?_).mpr ?_⟩
  · rw [Subsingleton.elim c 0, exited]
  · simp [FoundEmptyLast, answered_cons_iff, answered_nil, Event.Pushes, Event.FindsEmpty]

end Session7
