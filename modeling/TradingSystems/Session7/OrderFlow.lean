import TradingSystems.Session7.Shutdown

/- The orders of a run. Each producer's orders enter the queue in the order of their
   identifiers and without gaps. A producer numbers its orders from a thousand times its
   own number on, so that identifiers are distinct while it makes at most a thousand. -/
namespace Session7
open Runs Exclusive
variable {producers consumers : Nat}

/-- The number of orders that the producer has pushed. -/
def ProducerPc.sent (numOrders : Nat) : ProducerPc → Nat
  | .waiting => 0
  | .ready i | .pushing i _ => i
  | .returned => numOrders

def Order.producedBy (p : Fin producers) (order : Order) : Bool := order.orderId / 1000 = p + 1

/-- The identifiers of the first `k` orders of a producer. -/
def identifiers (p : Fin producers) (k : Nat) : List Int :=
  (List.range k).map fun i : Nat => (p + 1) * 1000 + (i : Int)

/-- Every order is made by a producer. -/
structure Made (numOrders : Fin producers → Nat) (s : Program producers consumers) : Prop where
  pushing : ∀ p i order, s.producer p = .pushing i order →
    i < numOrders p ∧ ∃ now, order = makeOrder (p + 1) i now
  pushed : ∀ order ∈ s.pushed, ∃ p i now, i < numOrders p ∧ order = makeOrder (p + 1) i now

structure Numbered (numOrders : Fin producers → Nat) (s : Program producers consumers) : Prop where
  bounded : ∀ p, (s.producer p).sent (numOrders p) ≤ numOrders p
  inOrder : ∀ p, (s.pushed.filter fun order => order.producedBy p).map Order.orderId =
    identifiers p ((s.producer p).sent (numOrders p))
  suffix : s.orderQueue <:+ s.pushed
  distinct : (s.pushed.map Order.orderId).Nodup

section Identifiers
variable {p q : Fin producers} {i : Nat}

theorem made_by_iff (few : i < 1000) (now : Nat) :
    (makeOrder (p + 1) i now).producedBy q = true ↔ p = q := by
  rw [Order.producedBy, decide_eq_true_iff, Fin.ext_iff]
  change (((p : Int) + 1) * 1000 + i) / 1000 = (q : Int) + 1 ↔ _
  omega

theorem identifiers_succ :
    identifiers p (i + 1) = identifiers p i ++ [(p + 1) * 1000 + (i : Int)] := by
  simp [identifiers, List.range_succ]

theorem next_identifier_fresh : (p + 1) * 1000 + (i : Int) ∉ identifiers p i := by
  simp only [identifiers, List.mem_map, List.mem_range, not_exists, not_and]
  intro j earlier same
  omega

end Identifiers

section Steps
variable {numOrders : Fin producers → Nat} {s t : Program producers consumers}
  {e : Event producers consumers}

theorem create_made : Made numOrders (Program.create : Program producers consumers) where
  pushing := fun _ _ _ here => by cases here
  pushed := fun _ member => by cases member

theorem Made.moved (made : Made numOrders s) {p : Fin producers} {pc : ProducerPc}
    (pushing : ∀ i order, pc = .pushing i order →
      i < numOrders p ∧ ∃ now, order = makeOrder (p + 1) i now) :
    Made numOrders (s.setProducer p pc) := by
  refine ⟨?_, made.pushed⟩
  intro q i order here
  by_cases own : q = p
  · subst own
    exact pushing i order (by simpa [Program.setProducer] using here)
  · exact made.pushing q i order (by simpa [Program.setProducer, own] using here)

theorem step_made (step : s.Step numOrders e t) (made : Made numOrders s) : Made numOrders t := by
  rcases Program.step_kinds step with main | producer | consumer
  · cases main <;> exact ⟨made.pushing, made.pushed⟩
  · cases producer with
    | startProducer here _ => exact made.moved fun _ _ other => by cases other
    | @make p i now here more =>
      refine made.moved ?_
      intro j order same
      cases same
      exact ⟨more, now, rfl⟩
    | @push p i order here room =>
      obtain ⟨more, now, same⟩ := made.pushing p i order here
      have moved : Made numOrders (s.setProducer p (.ready (i + 1))) :=
        made.moved fun _ _ other => by cases other
      exact ⟨moved.pushing, all_snoc made.pushed ⟨p, i, now, more, same⟩⟩
    | pushFull here full => exact made
    | finish here done => exact made.moved fun _ _ other => by cases other
  · cases consumer <;> exact ⟨made.pushing, made.pushed⟩

theorem create_numbered : Numbered numOrders (Program.create : Program producers consumers) where
  bounded := fun _ => Nat.zero_le _
  inOrder := fun _ => rfl
  suffix := List.suffix_rfl
  distinct := List.nodup_nil

theorem Numbered.served (numbered : Numbered numOrders s) (producer : t.producer = s.producer)
    (pushed : t.pushed = s.pushed) (queue : t.orderQueue <:+ s.orderQueue) :
    Numbered numOrders t := by
  refine ⟨?_, ?_, ?_, ?_⟩
  · rw [producer]
    exact numbered.bounded
  · rw [producer, pushed]
    exact numbered.inOrder
  · rw [pushed]
    exact queue.trans numbered.suffix
  · rw [pushed]
    exact numbered.distinct

theorem Numbered.moved (numbered : Numbered numOrders s) {p : Fin producers} {pc : ProducerPc}
    (same : pc.sent (numOrders p) = (s.producer p).sent (numOrders p)) :
    Numbered numOrders (s.setProducer p pc) := by
  have counts : ∀ q, ((s.setProducer p pc).producer q).sent (numOrders q) =
      (s.producer q).sent (numOrders q) := by
    intro q
    by_cases own : q = p
    · subst own
      simpa [Program.setProducer] using same
    · simp [Program.setProducer, own]
  refine ⟨?_, ?_, numbered.suffix, numbered.distinct⟩
  · intro q
    rw [counts]
    exact numbered.bounded q
  · intro q
    rw [counts]
    exact numbered.inOrder q

theorem Numbered.fresh (numbered : Numbered numOrders s) {p : Fin producers} {i now : Nat}
    (sent : (s.producer p).sent (numOrders p) = i) (small : i < 1000) :
    (makeOrder (p + 1) i now).orderId ∉ s.pushed.map Order.orderId := by
  intro used
  obtain ⟨earlier, member, named⟩ := List.mem_map.mp used
  have mine := (made_by_iff small now).mpr (rfl : p = p)
  have own : earlier.producedBy p = true := by
    unfold Order.producedBy at *
    rwa [named]
  have listed : earlier.orderId ∈ identifiers p i := by
    rw [← sent, ← numbered.inOrder p]
    exact List.mem_map_of_mem (List.mem_filter.mpr ⟨member, own⟩)
  rw [named] at listed
  exact next_identifier_fresh listed

theorem Numbered.pushed (numbered : Numbered numOrders s) {p : Fin producers} {i now : Nat}
    (here : s.producer p = .pushing i (makeOrder (p + 1) i now)) (more : i < numOrders p)
    (small : i < 1000) :
    Numbered numOrders { s.setProducer p (.ready (i + 1)) with
      orderQueue := s.orderQueue ++ [makeOrder (p + 1) i now],
      pushed := s.pushed ++ [makeOrder (p + 1) i now] } := by
  have sent : (s.producer p).sent (numOrders p) = i := by rw [here]; rfl
  refine ⟨?_, ?_, ?_, ?_⟩
  · intro q
    by_cases own : q = p
    · subst own
      simpa [Program.setProducer, ProducerPc.sent] using Nat.succ_le_of_lt more
    · simpa [Program.setProducer, own] using numbered.bounded q
  · intro q
    rw [List.filter_append, List.map_append, numbered.inOrder q]
    by_cases own : p = q
    · subst own
      have mine := (made_by_iff small now).mpr (rfl : p = p)
      rw [List.filter_cons_of_pos mine, List.filter_nil, sent]
      simp only [Program.setProducer, Function.update_self, ProducerPc.sent, identifiers_succ]
      rfl
    · have foreign := mt (made_by_iff small now).mp own
      rw [List.filter_cons_of_neg foreign, List.filter_nil, List.map_nil, List.append_nil]
      simp [Program.setProducer, Ne.symm own]
  · obtain ⟨gone, split⟩ := numbered.suffix
    exact ⟨gone, by rw [← List.append_assoc, split]⟩
  · rw [List.map_append, List.nodup_append]
    refine ⟨numbered.distinct, List.nodup_singleton _, ?_⟩
    intro id old new last same
    rw [List.map_cons, List.map_nil, List.mem_singleton] at last
    rw [same, last] at old
    exact numbered.fresh sent small old

theorem producer_numbered (few : ∀ p, numOrders p ≤ 1000) (made : Made numOrders s)
    (step : Program.ProducerStep numOrders s e t) (numbered : Numbered numOrders s) :
    Numbered numOrders t := by
  cases step with
  | startProducer here _ => exact numbered.moved (by rw [here]; rfl)
  | make here more => exact numbered.moved (by rw [here]; rfl)
  | @push p i order here room =>
    obtain ⟨more, now, rfl⟩ := made.pushing p i order here
    exact numbered.pushed here more (more.trans_le (few p))
  | pushFull here full => exact numbered
  | @finish p i here done =>
    have bounded := numbered.bounded p
    rw [here] at bounded
    refine numbered.moved ?_
    rw [here]
    exact Nat.le_antisymm (not_lt.mp done) bounded

theorem step_numbered (few : ∀ p, numOrders p ≤ 1000) (step : s.Step numOrders e t)
    (made : Made numOrders s) (numbered : Numbered numOrders s) : Numbered numOrders t := by
  rcases Program.step_kinds step with main | producer | consumer
  · cases main <;> exact numbered.served rfl rfl List.suffix_rfl
  · exact producer_numbered few made producer numbered
  · cases consumer with
    | @pop c order rest here queue =>
      exact numbered.served rfl rfl ⟨[order], by rw [queue]; rfl⟩
    | _ => exact numbered.served rfl rfl List.suffix_rfl

end Steps

theorem made_sent (q : Int) (i now : Nat) : (makeOrder q i now).sent = makeOrder q i now := rfl

section Flow
variable {numOrders : Fin producers → Nat} {s : Program producers consumers}

theorem Balanced.identifiers (balanced : Balanced s)
    (distinct : (s.pushed.map Order.orderId).Nodup) :
    (s.completedOrders.map Order.orderId ++ s.orderQueue.map Order.orderId).Nodup := by
  have names : ∀ orders : List Order,
      Multiset.map Order.orderId (orders.map Order.sent : Multiset Order) =
        (orders.map Order.orderId : Multiset Int) := by
    intro orders
    rw [Multiset.map_coe, List.map_map]
    rfl
  have total := congrArg (Multiset.map Order.orderId) balanced
  rw [Multiset.map_add, Multiset.map_add, names, names, names] at total
  rw [← Multiset.coe_nodup, ← Multiset.coe_add]
  refine Multiset.nodup_of_le ?_ (Multiset.coe_nodup.mpr distinct)
  rw [total, add_right_comm, add_comm]
  exact Multiset.le_add_right _ _

theorem completed_made {events : List (Event producers consumers)}
    (run : Run (Program.Step numOrders) .create events s) :
    ∀ order ∈ s.completedOrders, ∃ p i now, i < numOrders p ∧
      order.sent = makeOrder (p + 1) i now := by
  have made : Made numOrders s :=
    run_invariant (Made numOrders) (fun step => step_made step) run create_made
  intro order completed
  have sent : order.sent ∈ (s.pushed.map Order.sent : Multiset Order) := by
    rw [(run_draining run).balanced]
    exact Multiset.mem_add.mpr (Or.inr (Multiset.mem_coe.mpr (List.mem_map_of_mem completed)))
  obtain ⟨pushed, member, same⟩ := List.mem_map.mp (Multiset.mem_coe.mp sent)
  obtain ⟨p, i, now, more, made⟩ := made.pushed pushed member
  exact ⟨p, i, now, more, by rw [← same, made, made_sent]⟩

/-- In every interleaving each producer's orders enter the queue one after the other by
    identifier, the queue holds the newest orders pushed, no identifier is completed twice
    or completed and still queued, and only orders of a producer are completed. -/
theorem orders_flow (few : ∀ p, numOrders p ≤ 1000) {events : List (Event producers consumers)}
    (run : Run (Program.Step numOrders) .create events s) :
    (∀ p, ∃ k ≤ numOrders p,
      (s.pushed.filter fun order => order.producedBy p).map Order.orderId = identifiers p k) ∧
    s.orderQueue <:+ s.pushed ∧
    (s.completedOrders.map Order.orderId ++ s.orderQueue.map Order.orderId).Nodup ∧
    ∀ order ∈ s.completedOrders, ∃ p i now, i < numOrders p ∧
      order.sent = makeOrder (p + 1) i now := by
  have kept : Made numOrders s ∧ Numbered numOrders s := by
    refine run_invariant (fun s => Made numOrders s ∧ Numbered numOrders s) ?_ run
      ⟨create_made, create_numbered⟩
    rintro s e t step ⟨made, numbered⟩
    exact ⟨step_made step made, step_numbered few step made numbered⟩
  obtain ⟨_, numbered⟩ := kept
  exact ⟨fun p => ⟨_, numbered.bounded p, numbered.inOrder p⟩, numbered.suffix,
    (run_draining run).balanced.identifiers numbered.distinct, completed_made run⟩

end Flow

theorem orders_flow_two : ∃ s : Program 2 1,
    Run (Program.Step fun _ => 2) .create
      [.countDown, .startProducer 0, .startProducer 1, .make 1 0, .make 0 0, .push 1, .push 0,
       .make 0 1, .push 0, .startConsumer 0, .pop 0, .stamp 0 2, .acquire 0, .updateBook 0,
       .record 0] s ∧
      s.completedOrders.map Order.orderId = [2000] ∧
      s.orderQueue.map Order.orderId = [1000, 1001] ∧
      (s.completedOrders.map Order.orderId ++ s.orderQueue.map Order.orderId).Nodup := by
  have replayed : ∃ s : Program 2 1, replay (Program.act fun _ => 2) .create
      [.countDown, .startProducer 0, .startProducer 1, .make 1 0, .make 0 0, .push 1, .push 0,
       .make 0 1, .push 0, .startConsumer 0, .pop 0, .stamp 0 2, .acquire 0, .updateBook 0,
       .record 0] = some s ∧
      s.completedOrders.map Order.orderId = [2000] ∧
      s.orderQueue.map Order.orderId = [1000, 1001] := ⟨_, rfl, rfl, rfl⟩
  obtain ⟨s, done, completed, queued⟩ := replayed
  have run : Run (Program.Step fun _ => 2) _ _ s := run_of_replay id done
  exact ⟨s, run, completed, queued, (orders_flow (fun _ => by decide) run).2.2.1⟩

-- With one order more the next producer's first identifier is used twice.
example : (makeOrder 1 1000 0).orderId = (makeOrder 2 0 0).orderId := rfl

end Session7
