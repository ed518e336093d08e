import TradingSystems.Session7.WholeCalls
import TradingSystems.Library.Exclusive
import Mathlib.Algebra.BigOperators.Fin
import Mathlib.Algebra.Order.BigOperators.Group.Finset
import Mathlib.Algebra.Order.Ring.Nat

/- The memory ordering benchmark. The producers share the operations out among them and
   push their items into one queue; a consumer goes on until `consumed` shows that all
   operations have been done. A push or a pop is one step here, whichever of the queues and
   orderings is measured, and so is each access to a counter or to the start flag. -/
namespace Session7.MemoryOrdering
open Runs Fifo Exclusive ConcurrentQueue

inductive ProducerPc where
  | spinning
  | loop (i : Nat)
  | pushing (i item : Nat)
  | adding (i : Nat)
  | returned
  deriving DecidableEq

inductive ConsumerPc where
  | spinning
  | loop
  | popping
  | adding
  | returned
  deriving DecidableEq

inductive MainPc where
  | created
  | joiningProducers
  | joiningConsumers
  | joined
  deriving DecidableEq

structure Benchmark (numProducers numConsumers : Nat) where
  queue : ConcurrentQueue Nat
  startFlag : Bool
  produced : Nat
  consumed : Nat
  main : MainPc
  producer : Fin numProducers → ProducerPc
  consumer : Fin numConsumers → ConsumerPc
  popped : List Nat

inductive Event (numProducers numConsumers : Nat) where
  | start
  | joinProducers
  | joinConsumers
  | lookProducer (p : Fin numProducers)
  | test (p : Fin numProducers)
  | push (p : Fin numProducers)
  | addProduced (p : Fin numProducers)
  | lookConsumer (c : Fin numConsumers)
  | load (c : Fin numConsumers)
  | pop (c : Fin numConsumers)
  | addConsumed (c : Fin numConsumers)

variable {numProducers numConsumers : Nat}

def itemsPerProducer (numOperations numProducers : Nat) : Nat := numOperations / numProducers

namespace Benchmark

def create (buffer : Nat → Nat) : Benchmark numProducers numConsumers where
  queue := .create buffer
  startFlag := false
  produced := 0
  consumed := 0
  main := .created
  producer := fun _ => .spinning
  consumer := fun _ => .spinning
  popped := []

def setProducer (s : Benchmark numProducers numConsumers) (p : Fin numProducers)
    (pc : ProducerPc) : Benchmark numProducers numConsumers :=
  { s with producer := Function.update s.producer p pc }

def setConsumer (s : Benchmark numProducers numConsumers) (c : Fin numConsumers)
    (pc : ConsumerPc) : Benchmark numProducers numConsumers :=
  { s with consumer := Function.update s.consumer c pc }

def actMain (s : Benchmark numProducers numConsumers) :
    Event numProducers numConsumers → Option (Benchmark numProducers numConsumers)
  | .start =>
    if s.main = .created then some { s with startFlag := true, main := .joiningProducers }
    else none
  | .joinProducers =>
    if s.main = .joiningProducers ∧ ∀ p, s.producer p = .returned then
      some { s with main := .joiningConsumers }
    else none
  | .joinConsumers =>
    if s.main = .joiningConsumers ∧ ∀ c, s.consumer c = .returned then
      some { s with main := .joined }
    else none
  | _ => none

/-- The steps of `producer_fn`; a push that fails is tried again. -/
def actProducer (cap numOperations : Nat) (s : Benchmark numProducers numConsumers) :
    Event numProducers numConsumers → Option (Benchmark numProducers numConsumers)
  | .lookProducer p =>
    match s.producer p with
    | .spinning => some (if s.startFlag then s.setProducer p (.loop 0) else s)
    | _ => none
  | .test p =>
    match s.producer p with
    | .loop i =>
      let items := itemsPerProducer numOperations numProducers
      some (s.setProducer p (if i < items then .pushing i (p * items + i) else .returned))
    | _ => none
  | .push p =>
    match s.producer p with
    | .pushing i item =>
      if (s.queue.push cap item).1 then
        some { s.setProducer p (.adding i) with queue := (s.queue.push cap item).2 }
      else some s
    | _ => none
  | .addProduced p =>
    match s.producer p with
    | .adding i => some { s.setProducer p (.loop (i + 1)) with produced := s.produced + 1 }
    | _ => none
  | _ => none

/-- The steps of `consumer_fn`; the item popped goes to no one but the record. -/
def actConsumer (cap numOperations : Nat) (s : Benchmark numProducers numConsumers) :
    Event numProducers numConsumers → Option (Benchmark numProducers numConsumers)
  | .lookConsumer c =>
    match s.consumer c with
    | .spinning => some (if s.startFlag then s.setConsumer c .loop else s)
    | _ => none
  | .load c =>
    match s.consumer c with
    | .loop => some (s.setConsumer c (if s.consumed < numOperations then .popping else .returned))
    | _ => none
  | .pop c =>
    match s.consumer c with
    | .popping =>
      if (s.queue.pop cap 0).1 then
        some { s.setConsumer c .adding with
          queue := (s.queue.pop cap 0).2.2, popped := s.popped ++ [(s.queue.pop cap 0).2.1] }
      else some (s.setConsumer c .loop)
    | _ => none
  | .addConsumed c =>
    match s.consumer c with
    | .adding => some { s.setConsumer c .loop with consumed := s.consumed + 1 }
    | _ => none
  | _ => none

def act (cap numOperations : Nat) (s : Benchmark numProducers numConsumers)
    (e : Event numProducers numConsumers) : Option (Benchmark numProducers numConsumers) :=
  match e with
  | .start | .joinProducers | .joinConsumers => s.actMain e
  | .lookProducer _ | .test _ | .push _ | .addProduced _ => s.actProducer cap numOperations e
  | .lookConsumer _ | .load _ | .pop _ | .addConsumed _ => s.actConsumer cap numOperations e

def Step (cap numOperations : Nat) (s : Benchmark numProducers numConsumers)
    (e : Event numProducers numConsumers) (t : Benchmark numProducers numConsumers) : Prop :=
  s.act cap numOperations e = some t

/-- What each step needs, and what it leaves. -/
inductive Acts (cap numOperations : Nat) (s : Benchmark numProducers numConsumers) :
    Event numProducers numConsumers → Benchmark numProducers numConsumers → Prop where
  | start (here : s.main = .created) :
      Acts cap numOperations s .start { s with startFlag := true, main := .joiningProducers }
  | joinProducers (here : s.main = .joiningProducers)
      (returned : ∀ p, s.producer p = .returned) :
      Acts cap numOperations s .joinProducers { s with main := .joiningConsumers }
  | joinConsumers (here : s.main = .joiningConsumers)
      (returned : ∀ c, s.consumer c = .returned) :
      Acts cap numOperations s .joinConsumers { s with main := .joined }
  | retry (e : Event numProducers numConsumers) : Acts cap numOperations s e s
  | lookProducer {p : Fin numProducers} (here : s.producer p = .spinning) :
      Acts cap numOperations s (.lookProducer p) (s.setProducer p (.loop 0))
  | testMore {p : Fin numProducers} {i : Nat} (here : s.producer p = .loop i)
      (more : i < itemsPerProducer numOperations numProducers) :
      Acts cap numOperations s (.test p) (s.setProducer p
        (.pushing i (p * itemsPerProducer numOperations numProducers + i)))
  | testDone {p : Fin numProducers} {i : Nat} (here : s.producer p = .loop i)
      (done : ¬ i < itemsPerProducer numOperations numProducers) :
      Acts cap numOperations s (.test p) (s.setProducer p .returned)
  | push {p : Fin numProducers} {i item : Nat} (here : s.producer p = .pushing i item)
      (success : (s.queue.push cap item).1 = true) : Acts cap numOperations s (.push p)
        { s.setProducer p (.adding i) with queue := (s.queue.push cap item).2 }
  | addProduced {p : Fin numProducers} {i : Nat} (here : s.producer p = .adding i) :
      Acts cap numOperations s (.addProduced p)
        { s.setProducer p (.loop (i + 1)) with produced := s.produced + 1 }
  | lookConsumer {c : Fin numConsumers} (here : s.consumer c = .spinning) :
      Acts cap numOperations s (.lookConsumer c) (s.setConsumer c .loop)
  | loadMore {c : Fin numConsumers} (here : s.consumer c = .loop)
      (more : s.consumed < numOperations) :
      Acts cap numOperations s (.load c) (s.setConsumer c .popping)
  | loadDone {c : Fin numConsumers} (here : s.consumer c = .loop)
      (done : ¬ s.consumed < numOperations) :
      Acts cap numOperations s (.load c) (s.setConsumer c .returned)
  | pop {c : Fin numConsumers} (here : s.consumer c = .popping)
      (success : (s.queue.pop cap 0).1 = true) : Acts cap numOperations s (.pop c)
        { s.setConsumer c .adding with
          queue := (s.queue.pop cap 0).2.2, popped := s.popped ++ [(s.queue.pop cap 0).2.1] }
  | popEmpty {c : Fin numConsumers} (here : s.consumer c = .popping) :
      Acts cap numOperations s (.pop c) (s.setConsumer c .loop)
  | addConsumed {c : Fin numConsumers} (here : s.consumer c = .adding) :
      Acts cap numOperations s (.addConsumed c)
        { s.setConsumer c .loop with consumed := s.consumed + 1 }

theorem step_acts {cap numOperations : Nat} {s t : Benchmark numProducers numConsumers}
    {e : Event numProducers numConsumers} (step : s.Step cap numOperations e t) :
    Acts cap numOperations s e t := by
  unfold Step at step
  cases e with
  | start =>
    simp only [act, actMain] at step
    split at step <;> cases step
    rename_i here
    exact .start here
  | joinProducers =>
    simp only [act, actMain] at step
    split at step <;> cases step
    rename_i here
    exact .joinProducers here.1 here.2
  | joinConsumers =>
    simp only [act, actMain] at step
    split at step <;> cases step
    rename_i here
    exact .joinConsumers here.1 here.2
  | lookProducer p =>
    cases here : s.producer p <;>
      simp only [act, actProducer, here, reduceCtorEq, Option.some.injEq] at step
    split at step <;> subst step
    · exact .lookProducer here
    · exact .retry _
  | test p =>
    cases here : s.producer p <;>
      simp only [act, actProducer, here, reduceCtorEq, Option.some.injEq] at step
    split at step <;> subst step
    · rename_i more
      exact .testMore here more
    · rename_i done
      exact .testDone here done
  | push p =>
    cases here : s.producer p <;> simp only [act, actProducer, here, reduceCtorEq] at step
    split at step <;> cases step
    · rename_i success
      exact .push here success
    · exact .retry _
  | addProduced p =>
    cases here : s.producer p <;> simp only [act, actProducer, here, reduceCtorEq] at step
    cases step
    exact .addProduced here
  | lookConsumer c =>
    cases here : s.consumer c <;>
      simp only [act, actConsumer, here, reduceCtorEq, Option.some.injEq] at step
    split at step <;> subst step
    · exact .lookConsumer here
    · exact .retry _
  | load c =>
    cases here : s.consumer c <;>
      simp only [act, actConsumer, here, reduceCtorEq, Option.some.injEq] at step
    split at step <;> subst step
    · rename_i more
      exact .loadMore here more
    · rename_i done
      exact .loadDone here done
  | pop c =>
    cases here : s.consumer c <;> simp only [act, actConsumer, here, reduceCtorEq] at step
    split at step <;> cases step
    · rename_i success
      exact .pop here success
    · exact .popEmpty here
  | addConsumed c =>
    cases here : s.consumer c <;> simp only [act, actConsumer, here, reduceCtorEq] at step
    cases step
    exact .addConsumed here

end Benchmark

section Ring
variable {cap : Nat} {q : ConcurrentQueue Nat} {f : Queue Nat cap}

theorem push_iff (shown : Represents q f) (item : Nat) :
    ((q.push cap item).1 = true ↔ f.items.length < cap - 1) ∧
    ((q.push cap item).1 = true → ∃ g : Queue Nat cap,
      Represents (q.push cap item).2 g ∧ g.items = f.items ++ [item]) := by
  obtain ⟨answer, kept⟩ := push_represents shown item
  simp only [ConcurrentQueue.serve, Queue.serve] at answer kept
  by_cases room : f.items.length < cap - 1
  · rw [dif_pos room] at answer kept
    cases same : (q.push cap item).1 with
    | false => rw [same] at answer; cases answer
    | true => exact ⟨by simp [room], fun _ => ⟨_, kept, rfl⟩⟩
  · rw [dif_neg room] at answer
    cases same : (q.push cap item).1 with
    | true => rw [same] at answer; cases answer
    | false => exact ⟨by simp [room], fun other => by cases other⟩

theorem pop_iff (shown : Represents q f) (item : Nat) :
    ((q.pop cap item).1 = true ↔ f.items ≠ []) ∧
    ((q.pop cap item).1 = true → ∃ g : Queue Nat cap,
      Represents (q.pop cap item).2.2 g ∧ f.items = (q.pop cap item).2.1 :: g.items) := by
  obtain ⟨answer, kept⟩ := pop_represents shown item
  obtain ⟨items, short⟩ := f
  simp only [ConcurrentQueue.serve, Queue.serve] at answer kept
  cases items with
  | nil =>
    cases same : (q.pop cap item).1 with
    | true => rw [same] at answer; cases answer
    | false => exact ⟨by simp, fun other => by cases other⟩
  | cons oldest rest =>
    simp only [QueueAnswer.popped.injEq] at answer
    rw [answer.1, answer.2]
    exact ⟨by simp, fun _ => ⟨_, kept, rfl⟩⟩

end Ring

/-- The number of items that the producer has pushed. -/
def ProducerPc.sent (items : Nat) : ProducerPc → Nat
  | .spinning => 0
  | .loop i | .pushing i _ => i
  | .adding i => i + 1
  | .returned => items

def ProducerPc.pending : ProducerPc → Nat
  | .adding _ => 1
  | _ => 0

/-- The item of a producer is the one of its index. -/
def ProducerPc.Inside (items p : Nat) : ProducerPc → Prop
  | .loop i => i ≤ items
  | .pushing i item => i < items ∧ item = p * items + i
  | .adding i => i < items
  | _ => True

def ConsumerPc.pending : ConsumerPc → Nat
  | .adding => 1
  | _ => 0

def ConsumerPc.LeftAt (numOperations consumed : Nat) (pc : ConsumerPc) : Prop :=
  pc = .returned → numOperations ≤ consumed

def share (items p k : Nat) : Multiset Nat := ((List.range k).map fun i => p * items + i : List Nat)

/-- Every item pushed is in the queue or was popped once, and the counters are behind by
    what their threads still have to add. -/
structure Shared (cap numOperations items : Nat) (f : Queue Nat cap)
    (s : Benchmark numProducers numConsumers) : Prop where
  shown : Represents s.queue f
  conserved : ((s.popped ++ f.items : List Nat) : Multiset Nat) =
    ∑ p : Fin numProducers, share items p ((s.producer p).sent items)
  inside : ∀ p, (s.producer p).Inside items p
  produced : s.produced + ∑ p, (s.producer p).pending =
    ∑ p, (s.producer p).sent items
  consumed : s.consumed + ∑ c, (s.consumer c).pending = s.popped.length
  left : ∀ c, (s.consumer c).LeftAt numOperations s.consumed

section Steps
variable {cap numOperations items : Nat} {f : Queue Nat cap}
  {s t : Benchmark numProducers numConsumers} {e : Event numProducers numConsumers}

theorem create_shared (positive : 0 < cap) (buffer : Nat → Nat) :
    Shared cap numOperations items (.create positive)
      (Benchmark.create buffer : Benchmark numProducers numConsumers) where
  shown := ⟨positive, (CircularWindow.slot_zero positive).symm, rfl⟩
  conserved := by simp [Benchmark.create, Queue.create, share, ProducerPc.sent]
  inside := fun _ => trivial
  produced := by simp [Benchmark.create, ProducerPc.pending, ProducerPc.sent]
  consumed := by simp [Benchmark.create, ConsumerPc.pending]
  left := fun _ here => by cases here

theorem Shared.moved (shared : Shared cap numOperations items f s) {p : Fin numProducers}
    {pc : ProducerPc} (sent : pc.sent items =
      (s.producer p).sent items)
    (pending : pc.pending = (s.producer p).pending)
    (inside : pc.Inside items p) :
    Shared cap numOperations items f (s.setProducer p pc) := by
  refine { shared with conserved := ?_, inside := ?_, produced := ?_ }
  · have same := sum_update_each s.producer p pc fun q pc =>
      share items q
        (pc.sent items)
    rw [sent] at same
    exact shared.conserved.trans (add_right_cancel same).symm
  · intro q
    by_cases own : q = p
    · subst own
      simpa [Benchmark.setProducer] using inside
    · simpa [Benchmark.setProducer, own] using shared.inside q
  · have sent_same := sum_same s.producer p pc
      (ProducerPc.sent items) sent
    have pending_same := sum_same s.producer p pc ProducerPc.pending pending
    simp only [Benchmark.setProducer, sent_same, pending_same]
    exact shared.produced

theorem Shared.turned (shared : Shared cap numOperations items f s) {c : Fin numConsumers}
    {pc : ConsumerPc} (pending : pc.pending = (s.consumer c).pending)
    (left : pc.LeftAt numOperations s.consumed) :
    Shared cap numOperations items f (s.setConsumer c pc) := by
  refine { shared with consumed := ?_, left := all_update shared.left left }
  have same := sum_same s.consumer c pc ConsumerPc.pending pending
  simp only [Benchmark.setConsumer, same]
  exact shared.consumed

theorem share_succ (items p k : Nat) :
    share items p (k + 1) = share items p k + {p * items + k} := by
  simp only [share, List.range_succ, List.map_append, List.map_cons, List.map_nil]
  rfl

theorem push_shared (shared : Shared cap numOperations items f s) {p : Fin numProducers}
    {i item : Nat} (here : s.producer p = .pushing i item)
    (success : (s.queue.push cap item).1 = true) :
    ∃ g, Shared cap numOperations items g
      { s.setProducer p (.adding i) with queue := (s.queue.push cap item).2 } := by
  obtain ⟨g, shown, queued⟩ := (push_iff shared.shown item).2 success
  have inside := shared.inside p
  rw [here] at inside
  obtain ⟨more, named⟩ := inside
  refine ⟨g, { shared with shown := shown, conserved := ?_, inside := ?_, produced := ?_ }⟩
  · have change := sum_update_each s.producer p (.adding i) fun q pc =>
      share items q
        (pc.sent items)
    rw [here] at change
    change _ + share items p i = _ + share items p (i + 1) at change
    rw [share_succ, ← shared.conserved, ← named, ← add_assoc, add_right_comm] at change
    have total := add_right_cancel change
    simp only [Benchmark.setProducer]
    rw [total, queued, ← List.append_assoc, ← Multiset.coe_add, Multiset.coe_singleton]
  · intro q
    by_cases own : q = p
    · subst own
      simpa [Benchmark.setProducer, ProducerPc.Inside] using more
    · simpa [Benchmark.setProducer, own] using shared.inside q
  · have sent := sum_update s.producer p (.adding i)
      (ProducerPc.sent items)
    have pending := sum_update s.producer p (.adding i) ProducerPc.pending
    have before := shared.produced
    rw [here] at sent pending
    change _ + i = _ + (i + 1) at sent
    change _ + 0 = _ + 1 at pending
    simp only [Benchmark.setProducer]
    omega

theorem pop_shared (shared : Shared cap numOperations items f s) {c : Fin numConsumers}
    (here : s.consumer c = .popping) (success : (s.queue.pop cap 0).1 = true) :
    ∃ g, Shared cap numOperations items g { s.setConsumer c .adding with
      queue := (s.queue.pop cap 0).2.2, popped := s.popped ++ [(s.queue.pop cap 0).2.1] } := by
  obtain ⟨g, shown, queued⟩ := (pop_iff shared.shown 0).2 success
  refine ⟨g, { shared with shown := shown, conserved := ?_, consumed := ?_, left := ?_ }⟩
  · have all := shared.conserved
    rw [queued] at all
    refine Eq.trans ?_ all
    change ((s.popped ++ [_] ++ g.items : List Nat) : Multiset Nat) = _
    rw [List.append_assoc]
    rfl
  · have taken := sum_taken s.consumer c .adding ConsumerPc.pending (by rw [here]; rfl)
    have before := shared.consumed
    simp only [Benchmark.setConsumer, taken, List.length_append, List.length_singleton]
    change _ + (_ + 1) = _
    omega
  · exact all_update shared.left fun other => by cases other

theorem step_shared (step : s.Step cap numOperations e t)
    (shared : Shared cap numOperations (itemsPerProducer numOperations numProducers) f s) :
    ∃ g, Shared cap numOperations (itemsPerProducer numOperations numProducers) g t := by
  cases Benchmark.step_acts step with
  | start here | joinProducers here _ | joinConsumers here _ =>
    exact ⟨f, { shared with shown := shared.shown }⟩
  | retry => exact ⟨f, shared⟩
  | lookProducer here =>
    exact ⟨f, shared.moved (by rw [here]; rfl) (by rw [here]; rfl) (Nat.zero_le _)⟩
  | testMore here more =>
    exact ⟨f, shared.moved (by rw [here]; rfl) (by rw [here]; rfl) ⟨more, rfl⟩⟩
  | @testDone p i here done =>
    have inside := shared.inside p
    rw [here] at inside
    have all : i = itemsPerProducer numOperations numProducers :=
      Nat.le_antisymm inside (not_lt.mp done)
    exact ⟨f, shared.moved (by rw [here]; exact all.symm) (by rw [here]; rfl) trivial⟩
  | push here success => exact push_shared shared here success
  | @addProduced p i here =>
    have inside := shared.inside p
    rw [here] at inside
    refine ⟨f, { shared with conserved := ?_, inside := ?_, produced := ?_ }⟩
    · have same := sum_update_each s.producer p (.loop (i + 1)) fun q pc =>
        share (itemsPerProducer numOperations numProducers) q
          (pc.sent (itemsPerProducer numOperations numProducers))
      rw [here] at same
      exact shared.conserved.trans (add_right_cancel same).symm
    · intro q
      by_cases own : q = p
      · subst own
        simpa [Benchmark.setProducer, ProducerPc.Inside] using Nat.succ_le_of_lt inside
      · simpa [Benchmark.setProducer, own] using shared.inside q
    · have sent := sum_same s.producer p (.loop (i + 1))
        (ProducerPc.sent (itemsPerProducer numOperations numProducers)) (by rw [here]; rfl)
      have given := sum_given s.producer p (.loop (i + 1)) ProducerPc.pending rfl
      have before := shared.produced
      rw [here] at given
      change _ + 1 = _ at given
      simp only [Benchmark.setProducer]
      omega
  | lookConsumer here =>
    exact ⟨f, shared.turned (by rw [here]; rfl) fun other => by cases other⟩
  | loadMore here more =>
    exact ⟨f, shared.turned (by rw [here]; rfl) fun other => by cases other⟩
  | loadDone here done => exact ⟨f, shared.turned (by rw [here]; rfl) fun _ => not_lt.mp done⟩
  | pop here success => exact pop_shared shared here success
  | popEmpty here => exact ⟨f, shared.turned (by rw [here]; rfl) fun other => by cases other⟩
  | @addConsumed c here =>
    have given := sum_given s.consumer c .loop ConsumerPc.pending rfl
    have before := shared.consumed
    rw [here] at given
    change _ + 1 = _ at given
    refine ⟨f, { shared with consumed := ?_, left := ?_ }⟩
    · simp only [Benchmark.setConsumer]
      omega
    · have later : ∀ d, (s.consumer d).LeftAt numOperations (s.consumed + 1) :=
        fun d gone => (shared.left d gone).trans (Nat.le_succ _)
      exact all_update later fun other => by cases other

end Steps

theorem share_card (items p k : Nat) : (share items p k).card = k := by
  simp [share]

theorem share_mono {items p k m : Nat} (fewer : k ≤ m) : share items p k ≤ share items p m :=
  Multiset.coe_le.mpr ((List.range_sublist.mpr fewer).map _).subperm

theorem shares_cover (items n : Nat) :
    ∑ p : Fin n, share items p items = (List.range (n * items) : Multiset Nat) := by
  induction n with
  | zero => simp
  | succ n ih =>
    rw [Fin.sum_univ_castSucc]
    simp only [Fin.val_castSucc, Fin.val_last, ih]
    rw [Nat.succ_mul, List.range_add, ← Multiset.coe_add]
    rfl

section Results
variable {cap numOperations : Nat} {s : Benchmark numProducers numConsumers}

theorem Shared.sent_le {items : Nat} {f : Queue Nat cap}
    (shared : Shared cap numOperations items f s) (p : Fin numProducers) :
    (s.producer p).sent items ≤ items := by
  have inside := shared.inside p
  cases here : s.producer p with
  | spinning => exact Nat.zero_le _
  | loop i => simpa [here, ProducerPc.Inside, ProducerPc.sent] using inside
  | pushing i item =>
    rw [here] at inside
    exact inside.1.le
  | adding i =>
    rw [here] at inside
    exact Nat.succ_le_of_lt inside
  | returned => exact le_rfl

theorem Shared.count {items : Nat} {f : Queue Nat cap}
    (shared : Shared cap numOperations items f s) :
    s.popped.length + f.items.length = ∑ p, (s.producer p).sent items := by
  have cards := congrArg Multiset.card shared.conserved
  rw [Multiset.coe_card, List.length_append, Multiset.card_sum] at cards
  simpa only [share_card] using cards

theorem Shared.complete {f : Queue Nat cap}
    (shared : Shared cap numOperations (itemsPerProducer numOperations numProducers) f s)
    (all_done : numOperations ≤ s.consumed) :
    numProducers * itemsPerProducer numOperations numProducers = numOperations ∧
      f.items = [] ∧ s.popped.Perm (List.range numOperations) ∧ s.consumed = numOperations ∧
      ∀ p, (s.producer p).sent (itemsPerProducer numOperations numProducers) =
        itemsPerProducer numOperations numProducers := by
  have consumed := shared.consumed
  have count := shared.count
  have most : ∑ p, (s.producer p).sent (itemsPerProducer numOperations numProducers) ≤
      ∑ _p : Fin numProducers, itemsPerProducer numOperations numProducers :=
    Finset.sum_le_sum fun p _ => shared.sent_le p
  have shares : ∑ _p : Fin numProducers, itemsPerProducer numOperations numProducers =
      numProducers * itemsPerProducer numOperations numProducers := by simp
  have bounded : numProducers * itemsPerProducer numOperations numProducers ≤ numOperations :=
    Nat.mul_div_le _ _
  have empty : f.items = [] := List.length_eq_zero_iff.mp (by omega)
  have each : ∀ p, (s.producer p).sent (itemsPerProducer numOperations numProducers) =
      itemsPerProducer numOperations numProducers := by
    have total : ∑ p, (s.producer p).sent (itemsPerProducer numOperations numProducers) =
        ∑ _p : Fin numProducers, itemsPerProducer numOperations numProducers := by omega
    have equal := (Finset.sum_eq_sum_iff_of_le fun p _ => shared.sent_le p).mp total
    exact fun p => equal p (Finset.mem_univ p)
  refine ⟨by omega, empty, ?_, by omega, each⟩
  have conserved := shared.conserved
  simp only [each, empty, List.append_nil, shares_cover] at conserved
  have whole : numProducers * itemsPerProducer numOperations numProducers = numOperations := by
    omega
  rw [whole] at conserved
  exact Multiset.coe_eq_coe.mp conserved

theorem run_shared {buffer : Nat → Nat} {events : List (Event numProducers numConsumers)}
    (positive : 0 < cap)
    (run : Run (Benchmark.Step cap numOperations) (.create buffer) events s) :
    ∃ f, Shared cap numOperations (itemsPerProducer numOperations numProducers) f s := by
  refine run_invariant (fun s => ∃ f, Shared cap numOperations
    (itemsPerProducer numOperations numProducers) f s) ?_ run ⟨_, create_shared positive buffer⟩
  rintro s e t step ⟨f, shared⟩
  exact step_shared step shared

theorem Shared.popped_le {f : Queue Nat cap}
    (shared : Shared cap numOperations (itemsPerProducer numOperations numProducers) f s) :
    (s.popped : Multiset Nat) ≤ (List.range numOperations : Multiset Nat) := by
  calc (s.popped : Multiset Nat)
      ≤ ((s.popped ++ f.items : List Nat) : Multiset Nat) :=
        Multiset.coe_le.mpr (List.sublist_append_left _ _).subperm
    _ = ∑ p : Fin numProducers, share (itemsPerProducer numOperations numProducers) p
          ((s.producer p).sent (itemsPerProducer numOperations numProducers)) := shared.conserved
    _ ≤ ∑ p : Fin numProducers, share (itemsPerProducer numOperations numProducers) p
          (itemsPerProducer numOperations numProducers) :=
        Finset.sum_le_sum fun p _ => share_mono (shared.sent_le p)
    _ = (List.range (numProducers * itemsPerProducer numOperations numProducers) : Multiset Nat) :=
        shares_cover _ _
    _ ≤ (List.range numOperations : Multiset Nat) :=
        Multiset.coe_le.mpr (List.range_sublist.mpr (Nat.mul_div_le _ _)).subperm

/-- In every interleaving, once some consumer has returned, each of the items from zero up
    to the number of operations has been popped exactly once and the queue is empty; at no
    time is an item popped twice or the count of consumed items above the operations. -/
theorem consumed_exactly_once (positive : 0 < cap) {buffer : Nat → Nat}
    {events : List (Event numProducers numConsumers)}
    (run : Run (Benchmark.Step cap numOperations) (.create buffer) events s) :
    s.popped.Nodup ∧ s.consumed ≤ s.popped.length ∧ s.popped.length ≤ numOperations ∧
      ((∃ c, s.consumer c = .returned) →
        s.popped.Perm (List.range numOperations) ∧ s.queue.empty = true ∧
          s.consumed = numOperations) := by
  obtain ⟨f, shared⟩ := run_shared positive run
  have consumed := shared.consumed
  have popped := shared.popped_le
  refine ⟨?_, by omega, ?_, ?_⟩
  · exact Multiset.coe_nodup.mp
      (Multiset.nodup_of_le popped (Multiset.coe_nodup.mpr List.nodup_range))
  · simpa using Multiset.card_le_card popped
  · rintro ⟨c, gone⟩
    obtain ⟨_, empty, perm, all, _⟩ := shared.complete (shared.left c gone)
    refine ⟨perm, ?_, all⟩
    rw [ConcurrentQueue.empty, decide_eq_true_iff]
    exact shared.shown.empty_iff.mpr (by rw [empty]; rfl)

end Results

theorem consumed_exactly_once_two : ∃ s : Benchmark 1 1,
    Run (Benchmark.Step 2 2) (.create fun _ => 0)
      [.start, .lookProducer 0, .test 0, .push 0, .addProduced 0, .test 0, .push 0,
       .lookConsumer 0, .load 0, .pop 0, .push 0, .addConsumed 0, .addProduced 0, .test 0,
       .load 0, .pop 0, .addConsumed 0, .load 0] s ∧ s.popped = [0, 1] ∧
      s.popped.Perm (List.range 2) ∧ s.queue.empty = true ∧ s.consumed = 2 := by
  have replayed : ∃ s : Benchmark 1 1, replay (Benchmark.act 2 2) (.create fun _ => 0)
      [.start, .lookProducer 0, .test 0, .push 0, .addProduced 0, .test 0, .push 0,
       .lookConsumer 0, .load 0, .pop 0, .push 0, .addConsumed 0, .addProduced 0, .test 0,
       .load 0, .pop 0, .addConsumed 0, .load 0] = some s ∧ s.popped = [0, 1] ∧
      s.consumer 0 = .returned := ⟨_, rfl, rfl, rfl⟩
  obtain ⟨s, done, popped, gone⟩ := replayed
  have run : Run (Benchmark.Step 2 2) _ _ s := run_of_replay id done
  exact ⟨s, run, popped, (consumed_exactly_once (by decide) run).2.2.2 ⟨0, gone⟩⟩

end Session7.MemoryOrdering
