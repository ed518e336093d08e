import TradingSystems.Library.Runs
import TradingSystems.Library.Wrapping
import Mathlib.Data.Rat.Defs

/- The order processing program. Producers and consumers wait for the latch, the
   producers push their orders, the consumers process what they pop, and main joins
   the producers before it sets `producersDone`. A push or a pop is one step on a
   bounded FIFO; every locked section, atomic access and semaphore call is one step.
   Times are clock readings, and prices are taken as exact. The numbers of an order are
   within int, what is added up in an int wraps. -/
namespace Session7
open Runs Wrapping

structure Order where
  orderId : Int
  symbol : String
  quantity : Int
  price : ℚ
  isBuy : Bool
  enqueueTime : Nat
  dequeueTime : Option Nat

/-- The order as it was pushed. -/
def Order.sent (o : Order) : Order := { o with dequeueTime := none }

def queueCapacity : Nat := 1024

def makeOrder (producerId : Int) (i : Nat) (now : Nat) : Order :=
  let symbol := if i % 2 = 0 then "APPL" else "GOOGL"
  { orderId := producerId * 1000 + i
    symbol
    quantity := 100 + i
    price := if symbol = "APPL" then 146.23 + i * 0.01 else 2800.5 + i * 0.05
    isBuy := i % 2 = 0
    enqueueTime := now
    dequeueTime := none }

inductive ProducerPc where
  | waiting
  | ready (i : Nat)
  | pushing (i : Nat) (order : Order)
  | returned

def ProducerPc.isReturned : ProducerPc → Bool
  | .returned => true
  | _ => false

inductive ConsumerPc where
  | waiting
  | top
  | failed
  | popped (order : Order)
  | stamped (order : Order)
  | acquired (order : Order)
  | booked (order : Order)
  | recorded
  | counted
  | exited

inductive MainPc where
  | launched
  | joining
  | joined
  | signalled
  deriving DecidableEq

structure Program (producers consumers : Nat) where
  main : MainPc
  startLatch : Nat
  producersDone : Bool
  producer : Fin producers → ProducerPc
  consumer : Fin consumers → ConsumerPc
  orderQueue : List Order
  processingSemaphore : Nat
  orderBook : String → Int × Int
  completedOrders : List Order
  ordersProcessed : Int
  pushed : List Order

/-- One step of a thread, with the outcome of a push or a pop. -/
inductive Event (producers consumers : Nat) where
  | countDown
  | joinProducers
  | setDone
  | startProducer (p : Fin producers)
  | make (p : Fin producers) (now : Nat)
  | push (p : Fin producers)
  | pushFull (p : Fin producers)
  | finish (p : Fin producers)
  | startConsumer (c : Fin consumers)
  | pop (c : Fin consumers)
  | popEmpty (c : Fin consumers)
  | loadDone (c : Fin consumers)
  | stamp (c : Fin consumers) (now : Nat)
  | acquire (c : Fin consumers)
  | updateBook (c : Fin consumers)
  | record (c : Fin consumers)
  | count (c : Fin consumers)
  | release (c : Fin consumers)

/-- `orderBook[symbol]` gains the quantity on the side of the order. -/
def bookOrder (book : String → Int × Int) (order : Order) : String → Int × Int :=
  let entry := book order.symbol
  Function.update book order.symbol
    (if order.isBuy then (wrapped 32 (entry.1 + order.quantity), entry.2)
     else (entry.1, wrapped 32 (entry.2 + order.quantity)))

namespace Program
variable {producers consumers : Nat}

def create : Program producers consumers where
  main := .launched
  startLatch := 1
  producersDone := false
  producer := fun _ => .waiting
  consumer := fun _ => .waiting
  orderQueue := []
  processingSemaphore := 3
  orderBook := fun _ => (0, 0)
  completedOrders := []
  ordersProcessed := 0
  pushed := []

def setProducer (s : Program producers consumers) (p : Fin producers) (pc : ProducerPc) :
    Program producers consumers := { s with producer := Function.update s.producer p pc }

def setConsumer (s : Program producers consumers) (c : Fin consumers) (pc : ConsumerPc) :
    Program producers consumers := { s with consumer := Function.update s.consumer c pc }

def actMain (s : Program producers consumers) :
    Event producers consumers → Option (Program producers consumers)
  | .countDown =>
    if s.main = .launched then some { s with main := .joining, startLatch := s.startLatch - 1 }
    else none
  | .joinProducers =>
    if s.main = .joining ∧ ∀ p, (s.producer p).isReturned then some { s with main := .joined }
    else none
  | .setDone =>
    if s.main = .joined then some { s with main := .signalled, producersDone := true } else none
  | _ => none

def actProducer (numOrders : Fin producers → Nat) (s : Program producers consumers) :
    Event producers consumers → Option (Program producers consumers)
  | .startProducer p =>
    match s.producer p with
    | .waiting => if s.startLatch = 0 then some (s.setProducer p (.ready 0)) else none
    | _ => none
  | .make p now =>
    match s.producer p with
    | .ready i =>
      if i < numOrders p then some (s.setProducer p (.pushing i (makeOrder (p + 1) i now)))
      else none
    | _ => none
  | .push p =>
    match s.producer p with
    | .pushing i order =>
      if s.orderQueue.length < queueCapacity - 1 then
        some { s.setProducer p (.ready (i + 1)) with
          orderQueue := s.orderQueue ++ [order], pushed := s.pushed ++ [order] }
      else none
    | _ => none
  | .pushFull p =>
    match s.producer p with
    | .pushing _ _ => if s.orderQueue.length < queueCapacity - 1 then none else some s
    | _ => none
  | .finish p =>
    match s.producer p with
    | .ready i => if i < numOrders p then none else some (s.setProducer p .returned)
    | _ => none
  | _ => none

def actConsumer (s : Program producers consumers) :
    Event producers consumers → Option (Program producers consumers)
  | .startConsumer c =>
    match s.consumer c with
    | .waiting => if s.startLatch = 0 then some (s.setConsumer c .top) else none
    | _ => none
  | .pop c =>
    match s.consumer c, s.orderQueue with
    | .top, order :: rest => some { s.setConsumer c (.popped order) with orderQueue := rest }
    | _, _ => none
  | .popEmpty c =>
    match s.consumer c, s.orderQueue with
    | .top, [] => some (s.setConsumer c .failed)
    | _, _ => none
  | .loadDone c =>
    match s.consumer c with
    | .failed => some (s.setConsumer c (if s.producersDone then .exited else .top))
    | _ => none
  | .stamp c now =>
    match s.consumer c with
    | .popped order => some (s.setConsumer c (.stamped { order with dequeueTime := some now }))
    | _ => none
  | .acquire c =>
    match s.consumer c with
    | .stamped order =>
      if s.processingSemaphore = 0 then none
      else some { s.setConsumer c (.acquired order) with
        processingSemaphore := s.processingSemaphore - 1 }
    | _ => none
  | .updateBook c =>
    match s.consumer c with
    | .acquired order =>
      some { s.setConsumer c (.booked order) with orderBook := bookOrder s.orderBook order }
    | _ => none
  | .record c =>
    match s.consumer c with
    | .booked order =>
      some { s.setConsumer c .recorded with completedOrders := s.completedOrders ++ [order] }
    | _ => none
  | .count c =>
    match s.consumer c with
    | .recorded =>
      some { s.setConsumer c .counted with
        ordersProcessed := wrapped 32 (s.ordersProcessed + 1) }
    | _ => none
  | .release c =>
    match s.consumer c with
    | .counted =>
      some { s.setConsumer c .top with processingSemaphore := s.processingSemaphore + 1 }
    | _ => none
  | _ => none

def act (numOrders : Fin producers → Nat) (s : Program producers consumers)
    (e : Event producers consumers) : Option (Program producers consumers) :=
  match e with
  | .countDown | .joinProducers | .setDone => s.actMain e
  | .startProducer _ | .make _ _ | .push _ | .pushFull _ | .finish _ => s.actProducer numOrders e
  | _ => s.actConsumer e

def Step (numOrders : Fin producers → Nat) (s : Program producers consumers)
    (e : Event producers consumers) (t : Program producers consumers) : Prop :=
  s.act numOrders e = some t

theorem step_cases {numOrders : Fin producers → Nat} {s t : Program producers consumers}
    {e : Event producers consumers} (step : s.Step numOrders e t) :
    s.actMain e = some t ∨ s.actProducer numOrders e = some t ∨ s.actConsumer e = some t := by
  unfold Step at step
  cases e with
  | countDown | joinProducers | setDone => exact Or.inl step
  | startProducer | make | push | pushFull | finish => exact Or.inr (Or.inl step)
  | _ => exact Or.inr (Or.inr step)

/-- What each step of a consumer needs, and what it leaves. -/
inductive ConsumerStep (s : Program producers consumers) :
    Event producers consumers → Program producers consumers → Prop where
  | startConsumer {c : Fin consumers} (here : s.consumer c = .waiting)
      (started : s.startLatch = 0) : ConsumerStep s (.startConsumer c) (s.setConsumer c .top)
  | pop {c : Fin consumers} {order : Order} {rest : List Order} (here : s.consumer c = .top)
      (queue : s.orderQueue = order :: rest) :
      ConsumerStep s (.pop c) { s.setConsumer c (.popped order) with orderQueue := rest }
  | popEmpty {c : Fin consumers} (here : s.consumer c = .top) (empty : s.orderQueue = []) :
      ConsumerStep s (.popEmpty c) (s.setConsumer c .failed)
  | loadDone {c : Fin consumers} (here : s.consumer c = .failed) :
      ConsumerStep s (.loadDone c) (s.setConsumer c (if s.producersDone then .exited else .top))
  | stamp {c : Fin consumers} {order : Order} {now : Nat} (here : s.consumer c = .popped order) :
      ConsumerStep s (.stamp c now)
        (s.setConsumer c (.stamped { order with dequeueTime := some now }))
  | acquire {c : Fin consumers} {order : Order} (here : s.consumer c = .stamped order)
      (free : s.processingSemaphore ≠ 0) :
      ConsumerStep s (.acquire c) { s.setConsumer c (.acquired order) with
        processingSemaphore := s.processingSemaphore - 1 }
  | updateBook {c : Fin consumers} {order : Order} (here : s.consumer c = .acquired order) :
      ConsumerStep s (.updateBook c)
        { s.setConsumer c (.booked order) with orderBook := bookOrder s.orderBook order }
  | record {c : Fin consumers} {order : Order} (here : s.consumer c = .booked order) :
      ConsumerStep s (.record c)
        { s.setConsumer c .recorded with completedOrders := s.completedOrders ++ [order] }
  | count {c : Fin consumers} (here : s.consumer c = .recorded) :
      ConsumerStep s (.count c)
        { s.setConsumer c .counted with ordersProcessed := wrapped 32 (s.ordersProcessed + 1) }
  | release {c : Fin consumers} (here : s.consumer c = .counted) :
      ConsumerStep s (.release c)
        { s.setConsumer c .top with processingSemaphore := s.processingSemaphore + 1 }

theorem consumer_step {s t : Program producers consumers} {e : Event producers consumers}
    (step : s.actConsumer e = some t) : ConsumerStep s e t := by
  cases e with
  | startConsumer c =>
    cases here : s.consumer c <;> simp only [actConsumer, here, reduceCtorEq] at step
    split at step
    · rename_i started
      cases step
      exact .startConsumer here started
    · cases step
  | pop c =>
    cases here : s.consumer c <;> simp only [actConsumer, here, reduceCtorEq] at step
    cases held : s.orderQueue with
    | nil => simp [held] at step
    | cons order rest =>
      simp only [held, Option.some.injEq] at step
      subst step
      exact .pop here held
  | popEmpty c =>
    cases here : s.consumer c <;> simp only [actConsumer, here, reduceCtorEq] at step
    cases held : s.orderQueue with
    | nil =>
      simp only [held, Option.some.injEq] at step
      subst step
      exact .popEmpty here held
    | cons order rest => simp [held] at step
  | loadDone c =>
    cases here : s.consumer c <;> simp only [actConsumer, here, reduceCtorEq] at step
    cases step
    exact .loadDone here
  | stamp c now =>
    cases here : s.consumer c <;> simp only [actConsumer, here, reduceCtorEq] at step
    cases step
    exact .stamp here
  | acquire c =>
    cases here : s.consumer c <;> simp only [actConsumer, here, reduceCtorEq] at step
    split at step
    · cases step
    · rename_i free
      cases step
      exact .acquire here free
  | updateBook c =>
    cases here : s.consumer c <;> simp only [actConsumer, here, reduceCtorEq] at step
    cases step
    exact .updateBook here
  | record c =>
    cases here : s.consumer c <;> simp only [actConsumer, here, reduceCtorEq] at step
    cases step
    exact .record here
  | count c =>
    cases here : s.consumer c <;> simp only [actConsumer, here, reduceCtorEq] at step
    cases step
    exact .count here
  | release c =>
    cases here : s.consumer c <;> simp only [actConsumer, here, reduceCtorEq] at step
    cases step
    exact .release here
  | _ => cases step

inductive ProducerStep (numOrders : Fin producers → Nat) (s : Program producers consumers) :
    Event producers consumers → Program producers consumers → Prop where
  | startProducer {p : Fin producers} (here : s.producer p = .waiting)
      (started : s.startLatch = 0) :
      ProducerStep numOrders s (.startProducer p) (s.setProducer p (.ready 0))
  | make {p : Fin producers} {i now : Nat} (here : s.producer p = .ready i)
      (more : i < numOrders p) : ProducerStep numOrders s (.make p now)
        (s.setProducer p (.pushing i (makeOrder (p + 1) i now)))
  | push {p : Fin producers} {i : Nat} {order : Order} (here : s.producer p = .pushing i order)
      (room : s.orderQueue.length < queueCapacity - 1) : ProducerStep numOrders s (.push p)
        { s.setProducer p (.ready (i + 1)) with
          orderQueue := s.orderQueue ++ [order], pushed := s.pushed ++ [order] }
  | pushFull {p : Fin producers} {i : Nat} {order : Order}
      (here : s.producer p = .pushing i order)
      (full : ¬ s.orderQueue.length < queueCapacity - 1) : ProducerStep numOrders s (.pushFull p) s
  | finish {p : Fin producers} {i : Nat} (here : s.producer p = .ready i)
      (done : ¬ i < numOrders p) :
      ProducerStep numOrders s (.finish p) (s.setProducer p .returned)

inductive MainStep (s : Program producers consumers) :
    Event producers consumers → Program producers consumers → Prop where
  | countDown (here : s.main = .launched) :
      MainStep s .countDown { s with main := .joining, startLatch := s.startLatch - 1 }
  | joinProducers (here : s.main = .joining) (returned : ∀ p, (s.producer p).isReturned) :
      MainStep s .joinProducers { s with main := .joined }
  | setDone (here : s.main = .joined) :
      MainStep s .setDone { s with main := .signalled, producersDone := true }

section Inversion
variable {numOrders : Fin producers → Nat} {s t : Program producers consumers}
  {e : Event producers consumers}

theorem producer_step (step : s.actProducer numOrders e = some t) :
    ProducerStep numOrders s e t := by
  cases e with
  | startProducer p =>
    cases here : s.producer p <;> simp only [actProducer, here, reduceCtorEq] at step
    split at step
    · rename_i started
      cases step
      exact .startProducer here started
    · cases step
  | make p now =>
    cases here : s.producer p <;> simp only [actProducer, here, reduceCtorEq] at step
    split at step
    · rename_i more
      cases step
      exact .make here more
    · cases step
  | push p =>
    cases here : s.producer p <;> simp only [actProducer, here, reduceCtorEq] at step
    split at step
    · rename_i room
      cases step
      exact .push here room
    · cases step
  | pushFull p =>
    cases here : s.producer p <;> simp only [actProducer, here, reduceCtorEq] at step
    split at step
    · cases step
    · rename_i full
      cases step
      exact .pushFull here full
  | finish p =>
    cases here : s.producer p <;> simp only [actProducer, here, reduceCtorEq] at step
    split at step
    · cases step
    · rename_i done
      cases step
      exact .finish here done
  | _ => cases step

theorem main_step (step : s.actMain e = some t) : MainStep s e t := by
  cases e with
  | countDown =>
    simp only [actMain] at step
    split at step
    · rename_i here
      cases step
      exact .countDown here
    · cases step
  | joinProducers =>
    simp only [actMain] at step
    split at step
    · rename_i here
      cases step
      exact .joinProducers here.1 here.2
    · cases step
  | setDone =>
    simp only [actMain] at step
    split at step
    · rename_i here
      cases step
      exact .setDone here
    · cases step
  | _ => cases step

theorem step_kinds (step : s.Step numOrders e t) :
    MainStep s e t ∨ ProducerStep numOrders s e t ∨ ConsumerStep s e t := by
  rcases step_cases step with main | producer | consumer
  · exact Or.inl (main_step main)
  · exact Or.inr (Or.inl (producer_step producer))
  · exact Or.inr (Or.inr (consumer_step consumer))

end Inversion
end Program
end Session7
