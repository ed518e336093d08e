import TradingSystems.Session7.OrderProcessing
import TradingSystems.Library.Exclusive
import Mathlib.Algebra.Group.Prod
import Mathlib.Algebra.BigOperators.Group.List.Basic
import Mathlib.Algebra.Order.Ring.Int

/- The books. A consumer posts each order three times, to the order book, to the
   completed orders and to the counter, in three separate steps. The book is ahead of
   the completed orders, and these are ahead of the counter, by what the consumers
   have in hand. Each is right as far as an int can hold it. -/
namespace Session7
open Runs Exclusive Wrapping
variable {producers consumers : Nat}

def contribution (symbol : String) (order : Order) : Int × Int :=
  if order.symbol = symbol then
    if order.isBuy then (order.quantity, 0) else (0, order.quantity)
  else 0

def volume (orders : List Order) (symbol : String) (isBuy : Bool) : Int :=
  ((orders.filter fun order => order.symbol = symbol ∧ order.isBuy = isBuy).map
    Order.quantity).sum

def ConsumerPc.unrecorded (symbol : String) : ConsumerPc → Int × Int
  | .booked order => contribution symbol order
  | _ => 0

def ConsumerPc.uncounted : ConsumerPc → Nat
  | .recorded => 1
  | _ => 0

def ConsumerPc.processing : ConsumerPc → Bool
  | .waiting | .top | .failed | .exited => false
  | _ => true

theorem idle_unrecorded {pc : ConsumerPc} (symbol : String) (idle : pc.processing = false) :
    pc.unrecorded symbol = 0 := by
  cases pc with
  | booked order => cases idle
  | _ => rfl

theorem idle_uncounted {pc : ConsumerPc} (idle : pc.processing = false) : pc.uncounted = 0 := by
  cases pc with
  | recorded => cases idle
  | _ => rfl

section Volumes
variable {symbol : String} {order : Order}

def entry (volumes : Int × Int) : Int × Int := (wrapped 32 volumes.1, wrapped 32 volumes.2)

theorem book_gains {book : String → Int × Int} {volumes : Int × Int}
    (held : book symbol = entry volumes) :
    bookOrder book order symbol = entry (volumes + contribution symbol order) := by
  unfold bookOrder contribution
  by_cases same : order.symbol = symbol
  · subst same
    cases order.isBuy <;> simp [held, entry, wrapped]
  · simp [same, Function.update_of_ne (Ne.symm same), held]

theorem volumes_gain (orders : List Order) :
    (volume (orders ++ [order]) symbol true, volume (orders ++ [order]) symbol false) =
      (volume orders symbol true, volume orders symbol false) + contribution symbol order := by
  unfold volume contribution
  by_cases same : order.symbol = symbol
  · cases side : order.isBuy <;> ext <;> simp [List.filter_append, same, side]
  · simp [List.filter_append, same]

end Volumes

inductive Posting (s t : Program producers consumers) : Prop where
  | booked (c : Fin consumers) (order : Order) (acquired : s.consumer c = .acquired order)
      (consumer : t.consumer = Function.update s.consumer c (.booked order))
      (book : t.orderBook = bookOrder s.orderBook order)
      (completed : t.completedOrders = s.completedOrders)
      (processed : t.ordersProcessed = s.ordersProcessed)
  | recorded (c : Fin consumers) (order : Order) (booked : s.consumer c = .booked order)
      (consumer : t.consumer = Function.update s.consumer c .recorded)
      (book : t.orderBook = s.orderBook)
      (completed : t.completedOrders = s.completedOrders ++ [order])
      (processed : t.ordersProcessed = s.ordersProcessed)
  | counted (c : Fin consumers) (recorded : s.consumer c = .recorded)
      (consumer : t.consumer = Function.update s.consumer c .counted)
      (book : t.orderBook = s.orderBook)
      (completed : t.completedOrders = s.completedOrders)
      (processed : t.ordersProcessed = wrapped 32 (s.ordersProcessed + 1))
  | other (unrecorded : ∀ c symbol,
        (t.consumer c).unrecorded symbol = (s.consumer c).unrecorded symbol)
      (uncounted : ∀ c, (t.consumer c).uncounted = (s.consumer c).uncounted)
      (book : t.orderBook = s.orderBook)
      (completed : t.completedOrders = s.completedOrders)
      (processed : t.ordersProcessed = s.ordersProcessed)

section Postings
variable {numOrders : Fin producers → Nat} {s t : Program producers consumers}
  {e : Event producers consumers}

theorem moved_posting {c : Fin consumers} {pc pc' : ConsumerPc} (at_pc : s.consumer c = pc)
    (consumer : t.consumer = Function.update s.consumer c pc')
    (unrecorded : ∀ symbol, pc'.unrecorded symbol = pc.unrecorded symbol)
    (uncounted : pc'.uncounted = pc.uncounted) (book : t.orderBook = s.orderBook)
    (completed : t.completedOrders = s.completedOrders)
    (processed : t.ordersProcessed = s.ordersProcessed) : Posting s t := by
  have same_else : ∀ d, d ≠ c → t.consumer d = s.consumer d := by
    intro d differ
    rw [consumer, Function.update_of_ne differ]
  refine .other ?_ ?_ book completed processed
  · intro d symbol
    by_cases same : d = c
    · subst same
      simp [consumer, unrecorded, at_pc]
    · rw [same_else d same]
  · intro d
    by_cases same : d = c
    · subst same
      simp [consumer, uncounted, at_pc]
    · rw [same_else d same]

theorem consumer_posting (step : s.actConsumer e = some t) : Posting s t := by
  cases Program.consumer_step step with
  | startConsumer here _ => exact moved_posting here rfl (fun _ => rfl) rfl rfl rfl rfl
  | pop here _ => exact moved_posting here rfl (fun _ => rfl) rfl rfl rfl rfl
  | popEmpty here _ => exact moved_posting here rfl (fun _ => rfl) rfl rfl rfl rfl
  | loadDone here =>
    refine moved_posting here rfl ?_ ?_ rfl rfl rfl
    · intro symbol
      split <;> rfl
    · split <;> rfl
  | stamp here => exact moved_posting here rfl (fun _ => rfl) rfl rfl rfl rfl
  | acquire here _ => exact moved_posting here rfl (fun _ => rfl) rfl rfl rfl rfl
  | updateBook here => exact .booked _ _ here rfl rfl rfl rfl
  | record here => exact .recorded _ _ here rfl rfl rfl rfl
  | count here => exact .counted _ here rfl rfl rfl rfl
  | release here => exact moved_posting here rfl (fun _ => rfl) rfl rfl rfl rfl

theorem still_posting (consumer : t.consumer = s.consumer) (book : t.orderBook = s.orderBook)
    (completed : t.completedOrders = s.completedOrders)
    (processed : t.ordersProcessed = s.ordersProcessed) : Posting s t :=
  .other (fun c symbol => by rw [consumer]) (fun c => by rw [consumer]) book completed processed

theorem producer_posting (step : s.actProducer numOrders e = some t) : Posting s t := by
  cases e with
  | startProducer p | make p _ | push p | pushFull p | finish p =>
    cases at_pc : s.producer p <;> simp only [Program.actProducer, at_pc, reduceCtorEq] at step
    split at step <;> cases step
    exact still_posting rfl rfl rfl rfl
  | _ => cases step

theorem main_posting (step : s.actMain e = some t) : Posting s t := by
  cases e <;> simp only [Program.actMain, reduceCtorEq] at step
  all_goals
    split at step <;> cases step
    exact still_posting rfl rfl rfl rfl

theorem step_posting (step : s.Step numOrders e t) : Posting s t := by
  rcases Program.step_cases step with main | producer | consumer
  · exact main_posting main
  · exact producer_posting producer
  · exact consumer_posting consumer

end Postings

/-- What is in the book and not among the completed orders, and what is among these and
    not counted, is in the consumers' hands. -/
structure Accounted (s : Program producers consumers) : Prop where
  book : ∀ symbol, s.orderBook symbol = entry
    ((volume s.completedOrders symbol true, volume s.completedOrders symbol false) +
      ∑ c, (s.consumer c).unrecorded symbol)
  counter : s.ordersProcessed =
    wrapped 32 (s.completedOrders.length - (∑ c, (s.consumer c).uncounted : Nat))

theorem posting_accounted {s t : Program producers consumers} (posting : Posting s t)
    (accounted : Accounted s) : Accounted t := by
  cases posting with
  | booked c order acquired consumer book completed processed =>
    have none_yet : ∀ symbol, (s.consumer c).unrecorded symbol = 0 := fun _ => by rw [acquired]; rfl
    have not_there : (s.consumer c).uncounted = 0 := by rw [acquired]; rfl
    constructor
    · intro symbol
      rw [book, book_gains (accounted.book symbol), completed, consumer,
        sum_taken _ _ _ (ConsumerPc.unrecorded symbol) (none_yet symbol), add_assoc]
      rfl
    · rw [completed, processed, consumer, accounted.counter,
        sum_kept _ _ _ ConsumerPc.uncounted not_there rfl]
  | recorded c order booked consumer book completed processed =>
    have not_there : (s.consumer c).uncounted = 0 := by rw [booked]; rfl
    constructor
    · intro symbol
      have given := sum_given s.consumer c .recorded (ConsumerPc.unrecorded symbol) rfl
      rw [booked] at given
      rw [book, accounted.book, completed, consumer, volumes_gain, ← given, ConsumerPc.unrecorded]
      congr 1
      ac_rfl
    · have taken := sum_taken s.consumer c .recorded ConsumerPc.uncounted not_there
      rw [processed, accounted.counter, completed, consumer, taken, List.length_append]
      push_cast
      congr 1
      simp [ConsumerPc.uncounted]
  | counted c recorded consumer book completed processed =>
    have nothing : ∀ symbol, (s.consumer c).unrecorded symbol = 0 := fun _ => by rw [recorded]; rfl
    constructor
    · intro symbol
      rw [book, accounted.book, completed, consumer,
        sum_kept _ _ _ (ConsumerPc.unrecorded symbol) (nothing symbol) rfl]
    · have given := sum_given s.consumer c .counted ConsumerPc.uncounted rfl
      rw [recorded] at given
      change _ + 1 = _ at given
      rw [processed, accounted.counter, completed, consumer, ← given]
      unfold wrapped
      rw [Int.bmod_add_bmod]
      congr 1
      push_cast
      omega
  | other unrecorded uncounted book completed processed =>
    constructor
    · intro symbol
      rw [book, accounted.book, completed, Finset.sum_congr rfl fun c _ => unrecorded c symbol]
    · rw [completed, processed, accounted.counter, Finset.sum_congr rfl fun c _ => uncounted c]

theorem run_accounted {numOrders : Fin producers → Nat} {queued : List Order}
    {s : Program producers consumers} {events : List (Event producers consumers)}
    (run : Run (Program.Step numOrders) { Program.create with orderQueue := queued } events s) :
    Accounted s := by
  refine run_invariant Accounted (fun step => posting_accounted (step_posting step)) run ?_
  constructor
  · intro symbol
    simp [Program.create, volume, ConsumerPc.unrecorded, entry, wrapped]
  · simp [Program.create, ConsumerPc.uncounted, wrapped]

theorem idle_accounted {s : Program producers consumers} (accounted : Accounted s)
    (idle : ∀ c, (s.consumer c).processing = false) :
    (∀ symbol, s.orderBook symbol =
      entry (volume s.completedOrders symbol true, volume s.completedOrders symbol false)) ∧
      s.ordersProcessed = wrapped 32 s.completedOrders.length := by
  have none_unrecorded : ∀ symbol, ∑ c, (s.consumer c).unrecorded symbol = 0 := by
    intro symbol
    exact Finset.sum_eq_zero fun c _ => idle_unrecorded symbol (idle c)
  have none_uncounted : ∑ c, (s.consumer c).uncounted = 0 :=
    Finset.sum_eq_zero fun c _ => idle_uncounted (idle c)
  constructor
  · intro symbol
    rw [accounted.book, none_unrecorded, add_zero]
  · rw [accounted.counter, none_uncounted, Nat.cast_zero, sub_zero]

/-- What an int shows of a number that was added up in it. -/
structure ShownInInt (n shown : Int) : Prop where
  modulo : shown = wrapped 32 n
  whole : -2 ^ 31 ≤ n → n < 2 ^ 31 → shown = n

theorem shown_in_int (n : Int) : ShownInInt n (wrapped 32 n) := ⟨rfl, wrapped_of_range⟩

/-- Where nobody is processing an order, the book shows the volumes of the completed orders,
    and the counter their number, as ints do. -/
theorem books_balance {numOrders : Fin producers → Nat} {queued : List Order}
    {s : Program producers consumers} {events : List (Event producers consumers)}
    (run : Run (Program.Step numOrders) { Program.create with orderQueue := queued } events s)
    (idle : ∀ c, (s.consumer c).processing = false) :
    (∀ symbol, ShownInInt (volume s.completedOrders symbol true) (s.orderBook symbol).1 ∧
      ShownInInt (volume s.completedOrders symbol false) (s.orderBook symbol).2) ∧
      ShownInInt s.completedOrders.length s.ordersProcessed := by
  obtain ⟨book, processed⟩ := idle_accounted (run_accounted run) idle
  constructor
  · intro symbol
    rw [book symbol]
    exact ⟨shown_in_int _, shown_in_int _⟩
  · rw [processed]
    exact shown_in_int _

theorem books_balance_drained : ∃ s : Program 1 1,
    Run (Program.Step fun _ => 1) { Program.create with orderQueue := [] }
      [.countDown, .startConsumer 0, .startProducer 0, .make 0 0, .push 0, .pop 0, .stamp 0 1,
       .acquire 0, .updateBook 0, .record 0, .count 0, .release 0, .finish 0, .joinProducers,
       .setDone, .popEmpty 0, .loadDone 0] s ∧
      volume s.completedOrders "APPL" true = 100 ∧ (s.orderBook "APPL").1 = 100 ∧
      s.ordersProcessed = 1 := by
  have replayed : ∃ s : Program 1 1,
      replay (Program.act fun _ => 1) { Program.create with orderQueue := [] }
        [.countDown, .startConsumer 0, .startProducer 0, .make 0 0, .push 0, .pop 0, .stamp 0 1,
         .acquire 0, .updateBook 0, .record 0, .count 0, .release 0, .finish 0, .joinProducers,
         .setDone, .popEmpty 0, .loadDone 0] = some s ∧ s.consumer 0 = .exited ∧
      volume s.completedOrders "APPL" true = 100 ∧ s.completedOrders.length = 1 :=
    ⟨_, rfl, rfl, rfl, rfl⟩
  obtain ⟨s, done, exited, bought, one⟩ := replayed
  have run : Run (Program.Step fun _ => 1) _ _ s := run_of_replay id done
  obtain ⟨book, counter⟩ := books_balance run fun c => by
    rw [Subsingleton.elim c 0, exited]
    rfl
  have entry := (book "APPL").1.whole
  have number := counter.whole
  rw [bought] at entry
  rw [one] at number
  exact ⟨s, run, bought, entry (by decide) (by decide), number (by decide) (by decide)⟩

section Overflow

/-- The first orders of the first producer, made and popped at one reading of the clock. -/
def firstOrders (k : Nat) : List Order :=
  (List.range k).map fun i => { makeOrder 1 i 0 with dequeueTime := some 0 }

theorem first_orders_succ (k : Nat) : firstOrders (k + 1) =
    firstOrders k ++ [{ makeOrder 1 k 0 with dequeueTime := some 0 }] := by
  simp [firstOrders, List.range_succ]

theorem first_orders_volume (k : Nat) :
    volume (firstOrders (2 * k)) "APPL" true = k * (k + 99) := by
  induction k with
  | zero => rfl
  | succ k ih =>
    have even := congrArg Prod.fst (@volumes_gain "APPL"
      { makeOrder 1 (2 * k) 0 with dequeueTime := some 0 } (firstOrders (2 * k)))
    have odd := congrArg Prod.fst (@volumes_gain "APPL"
      { makeOrder 1 (2 * k + 1) 0 with dequeueTime := some 0 } (firstOrders (2 * k + 1)))
    rw [← first_orders_succ] at even odd
    simp only [Prod.fst_add] at even odd
    rw [show 2 * (k + 1) = 2 * k + 1 + 1 by omega, odd, even, ih]
    simp [contribution, makeOrder]
    ring

structure TakingTurns (k : Nat) (s : Program 1 1) : Prop where
  started : s.startLatch = 0
  producer : s.producer 0 = .ready k
  consumer : s.consumer 0 = .top
  empty : s.orderQueue = []
  free : s.processingSemaphore = 3
  completed : s.completedOrders = firstOrders k

theorem turn {n k : Nat} {s : Program 1 1} (turns : TakingTurns k s) (more : k < n) :
    ∃ t, Run (Program.Step fun _ => n) s [.make 0 0, .push 0, .pop 0, .stamp 0 0, .acquire 0,
      .updateBook 0, .record 0, .count 0, .release 0] t ∧ TakingTurns (k + 1) t := by
  obtain ⟨started, ready, top, empty, free, completed⟩ := turns
  have replayed : ∃ t, replay (Program.act fun _ => n) s [.make 0 0, .push 0, .pop 0, .stamp 0 0,
      .acquire 0, .updateBook 0, .record 0, .count 0, .release 0] = some t ∧
        TakingTurns (k + 1) t := by
    simp only [replay, Program.act, Program.actProducer, Program.actConsumer, Program.setProducer,
      Program.setConsumer, ready, top, empty, free, more, queueCapacity, ↓reduceIte,
      Fin.val_eq_zero, Nat.cast_zero, zero_add, Nat.add_one_sub_one, Nat.ofNat_pos, Nat.reduceAdd,
      OfNat.ofNat_ne_zero, Option.bind_fun_some, Option.bind_some, Option.some.injEq,
      Function.update_self, Function.update_idem, List.length_nil, List.nil_append,
      exists_eq_left']
    constructor <;> simp [started, completed, first_orders_succ]
  obtain ⟨t, done, turns⟩ := replayed
  exact ⟨t, run_of_replay id done, turns⟩

theorem all_turns {n k : Nat} (few : k ≤ n) : ∃ (events : List (Event 1 1)) (s : Program 1 1),
    Run (Program.Step fun _ => n) .create events s ∧ TakingTurns k s := by
  induction k with
  | zero =>
    have replayed : replay (Program.act fun _ => n) (.create : Program 1 1)
        [.countDown, .startConsumer 0, .startProducer 0] = some _ := rfl
    exact ⟨_, _, run_of_replay id replayed, by constructor <;> rfl⟩
  | succ k ih =>
    obtain ⟨events, s, run, turns⟩ := ih (by omega)
    obtain ⟨t, on, turned⟩ := turn turns (by omega : k < n)
    exact ⟨_, t, run_append run on, turned⟩

/-- One producer that is called with 92600 orders buys more than an int can show. -/
theorem books_overflow : ∃ (events : List (Event 1 1)) (s : Program 1 1),
    Run (Program.Step fun _ => 92600) .create events s ∧
      (∀ c, (s.consumer c).processing = false) ∧
      volume s.completedOrders "APPL" true = 2148273700 ∧
      (s.orderBook "APPL").1 ≠ volume s.completedOrders "APPL" true := by
  obtain ⟨events, s, run, turns⟩ := all_turns (le_refl 92600)
  have idle : ∀ c, (s.consumer c).processing = false := by
    intro c
    rw [Subsingleton.elim c 0, turns.consumer]
    rfl
  have bought : volume s.completedOrders "APPL" true = 2148273700 := by
    rw [turns.completed, show 92600 = 2 * 46300 by rfl, first_orders_volume]
    norm_num
  refine ⟨events, s, run, idle, bought, ?_⟩
  have shown := (idle_accounted (run_accounted run) idle).1 "APPL"
  rw [shown, bought]
  change wrapped 32 2148273700 ≠ 2148273700
  decide

end Overflow
end Session7
