import TradingSystems.Library.Clock
import TradingSystems.Library.Summary
import TradingSystems.Session7.BooksBalance
import TradingSystems.Session7.OrderFlow

/- The analytics over the completed orders of a run. An order is stamped when it is made
   and again when it is popped, so with a clock that never goes back no latency is
   negative; and a producer's symbols tell its sides. The square root of the variance,
   the standard deviation that is printed, is not taken here. -/
namespace Session7
open Runs Clock Summary
variable {producers consumers : Nat}

def microseconds (duration : Int) : Int := duration.tdiv 1000

def Order.latency (order : Order) : ℚ :=
  microseconds ((order.dequeueTime.getD 0 : Nat) - (order.enqueueTime : Int))

structure Analytics where
  total : Nat
  average : ℚ
  median : ℚ
  min : ℚ
  max : ℚ
  variance : ℚ
  symbolCounts : String → Nat
  buyCount : Nat
  buyPercentage : ℚ
  sellCount : Nat
  sellPercentage : ℚ

def countSymbol (symbolCounts : String → Nat) (order : Order) : String → Nat :=
  Function.update symbolCounts order.symbol (symbolCounts order.symbol + 1)

/-- What `runAnalytics` prints; `none` when there are no orders to analyse. -/
def runAnalytics (completedOrders : List Order) : Option Analytics :=
  if completedOrders.isEmpty then none
  else do
    let latencies := completedOrders.map Order.latency
    let min ← latencies.min?
    let max ← latencies.max?
    let median ← nthElement latencies (latencies.length / 2)
    let buyCount := completedOrders.countP Order.isBuy
    let buyPercentage : ℚ := 100 * buyCount / completedOrders.length
    some {
      total := completedOrders.length
      average := mean latencies
      median, min, max
      variance := variance latencies
      symbolCounts := completedOrders.foldl countSymbol fun _ => 0
      buyCount, buyPercentage
      sellCount := completedOrders.length - buyCount
      sellPercentage := 100 - buyPercentage }

def Event.reading : Event producers consumers → Option Nat
  | .make _ now | .stamp _ now => some now
  | _ => none

def Order.Timed (order : Order) : Prop :=
  ∃ dequeued, order.dequeueTime = some dequeued ∧ order.enqueueTime ≤ dequeued

def ProducerPc.Stamped (past : List Nat) : ProducerPc → Prop
  | .pushing _ order => order.enqueueTime ∈ past
  | _ => True

def ConsumerPc.Stamped (past : List Nat) : ConsumerPc → Prop
  | .popped order => order.enqueueTime ∈ past
  | .stamped order | .acquired order | .booked order => order.Timed
  | _ => True

/-- Orders bear readings of the clock that were taken. -/
structure Stamped (past : List Nat) (s : Program producers consumers) : Prop where
  producer : ∀ p, (s.producer p).Stamped past
  queue : ∀ order ∈ s.orderQueue, order.enqueueTime ∈ past
  consumer : ∀ c, (s.consumer c).Stamped past
  completed : ∀ order ∈ s.completedOrders, order.Timed

section Stamps
variable {numOrders : Fin producers → Nat} {s t : Program producers consumers}
  {e : Event producers consumers} {past : List Nat} {now : Nat}

theorem ProducerPc.Stamped.later {pc : ProducerPc} (held : pc.Stamped past) :
    pc.Stamped (past ++ [now]) := by
  cases pc with
  | pushing i order => exact List.mem_append_left _ held
  | _ => trivial

theorem ConsumerPc.Stamped.later {pc : ConsumerPc} (held : pc.Stamped past) :
    pc.Stamped (past ++ [now]) := by
  cases pc with
  | popped order => exact List.mem_append_left _ held
  | stamped order | acquired order | booked order => exact held
  | _ => trivial

theorem Stamped.later (stamped : Stamped past s) : Stamped (past ++ [now]) s where
  producer := fun p => (stamped.producer p).later
  queue := fun order member => List.mem_append_left _ (stamped.queue order member)
  consumer := fun c => (stamped.consumer c).later
  completed := stamped.completed

theorem Stamped.moved {p : Fin producers} {pc : ProducerPc} (stamped : Stamped past s)
    (held : pc.Stamped past) : Stamped past (s.setProducer p pc) :=
  { stamped with producer := Exclusive.all_update stamped.producer held }

theorem Stamped.turned {c : Fin consumers} {pc : ConsumerPc} (stamped : Stamped past s)
    (held : pc.Stamped past) : Stamped past (s.setConsumer c pc) :=
  { stamped with consumer := Exclusive.all_update stamped.consumer held }

theorem Stamped.order {c : Fin consumers} {pc : ConsumerPc} (stamped : Stamped past s)
    (here : s.consumer c = pc) : pc.Stamped past := here ▸ stamped.consumer c

theorem quiet_stamped (step : s.Step numOrders e t) (silent : e.reading = none)
    (stamped : Stamped past s) : Stamped past t := by
  rcases Program.step_kinds step with main | producer | consumer
  · cases main <;> exact ⟨stamped.producer, stamped.queue, stamped.consumer, stamped.completed⟩
  · cases producer with
    | startProducer here _ | finish here _ => exact stamped.moved trivial
    | make here _ => cases silent
    | @push p i order here room =>
      have held : (ProducerPc.pushing i order).Stamped past := here ▸ stamped.producer p
      have moved : Stamped past (s.setProducer p (.ready (i + 1))) := stamped.moved trivial
      exact ⟨moved.producer, all_snoc stamped.queue held, stamped.consumer, stamped.completed⟩
    | pushFull here full => exact stamped
  · cases consumer with
    | startConsumer here _ | popEmpty here _ => exact stamped.turned trivial
    | @pop c order rest here queue =>
      have ahead := stamped.queue
      rw [queue] at ahead
      have turned : Stamped past (s.setConsumer c (.popped order)) :=
        stamped.turned (ahead order List.mem_cons_self)
      exact ⟨stamped.producer, fun o member => ahead o (List.mem_cons_of_mem _ member),
        turned.consumer, stamped.completed⟩
    | loadDone here =>
      refine stamped.turned ?_
      cases s.producersDone <;> trivial
    | stamp here => cases silent
    | @acquire c order here _ =>
      have timed : order.Timed := stamped.order here
      have turned : Stamped past (s.setConsumer c (.acquired order)) := stamped.turned timed
      exact ⟨stamped.producer, stamped.queue, turned.consumer, stamped.completed⟩
    | @updateBook c order here =>
      have timed : order.Timed := stamped.order here
      have turned : Stamped past (s.setConsumer c (.booked order)) := stamped.turned timed
      exact ⟨stamped.producer, stamped.queue, turned.consumer, stamped.completed⟩
    | @record c order here =>
      have turned : Stamped past (s.setConsumer c .recorded) := stamped.turned trivial
      exact ⟨stamped.producer, stamped.queue, turned.consumer,
        all_snoc stamped.completed (stamped.order here)⟩
    | @count c here =>
      have turned : Stamped past (s.setConsumer c .counted) := stamped.turned trivial
      exact ⟨stamped.producer, stamped.queue, turned.consumer, stamped.completed⟩
    | @release c here =>
      have turned : Stamped past (s.setConsumer c .top) := stamped.turned trivial
      exact ⟨stamped.producer, stamped.queue, turned.consumer, stamped.completed⟩

theorem read_stamped (step : s.Step numOrders e t) (read : e.reading = some now)
    (latest : ∀ earlier ∈ past, earlier ≤ now) (stamped : Stamped past s) :
    Stamped (past ++ [now]) t := by
  rcases Program.step_kinds step with main | producer | consumer
  · cases main <;> cases read
  · cases producer with
    | make here more =>
      cases read
      exact stamped.later.moved (List.mem_append_right past List.mem_cons_self)
    | _ => cases read
  · cases consumer with
    | @stamp c order _ here =>
      cases read
      exact stamped.later.turned ⟨now, rfl, latest _ (stamped.order here)⟩
    | _ => cases read

theorem create_stamped : Stamped [] (Program.create : Program producers consumers) where
  producer := fun _ => trivial
  queue := fun _ member => by cases member
  consumer := fun _ => trivial
  completed := fun _ member => by cases member

theorem completed_timed {events : List (Event producers consumers)}
    (run : Run (Program.Step numOrders) .create events s)
    (forward : Forward Event.reading events) : ∀ order ∈ s.completedOrders, order.Timed :=
  (run_forward Event.reading Stamped quiet_stamped read_stamped run forward
    create_stamped).completed

end Stamps

section Figures
variable {numOrders : Fin producers → Nat} {s : Program producers consumers}
  {orders : List Order}

theorem timed_latency {order : Order} (timed : order.Timed) : 0 ≤ order.latency := by
  obtain ⟨dequeued, stamped, later⟩ := timed
  have whole : 0 ≤ ((dequeued : Int) - order.enqueueTime).tdiv 1000 :=
    Int.tdiv_nonneg (by omega) (by decide)
  unfold Order.latency microseconds
  rw [stamped, Option.getD_some]
  exact Int.cast_nonneg whole

theorem counted_symbols (orders : List Order) (counts : String → Nat) (symbol : String) :
    orders.foldl countSymbol counts symbol =
      counts symbol + orders.countP fun order => order.symbol = symbol := by
  induction orders generalizing counts with
  | nil => rfl
  | cons order orders ih =>
    rw [List.foldl_cons, ih, List.countP_cons, countSymbol]
    by_cases same : order.symbol = symbol
    · subst same
      simp only [Function.update_self, decide_true, if_true]
      omega
    · simp [Function.update_of_ne (Ne.symm same), same]

theorem run_analytics_some (some_order : orders ≠ []) : ∃ a, runAnalytics orders = some a ∧
    (orders.map Order.latency).min? = some a.min ∧
    (orders.map Order.latency).max? = some a.max ∧
    nthElement (orders.map Order.latency) (orders.length / 2) = some a.median ∧
    a.average = mean (orders.map Order.latency) ∧
    a.variance = variance (orders.map Order.latency) ∧ a.total = orders.length ∧
    a.symbolCounts = orders.foldl countSymbol (fun _ => 0) ∧
    a.buyCount = orders.countP Order.isBuy ∧ a.sellCount = orders.length - a.buyCount := by
  have none_empty : orders.map Order.latency ≠ [] := by simpa using some_order
  obtain ⟨least, low⟩ := Option.isSome_iff_exists.mp (List.isSome_min?_of_ne_nil none_empty)
  obtain ⟨greatest, high⟩ := Option.isSome_iff_exists.mp (List.isSome_max?_of_ne_nil none_empty)
  have place : orders.length / 2 < (orders.map Order.latency).length := by
    have := List.length_pos_iff.mpr some_order
    rw [List.length_map]
    omega
  obtain ⟨middle, held⟩ := nth_element_some place
  have filled : orders.isEmpty = false := by simpa using some_order
  unfold runAnalytics
  rw [filled]
  simp [low, high, held]

/-- With a clock that never goes back the latencies of the completed orders are not
    negative, the figures lie in order, the squared standard deviation is at most the
    product of the average's distances from the ends, and at least half of the orders are
    not slower, and half not faster, than the median. -/
theorem latencies_summarised {events : List (Event producers consumers)}
    (run : Run (Program.Step numOrders) .create events s) (forward : Forward Event.reading events)
    (some_order : s.completedOrders ≠ []) : ∃ a, runAnalytics s.completedOrders = some a ∧
      0 ≤ a.min ∧ a.min ≤ a.median ∧ a.median ≤ a.max ∧ a.min ≤ a.average ∧ a.average ≤ a.max ∧
      a.variance ≤ (a.max - a.average) * (a.average - a.min) ∧
      a.total ≤ 2 * s.completedOrders.countP (fun order => order.latency ≤ a.median) ∧
      a.total ≤ 2 * s.completedOrders.countP (fun order => a.median ≤ order.latency) := by
  have timed := completed_timed run forward
  obtain ⟨a, analysed, least, greatest, middle, average, spread, total, _⟩ :=
    run_analytics_some some_order
  obtain ⟨attained, low⟩ := min_bounds least
  obtain ⟨_, high⟩ := max_bounds greatest
  have some_latency : s.completedOrders.map Order.latency ≠ [] := by simpa using some_order
  have inside := nth_element_mem middle
  obtain ⟨not_slower, not_faster⟩ := nth_element_counts middle
  rw [List.countP_map] at not_slower not_faster
  rw [List.length_map] at not_faster
  refine ⟨a, analysed, ?_, low _ inside, high _ inside, ?_, ?_, ?_, ?_, ?_⟩
  · obtain ⟨order, member, same⟩ := List.mem_map.mp attained
    rw [← same]
    exact timed_latency (timed order member)
  · rw [average]
    exact le_mean some_latency low
  · rw [average]
    exact mean_le some_latency high
  · rw [average, spread]
    exact variance_le some_latency low high
  · rw [total]
    change _ ≤ s.completedOrders.countP fun order => order.latency ≤ a.median at not_slower
    omega
  · rw [total]
    change _ ≤ _ + s.completedOrders.countP fun order => a.median ≤ order.latency at not_faster
    omega

/-- The side of an order goes with its symbol. -/
def Order.Sided (order : Order) : Prop :=
  order.symbol = "APPL" ∧ order.isBuy = true ∨ order.symbol = "GOOGL" ∧ order.isBuy = false

theorem made_sided {order : Order} {q : Int} {i now : Nat}
    (made : order.sent = makeOrder q i now) : order.Sided := by
  have symbol : order.symbol = if i % 2 = 0 then "APPL" else "GOOGL" := congrArg Order.symbol made
  have side : order.isBuy = decide (i % 2 = 0) := congrArg Order.isBuy made
  unfold Order.Sided
  by_cases even : i % 2 = 0
  · simp [symbol, side, even]
  · simp [symbol, side, even]

theorem volume_none {symbol : String} {side : Bool}
    (apart : ∀ order ∈ orders, order.symbol = symbol → order.isBuy ≠ side) :
    volume orders symbol side = 0 := by
  have none : orders.filter (fun order => order.symbol = symbol ∧ order.isBuy = side) = [] := by
    rw [List.filter_eq_nil_iff]
    intro order member held
    simp only [Bool.decide_and, Bool.and_eq_true, decide_eq_true_eq] at held
    exact apart order member held.1 held.2
  rw [volume, none]
  rfl

theorem Order.Sided.appl {order : Order} (sided : order.Sided) :
    order.symbol = "APPL" ↔ order.isBuy = true := by
  rcases sided with ⟨symbol, side⟩ | ⟨symbol, side⟩ <;> simp [symbol, side]

theorem Order.Sided.googl {order : Order} (sided : order.Sided) :
    order.symbol = "GOOGL" ↔ ¬ order.isBuy = true := by
  rcases sided with ⟨symbol, side⟩ | ⟨symbol, side⟩ <;> simp [symbol, side]

theorem analytics_counts (sided : ∀ order ∈ orders, order.Sided) {a : Analytics}
    (analysed : runAnalytics orders = some a) :
    a.symbolCounts "APPL" = a.buyCount ∧ a.symbolCounts "GOOGL" = a.sellCount ∧
      (∀ symbol, symbol ≠ "APPL" → symbol ≠ "GOOGL" → a.symbolCounts symbol = 0) ∧
      a.buyCount + a.sellCount = orders.length := by
  have some_order : orders ≠ [] := by
    rintro rfl
    cases analysed
  obtain ⟨b, same, _, _, _, _, _, _, counts, buys, sells⟩ := run_analytics_some some_order
  rw [analysed] at same
  cases same
  have all := orders.length_eq_countP_add_countP Order.isBuy
  have appl : a.symbolCounts "APPL" = a.buyCount := by
    rw [counts, counted_symbols, Nat.zero_add, buys]
    refine List.countP_congr fun order member => ?_
    rw [decide_eq_true_iff]
    exact (sided order member).appl
  have googl : a.symbolCounts "GOOGL" = orders.countP fun order => ¬ order.isBuy = true := by
    rw [counts, counted_symbols, Nat.zero_add]
    refine List.countP_congr fun order member => ?_
    rw [decide_eq_true_iff, decide_eq_true_iff]
    exact (sided order member).googl
  refine ⟨appl, ?_, ?_, ?_⟩
  · rw [googl, sells, buys]
    omega
  · intro symbol not_appl not_googl
    rw [counts, counted_symbols, Nat.zero_add, List.countP_eq_zero]
    intro order member named
    rw [decide_eq_true_iff] at named
    rcases sided order member with ⟨other, _⟩ | ⟨other, _⟩
    · exact not_appl (named.symm.trans other)
    · exact not_googl (named.symm.trans other)
  · rw [sells, buys]
    omega

end Figures

/-- One order, made at 1000 ns and popped at 4000 ns, and the consumer gone. -/
def oneOrder (p : Fin producers) (c : Fin consumers) : List (Event producers consumers) :=
  [.countDown, .startConsumer c, .startProducer p, .make p 1000, .push p, .pop c, .stamp c 4000,
   .acquire c, .updateBook c, .record c, .count c, .release c, .finish p, .joinProducers,
   .setDone, .popEmpty c, .loadDone c]

theorem latencies_summarised_one : ∃ s : Program 1 1,
    Run (Program.Step fun _ => 1) .create (oneOrder 0 0) s ∧
      s.completedOrders.map Order.latency = [3] ∧
      ∃ a, runAnalytics s.completedOrders = some a ∧ 0 ≤ a.min ∧ a.min ≤ a.median := by
  have replayed : ∃ s : Program 1 1,
      replay (Program.act fun _ => 1) .create (oneOrder 0 0) = some s ∧
      s.completedOrders.map Order.latency = [3] := ⟨_, rfl, rfl⟩
  obtain ⟨s, done, latencies⟩ := replayed
  have run : Run (Program.Step fun _ => 1) _ _ s := run_of_replay id done
  have some_order : s.completedOrders ≠ [] := by
    rintro none
    rw [none] at latencies
    cases latencies
  obtain ⟨a, analysed, positive, first, _⟩ := latencies_summarised run (by decide) some_order
  exact ⟨s, run, latencies, a, analysed, positive, first⟩

end Session7
