import TradingSystems.Phase4.OrderManager
import TradingSystems.Phase4.FillAccounting

/- The tick loop of the latency driver. Each tick creates its order in the manager
   and once more in the book, matches, and logs the trades. Nothing tells the
   manager of a fill, and nothing tells it that the book refused an order. -/
namespace Phase4
open Runs
variable {Price Id : Type}

/-- What one iteration draws: its counter, the symbol and the bid price of the
    market data, a quantity and a side. -/
structure Tick (Price Id : Type) where
  i : Id
  symbol : String
  bidPrice : Price
  qty : Int
  isBuy : Bool

def Tick.order (tick : Tick Price Id) : Order Price Id :=
  .create tick.i tick.symbol tick.bidPrice tick.qty tick.isBuy

def Tick.call (tick : Tick Price Id) : Call Price Id :=
  .addOrder tick.i tick.symbol tick.bidPrice tick.qty tick.isBuy

structure TickLoop (Price Id : Type) where
  oms : OrderManager Price Id
  book : OrderBook Price Id
  logger : TradeLogger Price Id

namespace TickLoop

def create (layout : Layout) (poolSize : Nat) : TickLoop Price Id :=
  ⟨.create, .create layout poolSize, .create⟩

variable [LinearOrder Price] [DecidableEq Id]

/-- The loop body; a null order pointer is dereferenced. -/
def body (fuel : Nat) (s : TickLoop Price Id) (tick : Tick Price Id) :
    Except Stuck (TickLoop Price Id) :=
  let oms := s.oms.createOrder tick.i tick.symbol tick.bidPrice tick.qty tick.isBuy
  match oms.getOrder tick.i with
  | none => .error .danglingPointer
  | some orderPtr => do
    let book := s.book.addOrder orderPtr.orderId orderPtr.symbol orderPtr.price
      orderPtr.quantity orderPtr.isBuy
    let (trades, book) ← book.matchOrders fuel
    return { oms, book, logger := trades.foldl TradeLogger.logTrade s.logger }

def Step (s : TickLoop Price Id) (tick : Tick Price Id) (t : TickLoop Price Id) : Prop :=
  ∃ fuel, s.body fuel tick = .ok t

theorem step_parts {s t : TickLoop Price Id} {tick : Tick Price Id} (step : Step s tick t) :
    ∃ fuel ts, (s.book.addOrder tick.i tick.symbol tick.bidPrice tick.qty tick.isBuy).matchOrders
        fuel = .ok (ts, t.book) ∧
      t.oms = s.oms.createOrder tick.i tick.symbol tick.bidPrice tick.qty tick.isBuy ∧
      t.logger.trades = s.logger.trades ++ ts := by
  obtain ⟨fuel, done⟩ := step
  simp only [body, OrderManager.get_created, log_trades] at done
  cases matched : (s.book.addOrder tick.i tick.symbol tick.bidPrice tick.qty
      tick.isBuy).matchOrders fuel with
  | error e => simp [Order.create, matched, bind, Except.bind] at done
  | ok result =>
    simp only [Order.create, matched, bind, Except.bind, pure, Except.pure, Except.ok.injEq] at done
    subst done
    exact ⟨fuel, result.1, matched, rfl, rfl⟩

end TickLoop

def NewTick (s : TickLoop Price Id) (tick : Tick Price Id) : Prop :=
  s.oms.getOrder tick.i = none ∧ 0 < tick.qty ∧ tick.qty ≤ intMax

instance (s : TickLoop Price Id) (tick : Tick Price Id) : Decidable (NewTick s tick) :=
  inferInstanceAs (Decidable (_ ∧ _ ∧ _))

/-- The manager knows of every fill, and an order is open there exactly while it
    rests in the book. -/
def TickLoop.Agrees [DecidableEq Id] (s : TickLoop Price Id) : Prop :=
  ∀ id order, s.oms.getOrder id = some order →
    order.filledQuantity = filledBy s.logger.trades id ∧
    ((order.status = .new ∨ order.status = .partiallyFilled) ↔ s.book.live.Rests id)

def Uncrossed [LinearOrder Price] (ticks : List (Tick Price Id)) : Prop :=
  ∀ bid ∈ ticks, ∀ ask ∈ ticks, bid.isBuy = true → ask.isBuy = false →
    bid.bidPrice < ask.bidPrice

def Session.asked (s : Session Price Id) : List (Order Price Id) :=
  s.placed.map (fun p => p.order) ++ s.refused

theorem issued_asked (s : Session Price Id) : s.issued = s.asked.map Order.orderId := by
  simp [Session.issued, Session.asked]

structure Mirrors [LinearOrder Price] (poolSize : Nat) (ticks : List (Tick Price Id))
    (s : TickLoop Price Id) (m : Session Price Id) : Prop where
  ledger : Ledger m
  book : m.book = s.book
  trades : m.trades = s.logger.trades
  size : s.book.pool.size = poolSize
  asked : m.asked.Perm (ticks.map Tick.order)
  created : ∀ id, (∃ order, s.oms.getOrder id = some order) ↔ id ∈ m.issued
  untouched : ∀ id order, s.oms.getOrder id = some order →
    order.filledQuantity = 0 ∧ order.status = .new
  stopped : s.book.live.matchHead = none
  stays : m.trades = [] → ∀ p ∈ m.placed, s.book.live.Rests p.order.orderId
  quiet : ticks.length ≤ poolSize → Uncrossed ticks → m.trades = [] ∧ m.refused = []

theorem create_mirrors [LinearOrder Price] (layout : Layout) (poolSize : Nat) :
    Mirrors poolSize [] (.create layout poolSize : TickLoop Price Id)
      (.create layout poolSize) where
  ledger := ⟨create_history intMax layout poolSize, by simp [Session.create],
    by simp [Session.create]⟩
  book := rfl
  trades := rfl
  size := by simp [TickLoop.create, OrderBook.create, MemoryPool.create, MemoryPool.size]
  asked := List.Perm.refl _
  created := by simp [TickLoop.create, OrderManager.create, OrderManager.getOrder,
    Session.issued, Session.create]
  untouched := by simp [TickLoop.create, OrderManager.create, OrderManager.getOrder]
  stopped := rfl
  stays := by simp [Session.create]
  quiet := fun _ _ => ⟨rfl, rfl⟩

section Mirrored
variable [LinearOrder Price] [DecidableEq Id] {poolSize : Nat} {ticks : List (Tick Price Id)}
  {s t : TickLoop Price Id} {m : Session Price Id} {tick : Tick Price Id}

theorem add_step (well : m.book.WellFormed) (tick : Tick Price Id) :
    ∃ n, Step m tick.call n ∧
      n.book = m.book.addOrder tick.i tick.symbol tick.bidPrice tick.qty tick.isBuy ∧
      n.trades = m.trades ∧ n.book.pool.size = m.book.pool.size ∧
      n.asked.Perm (m.asked ++ [tick.order]) ∧
      (m.book.pool.firstFree ≠ none → n.refused = m.refused) ∧
      ∀ p ∈ n.placed, (∀ q ∈ m.placed, m.book.live.Rests q.order.orderId) →
        n.book.live.Rests p.order.orderId := by
  cases free : m.book.pool.firstFree with
  | none =>
    refine ⟨_, .refused free _ _ _ _ _, rfl, rfl, ?_, ?_, ?_, ?_⟩
    · rw [OrderBook.add_order_full free]
    · simp [Session.asked, Tick.order]
    · simp
    · rw [OrderBook.add_order_full free]
      exact fun p placed rests => rests p placed
  | some i =>
    have live := OrderBook.place_live well.toSound free (o := tick.order)
    refine ⟨_, .accepted free _ _ _ _ _, rfl, rfl, ?_, ?_, fun _ => rfl, ?_⟩
    · rw [OrderBook.add_order_free free, OrderBook.place_size]
    · simp only [Session.asked, List.map_append, List.map_cons, List.map_nil, List.append_assoc]
      exact List.perm_append_comm.append_left _
    · intro p placed rests
      rw [OrderBook.add_order_free free]
      change (m.book.place i tick.order).live.Rests _
      rw [live, LiveBook.rests_iff]
      rcases List.mem_append.mp placed with old | new
      · obtain ⟨r, member, named⟩ := LiveBook.rests_iff.mp (rests p old)
        exact ⟨r, LiveBook.mem_add.mpr (Or.inr member), named⟩
      · rw [List.mem_singleton.mp new]
        exact ⟨_, LiveBook.mem_add.mpr (Or.inl rfl), rfl⟩

omit [DecidableEq Id] in
theorem Ledger.live_within (ledger : Ledger m) : m.book.live.all.length ≤ m.placed.length := by
  have named : m.book.live.ids ⊆ m.placed.map fun p => p.order.orderId := by
    intro id rests
    obtain ⟨r, member, same⟩ := LiveBook.rests_iff.mp rests
    obtain ⟨p, placed, _, terms⟩ := ledger.recorded.came r member
    exact List.mem_map.mpr ⟨p, placed, terms.orderId.symm.trans same⟩
  simpa [LiveBook.ids] using ledger.recorded.well.ids_nodup.length_le_of_subset named

omit [DecidableEq Id] in
theorem resting_ticked (ledger : Ledger m) (asked : m.asked.Perm (ticks.map Tick.order))
    {side : Bool} {r : Resting Price Id} (member : r ∈ m.book.live.side side) :
    ∃ tick ∈ ticks, tick.isBuy = side ∧ tick.bidPrice = r.order.price := by
  obtain ⟨p, placed, _, terms⟩ := ledger.recorded.came r (LiveBook.mem_all.mpr ⟨side, member⟩)
  have listed : p.order ∈ m.asked :=
    List.mem_append_left _ (List.mem_map.mpr ⟨p, placed, rfl⟩)
  obtain ⟨tick, ticked, same⟩ := List.mem_map.mp (asked.subset listed)
  refine ⟨tick, ticked, ?_, ?_⟩
  · rw [← ledger.recorded.well.toSound.live_is_buy member, terms.isBuy, ← same]
    rfl
  · rw [terms.price, ← same]
    rfl

omit [DecidableEq Id] in
theorem uncrossed_stopped (ledger : Ledger m) (asked : m.asked.Perm (ticks.map Tick.order))
    (uncrossed : Uncrossed ticks) : m.book.live.matchHead = none := by
  refine LiveBook.match_head_none_iff.mpr ?_
  intro bid ask bids asks hb ha
  obtain ⟨buy, bought, isBuy, bidPrice⟩ :=
    resting_ticked ledger asked (show bid ∈ m.book.live.side true by simp [hb])
  obtain ⟨sell, sold, isSell, askPrice⟩ :=
    resting_ticked ledger asked (show ask ∈ m.book.live.side false by simp [ha])
  rw [← bidPrice, ← askPrice]
  exact uncrossed buy bought sell sold isBuy isSell

theorem created_after {a : Session Price Id} (mirror : Mirrors poolSize ticks s m)
    (asked : a.asked.Perm (m.asked ++ [tick.order])) (id : Id) :
    (∃ order, (s.oms.createOrder tick.i tick.symbol tick.bidPrice tick.qty tick.isBuy).getOrder id =
      some order) ↔ id ∈ a.issued := by
  have issued : id ∈ a.issued ↔ id ∈ m.issued ∨ id = tick.i := by
    rw [issued_asked, issued_asked, (asked.map Order.orderId).mem_iff]
    simp [Tick.order, Order.create]
  rw [issued, ← mirror.created]
  by_cases same : id = tick.i
  · subst same
    simp [OrderManager.get_created]
  · simp [OrderManager.get_created_other _ same, same]

theorem untouched_after (mirror : Mirrors poolSize ticks s m) {id : Id} {order : Order Price Id}
    (held : (s.oms.createOrder tick.i tick.symbol tick.bidPrice tick.qty tick.isBuy).getOrder id =
      some order) : order.filledQuantity = 0 ∧ order.status = .new := by
  by_cases same : id = tick.i
  · subst same
    rw [OrderManager.get_created] at held
    cases held
    exact ⟨rfl, rfl⟩
  · rw [OrderManager.get_created_other _ same] at held
    exact mirror.untouched id order held

omit [DecidableEq Id] in
theorem Mirrors.slot_left (mirror : Mirrors poolSize ticks s m) (unrefused : m.refused = [])
    (few : ticks.length < poolSize) : m.book.pool.firstFree ≠ none := by
  have count := mirror.asked.length_eq
  simp only [Session.asked, unrefused, List.append_nil, List.length_map] at count
  have within := mirror.ledger.live_within
  rw [Ne, mirror.ledger.recorded.well.toSound.full_iff, mirror.book, mirror.size]
  rw [mirror.book] at within
  omega

theorem step_mirrors (step : TickLoop.Step s tick t) (new : NewTick s tick)
    (mirror : Mirrors poolSize ticks s m) : ∃ n, Mirrors poolSize (ticks ++ [tick]) t n := by
  obtain ⟨fuel, ts, matched, oms, logged⟩ := TickLoop.step_parts step
  obtain ⟨a, first, book, trades, size, asked, unrefused, rests⟩ :=
    add_step mirror.ledger.recorded.well tick
  have unused : tick.i ∉ m.issued := by
    rw [← mirror.created]
    simp [new.1]
  have ledger := step_ledger first ⟨unused, new.2⟩ mirror.ledger
  have asked' : a.asked.Perm ((ticks ++ [tick]).map Tick.order) := by
    rw [List.map_append]
    exact asked.trans (mirror.asked.append_right _)
  rw [← mirror.book, ← book] at matched
  have second : Step a .matchOrders { a with book := t.book, trades := a.trades ++ ts } :=
    .matchOrders matched
  obtain ⟨_, run, stopped, frame⟩ := OrderBook.match_orders_sound ledger.recorded.well matched
  refine ⟨_, step_ledger second trivial ledger, rfl, ?_, ?_, asked', ?_, ?_, stopped, ?_, ?_⟩
  · rw [logged, trades, mirror.trades]
  · rw [frame.size, size, mirror.book, mirror.size]
  · intro id
    rw [oms]
    exact created_after mirror asked id
  · intro id order held
    rw [oms] at held
    exact untouched_after mirror held
  · intro none_traded p placed
    obtain ⟨before, after⟩ := List.append_eq_nil_iff.mp none_traded
    subst after
    rw [LiveBook.matches_nil run]
    exact rests p placed fun q hq => mirror.book ▸ mirror.stays (trades ▸ before) q hq
  · intro few uncrossed
    simp only [List.length_append, List.length_cons, List.length_nil] at few
    obtain ⟨none_traded, none_refused⟩ := mirror.quiet (by omega)
      fun b hb q hq => uncrossed b (by simp [hb]) q (by simp [hq])
    have free := mirror.slot_left none_refused (by omega)
    have idle := LiveBook.matches_stopped run (uncrossed_stopped ledger asked' uncrossed)
    exact ⟨by simp [trades, none_traded, idle], (unrefused free).trans none_refused⟩

theorem run_mirrors {layout : Layout}
    (run : Run (Guarded TickLoop.Step NewTick) (.create layout poolSize) ticks s) :
    ∃ m, Mirrors poolSize ticks s m := by
  induction run with
  | nil => exact ⟨_, create_mirrors layout poolSize⟩
  | snoc before last ih =>
    obtain ⟨m, mirror⟩ := ih
    exact step_mirrors last.1 last.2 mirror

theorem Mirrors.agrees_iff (mirror : Mirrors poolSize ticks s m) :
    s.Agrees ↔ m.trades = [] ∧ m.refused = [] := by
  have ledger := mirror.ledger
  have held : ∀ id ∈ m.issued, ∃ order, s.oms.getOrder id = some order ∧
      order.filledQuantity = 0 ∧ order.status = .new := by
    intro id issued
    obtain ⟨order, got⟩ := (mirror.created id).mpr issued
    exact ⟨order, got, mirror.untouched id order got⟩
  constructor
  · intro agrees
    constructor
    · by_contra traded
      obtain ⟨t, member⟩ := List.exists_mem_of_ne_nil _ traded
      have named := ledger.named t member t.buyOrderId (Or.inl rfl)
      obtain ⟨order, got, unfilled, _⟩ := held _ (List.mem_append_left _ named)
      have filled := (agrees _ order got).1
      rw [unfilled, ← mirror.trades] at filled
      have some_filled := filled_by_positive ledger.positive member (Or.inl rfl)
      omega
    · by_contra refused
      obtain ⟨o, member⟩ := List.exists_mem_of_ne_nil _ refused
      have named : o.orderId ∈ m.refused.map Order.orderId := List.mem_map.mpr ⟨o, member, rfl⟩
      obtain ⟨order, got, _, open_there⟩ := held _ (List.mem_append_right _ named)
      have rests := (agrees _ order got).2.mp (Or.inl open_there)
      rw [← mirror.book] at rests
      obtain ⟨r, inside, same⟩ := LiveBook.rests_iff.mp rests
      obtain ⟨p, placed, _, terms⟩ := ledger.recorded.came r inside
      exact (List.nodup_append.mp ledger.distinct).2.2 _ (List.mem_map.mpr ⟨p, placed, rfl⟩) _
        named (terms.orderId.symm.trans same)
  · rintro ⟨none_traded, none_refused⟩ id order got
    obtain ⟨unfilled, fresh⟩ := mirror.untouched id order got
    have issued := (mirror.created id).mp ⟨order, got⟩
    simp only [Session.issued, none_refused, List.map_nil, List.append_nil] at issued
    obtain ⟨p, placed, same⟩ := List.mem_map.mp issued
    have rests := mirror.stays none_traded p placed
    rw [same] at rests
    rw [unfilled, fresh, ← mirror.trades, none_traded]
    exact ⟨rfl, by simp [rests]⟩

omit [DecidableEq Id] in
theorem Mirrors.quiet_ticks (mirror : Mirrors poolSize ticks s m) (untraded : m.trades = [])
    (unrefused : m.refused = []) : ticks.length ≤ poolSize ∧ Uncrossed ticks := by
  have ledger := mirror.ledger
  have well := ledger.recorded.well
  have rests := mirror.stays untraded
  rw [← mirror.book] at rests
  have asked := mirror.asked
  simp only [Session.asked, unrefused, List.append_nil] at asked
  constructor
  · have inside : (m.placed.map fun p => p.order.orderId) ⊆ m.book.live.ids := by
      intro id member
      obtain ⟨p, placed, same⟩ := List.mem_map.mp member
      exact same ▸ rests p placed
    have fewer := ledger.placed.distinct.length_le_of_subset inside
    have bounded := well.toSound.live_bounded
    have count := asked.length_eq
    rw [mirror.book, mirror.size, ← mirror.book] at bounded
    simp only [LiveBook.ids, List.length_map] at fewer count
    omega
  · intro bid bought ask sold isBuy isSell
    have live : ∀ tick ∈ ticks, ∃ r ∈ m.book.live.side tick.isBuy,
        r.order.price = tick.bidPrice := by
      intro tick ticked
      obtain ⟨p, placed, same⟩ :=
        List.mem_map.mp (asked.symm.subset (List.mem_map.mpr ⟨tick, ticked, rfl⟩))
      obtain ⟨r, member, named⟩ := LiveBook.rests_iff.mp (rests p placed)
      have terms := ledger.placed.terms_of member placed named
      obtain ⟨side, inside⟩ := LiveBook.mem_all.mp member
      have sided := well.toSound.live_is_buy inside
      rw [terms.isBuy, same] at sided
      refine ⟨r, ?_, by rw [terms.price, same]; rfl⟩
      rw [show tick.isBuy = side from sided]
      exact inside
    obtain ⟨r, hr, price⟩ := live bid bought
    obtain ⟨q, hq, price'⟩ := live ask sold
    rw [isBuy] at hr
    rw [isSell] at hq
    rw [← price, ← price']
    exact LiveBook.apart_of_stopped well.toSound.queue_ahead (mirror.book ▸ mirror.stopped) hr hq

/-- The manager agrees with the book after these ticks if and only if the pool has
    room for all of them and none of their bids reaches one of their asks. -/
theorem manager_agrees_iff {layout : Layout}
    (run : Run (Guarded TickLoop.Step NewTick) (.create layout poolSize) ticks s) :
    s.Agrees ↔ ticks.length ≤ poolSize ∧ Uncrossed ticks := by
  obtain ⟨m, mirror⟩ := run_mirrors run
  rw [mirror.agrees_iff]
  constructor
  · rintro ⟨untraded, unrefused⟩
    exact mirror.quiet_ticks untraded unrefused
  · rintro ⟨few, uncrossed⟩
    exact mirror.quiet few uncrossed

end Mirrored

theorem step_of_body [LinearOrder Price] [DecidableEq Id] {fuel : Nat} {s t : TickLoop Price Id}
    {tick : Tick Price Id} (done : (s.body fuel tick).toOption = some t) : s.Step tick t := by
  cases ran : s.body fuel tick with
  | error e => simp [ran, Except.toOption] at done
  | ok u =>
    simp only [ran, Except.toOption, Option.some.injEq] at done
    exact ⟨fuel, done ▸ ran⟩

/-- A bid and an ask that trade ten: the manager still has none of it. -/
theorem manager_disagrees : ∃ s : TickLoop Int Nat,
    Run (Guarded TickLoop.Step NewTick) (.create ⟨4096, 64, by decide⟩ 4)
      [⟨0, "AAPL", 100, 10, true⟩, ⟨1, "AAPL", 100, 10, false⟩] s ∧
      filledBy s.logger.trades 0 = 10 ∧ ¬ s.Agrees := by
  have replayed : ∃ s order, replay (guarded NewTick fun s tick => (s.body 4 tick).toOption)
      (.create ⟨4096, 64, by decide⟩ 4 : TickLoop Int Nat)
      [⟨0, "AAPL", 100, 10, true⟩, ⟨1, "AAPL", 100, 10, false⟩] = some s ∧
      filledBy s.logger.trades 0 = 10 ∧ s.oms.getOrder 0 = some order ∧
      order.filledQuantity = 0 := ⟨_, _, rfl, by decide, rfl, rfl⟩
  obtain ⟨s, order, done, traded, held, unfilled⟩ := replayed
  refine ⟨s, run_of_replay (guarded_step step_of_body) done, traded, fun agrees => ?_⟩
  have filled := (agrees 0 order held).1
  rw [unfilled, traded] at filled
  exact absurd filled (by decide)

theorem manager_agrees_iff_apart : ∃ s : TickLoop Int Nat,
    Run (Guarded TickLoop.Step NewTick) (.create ⟨4096, 64, by decide⟩ 4)
      [⟨0, "AAPL", 100, 10, true⟩, ⟨1, "AAPL", 101, 10, false⟩] s ∧ s.Agrees := by
  have replayed : ∃ s, replay (guarded NewTick fun s tick => (s.body 4 tick).toOption)
      (.create ⟨4096, 64, by decide⟩ 4 : TickLoop Int Nat)
      [⟨0, "AAPL", 100, 10, true⟩, ⟨1, "AAPL", 101, 10, false⟩] = some s := ⟨_, rfl⟩
  obtain ⟨s, done⟩ := replayed
  have run := run_of_replay (guarded_step step_of_body) done
  exact ⟨s, run, (manager_agrees_iff run).mpr ⟨by decide, by simp [Uncrossed]⟩⟩

end Phase4
