import TradingSystems.Phase4.TickLoop

/- Who trades in the tick loop. Every round starts with a book in which nothing crosses and
   adds one order, so all trades of a round are made by that order with orders at rest. The
   price is always that of the sell order: an incoming buy gets the better price of the
   order at rest, an incoming sell never does. -/
namespace Phase4
open Runs
variable {Price Id : Type}

/-- The trades of an incoming order with orders of a book: a buy order takes asks at their
    prices, a sell order takes bids at its own price. -/
def Tick.Takes [LinearOrder Price] (tick : Tick Price Id) (rested : LiveBook Price Id)
    (ts : List (Trade Price Id)) : Prop :=
  ∀ t ∈ ts,
    if tick.isBuy then t.buyOrderId = tick.i ∧ t.price ≤ tick.bidPrice ∧
      ∃ r ∈ rested.asks, r.order.orderId = t.sellOrderId ∧ r.order.price = t.price
    else t.sellOrderId = tick.i ∧ t.price = tick.bidPrice ∧
      ∃ r ∈ rested.bids, r.order.orderId = t.buyOrderId ∧ t.price ≤ r.order.price

namespace LiveBook
variable [LinearOrder Price]

def From (queue rested : List (Resting Price Id)) : Prop :=
  ∀ r ∈ queue, ∃ p ∈ rested, p.order.orderId = r.order.orderId ∧ p.order.price = r.order.price

structure Incoming (tick : Tick Price Id) (rested l : LiveBook Price Id) : Prop where
  opposite : From (l.side (!tick.isBuy)) (rested.side (!tick.isBuy))
  own : ∀ r ∈ l.side tick.isBuy,
    (r.order.orderId = tick.i ∧ r.order.price = tick.bidPrice) ∨
      ∀ q ∈ rested.side (!tick.isBuy),
        if tick.isBuy then r.order.price < q.order.price else q.order.price < r.order.price

section Trades
variable {tick : Tick Price Id} {rested l m k : LiveBook Price Id} {t : Trade Price Id}
  {ts : List (Trade Price Id)}

omit [LinearOrder Price] in
theorem settled_from {r x : Resting Price Id} {rest : List (Resting Price Id)} {q : Int}
    (member : x ∈ settle (r.fill q) rest) :
    ∃ p ∈ r :: rest, p.order.orderId = x.order.orderId ∧ p.order.price = x.order.price := by
  rcases mem_settle member with head | tail
  · exact ⟨r, by simp, by rw [head]; exact ⟨rfl, rfl⟩⟩
  · exact ⟨x, by simp [tail], rfl, rfl⟩

theorem trade_from (head : l.matchHead = some (t, m)) (s : Bool) : From (m.side s) (l.side s) := by
  obtain ⟨bid, ask, bids, asks, step⟩ := match_head_cases head
  intro x member
  cases s with
  | true =>
    rw [side_true, step.bidsAfter] at member
    rw [side_true, step.bidHead]
    exact settled_from member
  | false =>
    rw [side_false, step.asksAfter] at member
    rw [side_false, step.askHead]
    exact settled_from member

theorem Incoming.trade (incoming : Incoming tick rested l) (head : l.matchHead = some (t, m)) :
    Incoming tick rested m := by
  constructor
  · intro x member
    obtain ⟨r, inside, id, price⟩ := trade_from head _ x member
    obtain ⟨p, listed, id', price'⟩ := incoming.opposite r inside
    exact ⟨p, listed, id'.trans id, price'.trans price⟩
  · intro x member
    obtain ⟨r, inside, id, price⟩ := trade_from head _ x member
    have own := incoming.own r inside
    rwa [id, price] at own

theorem Incoming.takes (incoming : Incoming tick rested l) (head : l.matchHead = some (t, m)) :
    tick.Takes rested [t] := by
  obtain ⟨bid, ask, bids, asks, step⟩ := match_head_cases head
  have crosses := step.crosses
  have buy : bid ∈ l.side true := by simp [step.bidHead]
  have sell : ask ∈ l.side false := by simp [step.askHead]
  intro u member
  rw [List.mem_singleton.mp member, step.trade]
  have opposite := incoming.opposite
  have own := incoming.own
  cases flag : tick.isBuy with
  | true =>
    rw [flag] at opposite own
    obtain ⟨p, listed, id, price⟩ := opposite ask sell
    rcases own bid buy with ⟨named, limit⟩ | apart
    · exact ⟨named, limit ▸ crosses, p, listed, id, price⟩
    · have short := apart p listed
      rw [price] at short
      exact absurd crosses (not_le.mpr short)
  | false =>
    rw [flag] at opposite own
    obtain ⟨p, listed, id, price⟩ := opposite bid buy
    rcases own ask sell with ⟨named, limit⟩ | apart
    · exact ⟨named, limit, p, listed, id, price.symm ▸ crosses⟩
    · have short := apart p listed
      rw [price] at short
      exact absurd crosses (not_le.mpr short)

theorem matches_take (run : Matches l ts k) (incoming : Incoming tick rested l) :
    tick.Takes rested ts := by
  induction run with
  | done l =>
    intro t member
    cases member
  | trade head tail ih =>
    intro t member
    rcases List.mem_cons.mp member with first | later
    · exact incoming.takes head t (by rw [first]; simp)
    · exact ih (incoming.trade head) t later

theorem mem_add_side {r q : Resting Price Id} {s : Bool} :
    q ∈ (l.add r).side s ↔ (s = r.order.isBuy ∧ q = r) ∨ q ∈ l.side s := by
  unfold add queueIn
  cases flag : r.order.isBuy <;> cases s <;> simp [side, List.mem_orderedInsert]

theorem add_incoming (stamp : Nat) (queued : ∀ s, (rested.side s).Pairwise (Ahead s))
    (stopped : rested.matchHead = none) :
    Incoming tick rested (rested.add ⟨stamp, tick.order⟩) := by
  have own_side : tick.order.isBuy = tick.isBuy := rfl
  constructor
  · intro x member
    rcases mem_add_side.mp member with ⟨own, _⟩ | old
    · rw [own_side] at own
      simp at own
    · exact ⟨x, old, rfl, rfl⟩
  · intro x member
    rcases mem_add_side.mp member with ⟨_, new⟩ | old
    · exact .inl (by rw [new]; exact ⟨rfl, rfl⟩)
    · refine .inr fun q listed => ?_
      cases flag : tick.isBuy with
      | true =>
        rw [flag] at old listed
        exact apart_of_stopped queued stopped old listed
      | false =>
        rw [flag] at old listed
        exact apart_of_stopped queued stopped listed old

end Trades
end LiveBook

section Rounds
variable [LinearOrder Price] [DecidableEq Id] {layout : Layout} {poolSize : Nat}
  {ticks : List (Tick Price Id)} {s t : TickLoop Price Id} {tick : Tick Price Id}

/-- In every round of the tick loop, each logged trade is one of the order of this round with
    an order that rested before it, and after the round nothing crosses again. -/
theorem incoming_order_trades
    (run : Run (Guarded TickLoop.Step NewTick) (.create layout poolSize) ticks s)
    (step : TickLoop.Step s tick t) (new : NewTick s tick) :
    ∃ ts, t.logger.trades = s.logger.trades ++ ts ∧ tick.Takes s.book.live ts ∧
      ∀ bid ∈ t.book.live.bids, ∀ ask ∈ t.book.live.asks, bid.order.price < ask.order.price := by
  obtain ⟨m, mirror⟩ := run_mirrors run
  obtain ⟨n, after⟩ := step_mirrors step new mirror
  obtain ⟨fuel, ts, matched, -, logged⟩ := TickLoop.step_parts step
  obtain ⟨a, added, book, -⟩ := add_step mirror.ledger.recorded.well tick
  have unused : tick.i ∉ m.issued := by
    rw [← mirror.created]
    simp [new.1]
  have queued := mirror.ledger.recorded.well.queue_ahead
  have ready := (step_ledger added ⟨unused, new.2⟩ mirror.ledger).recorded.well
  have settled := after.ledger.recorded.well.queue_ahead
  rw [mirror.book] at queued book
  rw [book] at ready
  rw [after.book] at settled
  obtain ⟨-, trades, -⟩ := OrderBook.match_orders_sound ready matched
  refine ⟨ts, logged, ?_, fun bid hb ask ha =>
    LiveBook.apart_of_stopped settled after.stopped hb ha⟩
  cases free : s.book.pool.firstFree with
  | none =>
    rw [OrderBook.add_order_full free] at trades
    rw [LiveBook.matches_stopped trades mirror.stopped]
    intro u member
    cases member
  | some i =>
    have sound := mirror.ledger.recorded.well.toSound
    rw [mirror.book] at sound
    rw [OrderBook.add_order_free free, OrderBook.place_live sound free] at trades
    exact LiveBook.matches_take trades (LiveBook.add_incoming _ queued mirror.stopped)

end Rounds

theorem incoming_order_trades_sell : ∃ s t : TickLoop Int Nat,
    s.book.live.bids.map (·.order.price) = [100] ∧ ∃ ts,
      t.logger.trades = s.logger.trades ++ ts ∧ ts.map (·.price) = [90] ∧
      (⟨1, "AAPL", 90, 4, false⟩ : Tick Int Nat).Takes s.book.live ts := by
  have replayed : ∃ s t, replay (guarded NewTick fun s tick => (s.body 4 tick).toOption)
        (.create ⟨4096, 64, by decide⟩ 4 : TickLoop Int Nat) [⟨0, "AAPL", 100, 10, true⟩] =
          some s ∧
      (s.body 4 ⟨1, "AAPL", 90, 4, false⟩).toOption = some t ∧
      NewTick s ⟨1, "AAPL", 90, 4, false⟩ ∧ s.book.live.bids.map (·.order.price) = [100] ∧
      s.logger.trades = [] ∧ t.logger.trades.map (·.price) = [90] :=
    ⟨_, _, rfl, rfl, by decide, by decide, rfl, by decide⟩
  obtain ⟨s, t, done, next, new, bids, none_yet, prices⟩ := replayed
  have run := run_of_replay (guarded_step step_of_body) done
  obtain ⟨ts, logged, takes, -⟩ := incoming_order_trades run (step_of_body next) new
  refine ⟨s, t, bids, ts, logged, ?_, takes⟩
  rw [logged, none_yet] at prices
  exact prices

end Phase4
