import TradingSystems.Phase4.OpenBook
import TradingSystems.Phase4.FillAccounting

/- What one match_orders call returns and what it leaves. Each trade pairs two orders
   that rest just before it, at a price that both accept; afterwards no bid reaches an
   ask, and the orders that no trade names are where they were. -/
namespace Phase4
open Runs
variable {Price Id : Type}

def Resting.Working (r : Resting Price Id) : Prop :=
  r.order.status = .new ∨ r.order.status = .partiallyFilled

theorem working_fill (r : Resting Price Id) (q : Int)
    (unfilled : (r.order.updateFilled q).status ≠ .filled) : (r.fill q).Working := by
  simp only [Resting.Working, fill_order, Order.updateFilled] at unfilled ⊢
  split
  · exact Or.inl rfl
  · rename_i moved
    simp only [moved, ↓reduceIte] at unfilled
    split
    · rename_i reached
      simp [reached] at unfilled
    · exact Or.inr rfl

variable [LinearOrder Price]

namespace LiveBook

def Working (l : LiveBook Price Id) : Prop := ∀ r ∈ l.all, r.Working

section Trades
variable {l m k : LiveBook Price Id} {t : Trade Price Id} {ts : List (Trade Price Id)}

theorem working_trade (working : l.Working) (head : l.matchHead = some (t, m)) : m.Working := by
  obtain ⟨bid, ask, bids, asks, step⟩ := match_head_cases head
  intro r member
  rcases step.mem_after.mp member with ⟨same, unfilled⟩ | ⟨same, unfilled⟩ | other
  · exact same ▸ working_fill bid t.quantity unfilled
  · exact same ▸ working_fill ask t.quantity unfilled
  · exact working r (step.mem_before.mpr (Or.inr (Or.inr other)))

theorem head_trade_unnamed (head : l.matchHead = some (t, m)) {s : Bool} {r : Resting Price Id}
    (member : r ∈ l.side s) (unnamed : ¬ t.Names r.order.orderId) : r ∈ m.side s := by
  obtain ⟨bid, ask, bids, asks, step⟩ := match_head_cases head
  rw [step.names] at unnamed
  have kept : ∀ (h : Resting Price Id) rest, r ∈ rest → r ∈ settle h rest := by
    intro h rest inside
    unfold settle
    split
    · exact inside
    · exact List.mem_cons_of_mem _ inside
  cases s
  · rw [side_false, step.askHead] at member
    rw [side_false, step.asksAfter]
    rcases List.mem_cons.mp member with same | rest
    · exact absurd (Or.inr (congrArg (fun q => q.order.orderId) same.symm)) unnamed
    · exact kept _ _ rest
  · rw [side_true, step.bidHead] at member
    rw [side_true, step.bidsAfter]
    rcases List.mem_cons.mp member with same | rest
    · exact absurd (Or.inl (congrArg (fun q => q.order.orderId) same.symm)) unnamed
    · exact kept _ _ rest

theorem matches_unnamed (run : Matches l ts k) {s : Bool} {r : Resting Price Id}
    (member : r ∈ l.side s) (unnamed : ∀ t ∈ ts, ¬ t.Names r.order.orderId) : r ∈ k.side s := by
  induction run with
  | done => exact member
  | trade head tail ih =>
    have first := head_trade_unnamed head member (unnamed _ (by simp))
    exact ih first fun t later => unnamed t (by simp [later])

end Trades
end LiveBook

variable [DecidableEq Id]

theorem run_working {layout : Layout} {poolSize : Nat} {calls : List (Call Price Id)}
    {s : Session Price Id} {bound : Int}
    (run : Run (Guarded Step (Fresh bound)) (.create layout poolSize) calls s) :
    s.book.live.Working := by
  apply run_resting (fun head working => LiveBook.working_trade working head)
    (fun rec fresh => fresh.unshared rec) _ run
  intro s stamp id symbol price quantity isBuy _
  exact Or.inl rfl

structure Settled (b c : OrderBook Price Id) (ts : List (Trade Price Id)) : Prop where
  uncrossed : ∀ bid ∈ c.live.bids, ∀ ask ∈ c.live.asks, bid.order.price < ask.order.price
  working : ∀ r ∈ c.live.all, (r.order.status = .new ∨ r.order.status = .partiallyFilled) ∧
    r.order.filledQuantity < r.order.quantity
  others : ∀ side, ∀ r ∈ b.live.side side, (∀ t ∈ ts, ¬ t.Names r.order.orderId) →
    r ∈ c.live.side side
  again : ∀ fuel, c.matchOrders (fuel + 1) = .ok ([], c)

/-- match_orders returns, and it leaves an uncrossed book of orders that still want
    something; whatever it did not trade is unchanged and a second call does nothing. -/
theorem match_orders_settles {layout : Layout} {poolSize : Nat} {calls : List (Call Price Id)}
    {s : Session Price Id}
    (run : Run (Guarded Step (Fresh quantityBound)) (.create layout poolSize) calls s) :
    (∃ fuel ts c, s.book.matchOrders fuel = .ok (ts, c)) ∧
    ∀ fuel ts c, s.book.matchOrders fuel = .ok (ts, c) → Settled s.book c ts := by
  refine ⟨⟨_, match_orders_returns (fresh_run_admissible run)⟩, ?_⟩
  intro fuel ts c done
  have well := (fresh_run_history run).recorded.well
  obtain ⟨well', trades, stopped, _⟩ := OrderBook.match_orders_sound well done
  have wanting := (LiveBook.open_matches (run_open (fresh_run_admissible run)) trades).1
  have working := LiveBook.matches_keep
    (fun head working => LiveBook.working_trade working head) trades (run_working run)
  exact {
    uncrossed := fun bid hb ask ha => LiveBook.apart_of_stopped well'.queue_ahead stopped hb ha
    working := fun r member => ⟨working r member, (wanting r member).2.1⟩
    others := fun side r member unnamed => LiveBook.matches_unnamed trades member unnamed
    again := fun fuel => OrderBook.match_orders_stopped well' stopped }

theorem match_orders_settles_two_asks : ∃ (s : Session Int Nat) (c : OrderBook Int Nat)
    (ts : List (Trade Int Nat)),
    Run (Guarded Step (Fresh quantityBound)) (.create ⟨4096, 64, by decide⟩ 4)
      [.addOrder 1 "AAPL" 101 60 false, .addOrder 2 "AAPL" 101 5 false,
       .addOrder 3 "AAPL" 102 40 true] s ∧
      s.book.matchOrders 4 = .ok (ts, c) ∧ ts = [⟨3, 1, 101, 40⟩] ∧ Settled s.book c ts := by
  have replayed : ∃ s c ts, replay (Session.attempt (Fresh quantityBound) 4)
      (.create ⟨4096, 64, by decide⟩ 4 : Session Int Nat)
      [.addOrder 1 "AAPL" 101 60 false, .addOrder 2 "AAPL" 101 5 false,
       .addOrder 3 "AAPL" 102 40 true] = some s ∧
      s.book.matchOrders 4 = .ok (ts, c) ∧ ts = [⟨3, 1, 101, 40⟩] := ⟨_, _, _, rfl, rfl, rfl⟩
  obtain ⟨s, c, ts, done, matched, trades⟩ := replayed
  have run := run_of_replay attempt_step done
  exact ⟨s, c, ts, run, matched, trades, (match_orders_settles run).2 4 ts c matched⟩

def Party (placed : List (Resting Price Id)) (d : OrderBook Price Id) (side : Bool) (id : Id)
    (accepts : Price → Prop) : Prop :=
  ∃ p ∈ placed, p.order.orderId = id ∧ p.order.isBuy = side ∧ accepts p.order.price ∧
    ∃ r ∈ d.live.side side, r.stamp = p.stamp ∧ SameTerms r.order p.order

structure ValidTrade (placed : List (Resting Price Id)) (d : OrderBook Price Id)
    (t : Trade Price Id) : Prop where
  buyer : Party placed d true t.buyOrderId fun limit => t.price ≤ limit
  seller : Party placed d false t.sellOrderId fun limit => limit ≤ t.price
  positive : 0 < t.quantity

omit [DecidableEq Id] in
theorem History.party {bound : Int} {s : Session Price Id} (history : History bound s)
    {d : OrderBook Price Id} (well : d.WellFormed) {ts : List (Trade Price Id)}
    (run : LiveBook.Matches s.book.live ts d.live) {side : Bool} {r : Resting Price Id}
    (rests : r ∈ d.live.side side) (accepts : Price → Prop) (agreed : accepts r.order.price) :
    Party s.placed d side r.order.orderId accepts := by
  obtain ⟨q, before, stamp, terms⟩ := LiveBook.matches_side_came run rests
  obtain ⟨p, placed, stamp', terms'⟩ :=
    history.recorded.came q (LiveBook.mem_all.mpr ⟨side, before⟩)
  have same := terms.trans terms'
  refine ⟨p, placed, same.orderId.symm, ?_, same.price ▸ agreed, r, rests, ?_, same⟩
  · rw [← same.isBuy]
    exact well.live_is_buy rests
  · exact (stamp'.trans stamp).symm

/-- Every trade that match_orders returns is valid in the book that the loop had
    reached when it made the trade. -/
theorem trades_valid {layout : Layout} {poolSize : Nat} {calls : List (Call Price Id)}
    {s : Session Price Id}
    (run : Run (Guarded Step (Fresh quantityBound)) (.create layout poolSize) calls s)
    {fuel : Nat} {ts : List (Trade Price Id)} {c : OrderBook Price Id}
    (done : s.book.matchOrders fuel = .ok (ts, c)) {before after : List (Trade Price Id)}
    {t : Trade Price Id} (split : ts = before ++ t :: after) :
    ∃ d e, s.book.Iterated before d ∧ d.matchOnce = .ok (some (t, e)) ∧ e.Iterated after c ∧
      ValidTrade s.placed d t := by
  subst split
  have history := fresh_run_history run
  obtain ⟨loop, _⟩ := OrderBook.match_orders_iterated done
  obtain ⟨d, e, first, once, rest⟩ := OrderBook.iterated_split loop
  obtain ⟨well, matched⟩ := OrderBook.iterated_matches history.recorded.well first
  have wanting := (LiveBook.open_matches (run_open (fresh_run_admissible run)) matched).1
  obtain ⟨bid, ask, bids, asks, step⟩ :=
    LiveBook.match_head_cases (OrderBook.match_once_trade well once)
  have bidRests : bid ∈ d.live.side true := by
    rw [LiveBook.side_true, step.bidHead]
    simp
  have askRests : ask ∈ d.live.side false := by
    rw [LiveBook.side_false, step.askHead]
    simp
  have buyer := history.party well matched bidRests fun limit => t.price ≤ limit
  have seller := history.party well matched askRests fun limit => limit ≤ t.price
  refine ⟨d, e, first, once, rest, ?_, ?_, ?_⟩
  · rw [step.trade] at buyer ⊢
    exact buyer step.crosses
  · rw [step.trade] at seller ⊢
    exact seller le_rfl
  · have buy := wanting bid (step.mem_before.mpr (Or.inl rfl))
    have sell := wanting ask (step.mem_before.mpr (Or.inr (Or.inl rfl)))
    have quantity := step.quantity
    simp only [Resting.Open] at buy sell
    omega

theorem trades_valid_second : ∃ (s : Session Int Nat) (d : OrderBook Int Nat),
    Run (Guarded Step (Fresh quantityBound)) (.create ⟨4096, 64, by decide⟩ 4)
      [.addOrder 1 "AAPL" 101 40 true, .addOrder 2 "AAPL" 101 60 true,
       .addOrder 3 "AAPL" 100 90 false] s ∧
      s.book.Iterated [⟨1, 3, 100, 40⟩] d ∧ ValidTrade s.placed d ⟨2, 3, 100, 60⟩ := by
  have replayed : ∃ s c, replay (Session.attempt (Fresh quantityBound) 4)
      (.create ⟨4096, 64, by decide⟩ 4 : Session Int Nat)
      [.addOrder 1 "AAPL" 101 40 true, .addOrder 2 "AAPL" 101 60 true,
       .addOrder 3 "AAPL" 100 90 false] = some s ∧
      s.book.matchOrders 4 = .ok ([⟨1, 3, 100, 40⟩] ++ ⟨2, 3, 100, 60⟩ :: [], c) :=
    ⟨_, _, rfl, rfl⟩
  obtain ⟨s, c, done, matched⟩ := replayed
  have run := run_of_replay attempt_step done
  obtain ⟨d, e, first, _, _, valid⟩ := trades_valid run matched rfl
  exact ⟨s, d, run, first, valid⟩

end Phase4
