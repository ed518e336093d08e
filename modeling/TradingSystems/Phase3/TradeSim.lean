import TradingSystems.Phase3.FeedParser
import TradingSystems.Phase3.MarketSnapshot
import TradingSystems.Phase3.OrderManager
import Mathlib.Data.List.Destutter
import Mathlib.Data.List.Infix

/- The event loop of the simulator: every event of the feed goes to the snapshot or to the
   order manager, and then the strategy looks at the best bid. What it prints is left out. -/
namespace Phase3

def shouldSell (snapshot : MarketSnapshot ℚ) : Bool :=
  match snapshot.getBestBid with
  | some bestBid => 100 < bestBid.price
  | none => false

structure TradeSim where
  snapshot : MarketSnapshot ℚ
  om : OrderManager ℚ
  lastSellPrice : ℚ

namespace TradeSim

def create : TradeSim := ⟨.create, .create, -1⟩

def event (s : TradeSim) (e : FeedEvent) : TradeSim :=
  match e.type with
  | .bid => { s with snapshot := s.snapshot.updateBid e.price e.quantity }
  | .ask => { s with snapshot := s.snapshot.updateAsk e.price e.quantity }
  | .execution => { s with om := s.om.handleFill e.orderId e.quantity }
  | .unknown => s

def sell (s : TradeSim) : TradeSim :=
  if shouldSell s.snapshot then
    match s.snapshot.getBestBid with
    | some bestBid =>
      if bestBid.price ≠ s.lastSellPrice then
        { s with om := (s.om.placeOrder .sell bestBid.price 50).2, lastSellPrice := bestBid.price }
      else s
    | none => s
  else s

def round (s : TradeSim) (e : FeedEvent) : TradeSim := (s.event e).sell

def run (feed : List FeedEvent) : TradeSim := feed.foldl round create

end TradeSim
open TradeSim

def FeedEvent.snapshotCall (e : FeedEvent) : Option (SnapshotCall ℚ) :=
  match e.type with
  | .bid => some (.updateBid e.price e.quantity)
  | .ask => some (.updateAsk e.price e.quantity)
  | _ => none

def market (feed : List FeedEvent) : MarketSnapshot ℚ :=
  (feed.filterMap FeedEvent.snapshotCall).foldl MarketSnapshot.call .create

def bestBidPrice (feed : List FeedEvent) : Option ℚ := (market feed).getBestBid.map PriceLevel.price

/-- The best bid price after each event, where there is one. -/
def bestBidPrices (feed : List FeedEvent) : List ℚ := feed.inits.tail.filterMap bestBidPrice

def highPrices (feed : List FeedEvent) : List ℚ := (bestBidPrices feed).filter fun p => 100 < p

def soldPrices (feed : List FeedEvent) : List ℚ := (highPrices feed).destutter (· ≠ ·)

section Collapsing
variable {α : Type} [DecidableEq α]

theorem destutter_from_snoc (a x : α) (xs : List α) :
    (xs ++ [x]).destutter' (· ≠ ·) a =
      if (a :: xs).getLast? = some x then xs.destutter' (· ≠ ·) a
      else xs.destutter' (· ≠ ·) a ++ [x] := by
  induction xs generalizing a with
  | nil => by_cases same : a = x <;> simp [same]
  | cons b xs ih =>
    rw [List.cons_append, List.destutter'_cons, List.destutter'_cons, List.getLast?_cons_cons]
    by_cases same : a = b
    · subst same
      simp only [ne_eq, not_true_eq_false, ↓reduceIte]
      exact ih a
    · simp only [ne_eq, same, not_false_eq_true, ↓reduceIte, ih b]
      split_ifs <;> rfl

theorem destutter_snoc (xs : List α) (x : α) :
    (xs ++ [x]).destutter (· ≠ ·) =
      if xs.getLast? = some x then xs.destutter (· ≠ ·) else xs.destutter (· ≠ ·) ++ [x] := by
  cases xs with
  | nil => simp
  | cons a xs => exact destutter_from_snoc a x xs

end Collapsing

section Prices
variable {feed : List FeedEvent} {e : FeedEvent} {s : TradeSim}

theorem run_snoc (feed : List FeedEvent) (e : FeedEvent) :
    run (feed ++ [e]) = (run feed).round e := by
  rw [run, List.foldl_append]
  rfl

theorem market_snoc (feed : List FeedEvent) (e : FeedEvent) :
    market (feed ++ [e]) = e.snapshotCall.elim (market feed) (market feed).call := by
  rw [market, List.filterMap_append, List.foldl_append]
  cases call : e.snapshotCall <;> simp [call, market]

theorem best_bid_prices_snoc (feed : List FeedEvent) (e : FeedEvent) :
    bestBidPrices (feed ++ [e]) = bestBidPrices feed ++ (bestBidPrice (feed ++ [e])).toList := by
  have start : feed.inits ≠ [] := by
    cases feed <;> simp
  rw [bestBidPrices, List.inits_append, List.tail_append_of_ne_nil start, List.filterMap_append]
  cases price : bestBidPrice (feed ++ [e]) <;> simp [price, bestBidPrices]

/-- The price at which the strategy would sell. -/
def wanted (snapshot : MarketSnapshot ℚ) : Option ℚ :=
  (snapshot.getBestBid.map PriceLevel.price).filter fun p => 100 < p

theorem high_prices_snoc (feed : List FeedEvent) (e : FeedEvent) :
    highPrices (feed ++ [e]) = highPrices feed ++ (wanted (market (feed ++ [e]))).toList := by
  rw [highPrices, best_bid_prices_snoc, List.filter_append, highPrices, wanted, ← bestBidPrice]
  refine congrArg (List.append _) ?_
  cases bestBidPrice (feed ++ [e]) with
  | none => rfl
  | some p => by_cases high : 100 < p <;> simp [Option.filter, high]

theorem event_snapshot (s : TradeSim) (e : FeedEvent) :
    (s.event e).snapshot = e.snapshotCall.elim s.snapshot s.snapshot.call := by
  unfold event FeedEvent.snapshotCall
  cases e.type <;> rfl

theorem event_last (s : TradeSim) (e : FeedEvent) :
    (s.event e).lastSellPrice = s.lastSellPrice := by
  unfold event
  cases e.type <;> rfl

theorem sell_cases (s : TradeSim) :
    (∃ p, wanted s.snapshot = some p ∧ p ≠ s.lastSellPrice ∧
      s.sell = { s with om := (s.om.placeOrder .sell p 50).2, lastSellPrice := p }) ∨
    ((∀ p, wanted s.snapshot = some p → p = s.lastSellPrice) ∧ s.sell = s) := by
  unfold sell shouldSell wanted
  cases best : s.snapshot.getBestBid with
  | none => exact .inr ⟨by simp, rfl⟩
  | some bestBid =>
    by_cases high : 100 < bestBid.price
    · by_cases again : bestBid.price = s.lastSellPrice
      · exact .inr ⟨by simp [again], by simp [again]⟩
      · exact .inl ⟨bestBid.price, by simp [high], again, by simp [high, again]⟩
    · exact .inr ⟨by simp [high], by simp [high]⟩

/-- The loop keeps the snapshot of its feed and the last of the high prices. -/
structure Follows (s : TradeSim) (feed : List FeedEvent) : Prop where
  snapshot : s.snapshot = market feed
  last : s.lastSellPrice = (highPrices feed).getLast?.getD (-1)

theorem wanted_high {snapshot : MarketSnapshot ℚ} {p : ℚ} (price : wanted snapshot = some p) :
    100 < p := by
  rw [wanted, Option.filter_eq_some_iff] at price
  simpa using price.2

theorem again_iff (follows : Follows s feed) {snapshot : MarketSnapshot ℚ} {p : ℚ}
    (price : wanted snapshot = some p) :
    p = s.lastSellPrice ↔ (highPrices feed).getLast? = some p := by
  have high := wanted_high price
  rw [follows.last]
  cases (highPrices feed).getLast? with
  | none =>
    have low : p ≠ -1 := by
      rintro rfl
      norm_num at high
    simpa using low
  | some last => simp [eq_comm]

/-- A round adds its wanted price to the high prices, and sells exactly when that is a new one. -/
theorem round_cases (follows : Follows s feed) (e : FeedEvent) :
    (∃ p, soldPrices (feed ++ [e]) = soldPrices feed ++ [p] ∧
      s.round e = { s.event e with
        om := ((s.event e).om.placeOrder .sell p 50).2, lastSellPrice := p } ∧
      (highPrices (feed ++ [e])).getLast? = some p) ∨
    (soldPrices (feed ++ [e]) = soldPrices feed ∧ s.round e = s.event e ∧
      (highPrices (feed ++ [e])).getLast? = (highPrices feed).getLast?) := by
  have next : (s.event e).snapshot = market (feed ++ [e]) := by
    rw [event_snapshot, follows.snapshot, market_snoc]
  have prices := high_prices_snoc feed e
  rw [soldPrices, prices, ← next]
  obtain ⟨p, price, new, sold⟩ | ⟨old, same⟩ := sell_cases (s.event e)
  · rw [event_last, Ne, again_iff follows price] at new
    refine .inl ⟨p, ?_, sold, by simp [price]⟩
    rw [price, Option.toList_some, destutter_snoc, if_neg new, soldPrices]
  · cases price : wanted (s.event e).snapshot with
    | none => exact .inr ⟨by simp [soldPrices], same, by simp⟩
    | some p =>
      have again := (again_iff follows price).mp ((old p price).trans (event_last s e))
      refine .inr ⟨?_, same, by simp [again]⟩
      rw [Option.toList_some, destutter_snoc, if_pos again, soldPrices]

theorem run_follows (feed : List FeedEvent) : Follows (run feed) feed := by
  induction feed using List.reverseRecOn with
  | nil => exact ⟨rfl, rfl⟩
  | append_singleton feed e ih =>
    rw [run_snoc]
    have next : ((run feed).event e).snapshot = market (feed ++ [e]) := by
      rw [event_snapshot, ih.snapshot, market_snoc]
    obtain ⟨p, -, sold, last⟩ | ⟨-, same, last⟩ := round_cases ih e
    · exact ⟨by rw [sold, next], by rw [sold, last]; rfl⟩
    · exact ⟨by rw [same, next], by rw [same, event_last, last, ih.last]⟩

end Prices

section Orders
variable {om : OrderManager ℚ} {prices feed : List ℚ}

/-- The orders are those of the prices, in order, whatever has been filled of them. -/
structure Sold (om : OrderManager ℚ) (prices : List ℚ) : Prop where
  next : om.nextId = prices.length + 1
  placed : ∀ (k : Nat) p, prices[k]? = some p →
    ∃ filled status, om.orders (k + 1) = some ⟨k + 1, .sell, p, 50, filled, status⟩
  only : ∀ id o, om.orders id = some o → 1 ≤ id ∧ id ≤ prices.length

theorem sold_fill (sold : Sold om prices) (id n : Int) : Sold (om.handleFill id n) prices := by
  refine ⟨(handle_fill_changes om id n).2.trans sold.next, ?_, ?_⟩
  · intro k p price
    obtain ⟨filled, status, held⟩ := sold.placed k p price
    rw [handle_fill_orders, held, Option.map_some]
    split_ifs
    · exact ⟨_, _, rfl⟩
    · exact ⟨filled, status, rfl⟩
  · intro other o held
    rw [handle_fill_orders, Option.map_eq_some_iff] at held
    obtain ⟨before, held, -⟩ := held
    exact sold.only other before held

theorem sold_place (sold : Sold om prices) (p : ℚ) :
    Sold (om.placeOrder .sell p 50).2 (prices ++ [p]) := by
  refine ⟨by simp [OrderManager.placeOrder, sold.next], ?_, ?_⟩
  · intro k q price
    rw [place_order_orders, sold.next]
    by_cases newest : k = prices.length
    · subst newest
      rw [List.getElem?_concat_length, Option.some.injEq] at price
      subst price
      exact ⟨0, .new, by simp [MyOrder.create]⟩
    · have older : prices[k]? = some q := by
        rwa [List.getElem?_append_left] at price
        have bound := (List.getElem?_eq_some_iff.mp price).1
        simp at bound
        omega
      rw [if_neg (by omega)]
      exact sold.placed k q older
  · intro id o held
    rw [place_order_orders, sold.next] at held
    rw [List.length_append, List.length_singleton]
    split_ifs at held with newest
    · omega
    · have older := sold.only id o held
      omega

theorem sold_event {s : TradeSim} (sold : Sold s.om prices) (e : FeedEvent) :
    Sold (s.event e).om prices := by
  unfold event
  cases e.type with
  | execution => exact sold_fill sold e.orderId e.quantity
  | bid => exact sold
  | ask => exact sold
  | unknown => exact sold

theorem run_sold (feed : List FeedEvent) : Sold (run feed).om (soldPrices feed) := by
  induction feed using List.reverseRecOn with
  | nil =>
    refine ⟨rfl, ?_, ?_⟩
    · simp [soldPrices, highPrices, bestBidPrices]
    · intro id o held
      cases held
  | append_singleton feed e ih =>
    rw [run_snoc]
    obtain ⟨p, prices, sold, -⟩ | ⟨prices, same, -⟩ := round_cases (run_follows feed) e
    · rw [prices, sold]
      exact sold_place (sold_event ih e) p
    · rw [prices, same]
      exact sold_event ih e

theorem sold_prices_grow (feed after : List FeedEvent) :
    soldPrices feed <+: soldPrices (feed ++ after) := by
  induction after using List.reverseRecOn with
  | nil => simp
  | append_singleton after e ih =>
    rw [← List.append_assoc]
    obtain ⟨p, prices, -⟩ | ⟨prices, -⟩ := round_cases (run_follows (feed ++ after)) e
    · rw [prices]
      exact ih.trans (List.prefix_append _ _)
    · rw [prices]
      exact ih

/-- After every feed, the orders sell 50 each at the high prices of the best bid, in order, runs
    of one price taken together; what comes later adds to them. -/
theorem strategy_sells (feed after : List FeedEvent) :
    Sold (run feed).om (soldPrices feed) ∧ soldPrices feed <+: soldPrices (feed ++ after) :=
  ⟨run_sold feed, sold_prices_grow feed after⟩

theorem strategy_sells_returning :
    let feed : List FeedEvent := [⟨.bid, 101, 5, -1⟩, ⟨.bid, 101, 0, -1⟩, ⟨.bid, 99, 1, -1⟩,
      ⟨.bid, 101, 2, -1⟩, ⟨.bid, 102, 1, -1⟩]
    (run feed).om.nextId = 3 ∧
      ∃ filled status, (run feed).om.orders 2 = some ⟨2, .sell, 102, 50, filled, status⟩ := by
  intro feed
  have prices : soldPrices feed = [101, 102] := by decide
  have sold := (strategy_sells feed []).1
  rw [prices] at sold
  exact ⟨sold.next, sold.placed 1 102 rfl⟩

end Orders
end Phase3
