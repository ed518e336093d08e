import TradingSystems.Phase4.BookRuns

/- Symbols. The book carries the symbol of each order and never compares it, so it
   commutes with forgetting symbols: runs that differ only in symbols make the same
   trades, and two instruments trade with each other whenever their prices cross. -/
namespace Phase4
open Runs
variable {Price Id : Type}

def Order.blind (o : Order Price Id) : Order Price Id := { o with symbol := "" }

def MemoryPool.map {T : Type} (f : T → T) (p : MemoryPool T) : MemoryPool T :=
  { p with slots := fun i => (p.slots i).map f }

namespace MemoryPool
variable {T : Type} (f : T → T) (p : MemoryPool T)

@[simp] theorem map_first_free : (p.map f).firstFree = p.firstFree := rfl

theorem map_deref (ptr : Nat) : (p.map f).deref ptr = (p.deref ptr).map f := rfl

theorem map_update (i : Nat) (object : Option T) :
    (fun j => (Function.update p.slots i object j).map f) =
      Function.update (p.map f).slots i (object.map f) := by
  funext j
  by_cases same : j = i
  · subst same
    simp
  · simp [Function.update_of_ne same, map]

theorem map_store (ptr : Nat) (object : T) :
    (p.store ptr object).map f = (p.map f).store ptr (f object) := by
  have slots := map_update f p (p.layout.index ptr) (some object)
  simp only [map, store, Option.map_some] at slots ⊢
  rw [slots]

theorem map_deallocate (ptr : Option Nat) :
    (p.deallocate ptr).map f = (p.map f).deallocate ptr := by
  cases ptr with
  | none => rfl
  | some ptr =>
    have slots := map_update f p (p.layout.index ptr) none
    simp only [map, Option.map_none] at slots
    simp only [map, deallocate, slots]
    rfl

theorem map_occupy (i : Nat) (object : T) :
    (p.occupy i object).map f = (p.map f).occupy i (f object) := by
  have slots := map_update f p i (some object)
  simp only [map, occupy, Option.map_some] at slots ⊢
  rw [slots]

end MemoryPool

namespace OrderBook

def blind (b : OrderBook Price Id) : OrderBook Price Id := { b with pool := b.pool.map Order.blind }

variable (b : OrderBook Price Id)

@[simp] theorem blind_buy_orders : b.blind.buyOrders = b.buyOrders := rfl
@[simp] theorem blind_sell_orders : b.blind.sellOrders = b.sellOrders := rfl
@[simp] theorem blind_id_lookup : b.blind.idLookup = b.idLookup := rfl

theorem blind_live_ids : b.blind.live.ids = b.live.ids := by
  have same : ∀ ns : List (Node Price),
      (ns.filterMap b.blind.resting).map (fun r => r.order.orderId) =
        (ns.filterMap b.resting).map fun r => r.order.orderId := by
    intro ns
    simp only [List.map_filterMap, resting, blind, MemoryPool.map_deref, Option.map_map]
    rfl
  rw [LiveBook.ids, LiveBook.ids, live_all, live_all]
  exact same _

theorem blind_order (ptr : Nat) : b.blind.order ptr = (b.order ptr).map Order.blind := by
  simp only [order, blind, MemoryPool.map_deref]
  cases b.pool.deref ptr <;> rfl

theorem blind_update_filled (ptr : Nat) (n : Int) :
    b.blind.updateFilled ptr n = (b.updateFilled ptr n).map blind := by
  simp only [updateFilled, blind_order]
  cases b.order ptr with
  | error e => rfl
  | ok o =>
    simp only [bind, Except.bind, Except.map, pure, Except.pure, blind, MemoryPool.map_store]
    rfl

theorem blind_node (it : Nat) : b.blind.node it = b.node it := rfl

variable [DecidableEq Id]

theorem blind_remove_order (id : Id) :
    b.blind.removeOrder id = (b.removeOrder id).map blind := by
  unfold removeOrder
  simp only [blind_node, blind_order, blind_id_lookup, blind_buy_orders, blind_sell_orders]
  cases b.idLookup id with
  | none => rfl
  | some it =>
    dsimp only
    cases b.node it with
    | error e => rfl
    | ok node =>
      simp only [bind, Except.bind]
      cases b.order node.order with
      | error e => rfl
      | ok o =>
        have pool := MemoryPool.map_deallocate Order.blind b.pool (some node.order)
        cases side : o.isBuy
        · simp only [Except.map, Order.blind, side, Bool.false_eq_true, ↓reduceIte]
          cases eraseNode it b.sellOrders with
          | error e => rfl
          | ok sells => exact congrArg Except.ok (by simp only [blind, pool])
        · simp only [Except.map, Order.blind, side, ↓reduceIte]
          cases erased : eraseNode it b.buyOrders with
          | error e => rfl
          | ok buys => exact congrArg Except.ok (by simp only [blind, pool])

theorem blind_remove_if_filled (ptr : Nat) :
    b.blind.removeIfFilled ptr = (b.removeIfFilled ptr).map blind := by
  simp only [removeIfFilled, blind_order]
  cases b.order ptr with
  | error e => rfl
  | ok o =>
    simp only [bind, Except.bind, Except.map, pure, Except.pure]
    by_cases filled : o.status = .filled
    · simp only [Order.blind, filled, ↓reduceIte, blind_remove_order]
      rfl
    · simp only [Order.blind, filled, ↓reduceIte]

variable [LinearOrder Price]

theorem blind_place (i : Nat) (o : Order Price Id) :
    (b.place i o).blind = b.blind.place i o.blind := by
  simp only [blind, place, MemoryPool.map_occupy]
  rfl

theorem blind_add_order (id : Id) (symbol : String) (price : Price) (quantity : Int)
    (isBuy : Bool) : (b.addOrder id symbol price quantity isBuy).blind =
      b.blind.addOrder id "" price quantity isBuy := by
  cases free : b.pool.firstFree with
  | none => rw [add_order_full free, add_order_full (b := b.blind) free]
  | some i =>
    rw [add_order_free free, add_order_free (b := b.blind) free, blind_place]
    rfl

theorem blind_match_once :
    b.blind.matchOnce = b.matchOnce.map (Option.map fun r => (r.1, r.2.blind)) := by
  unfold matchOnce getBestBid getBestAsk
  simp only [blind_order, blind_buy_orders, blind_sell_orders]
  cases b.buyOrders.head?.map Node.order with
  | none => rfl
  | some bestBid =>
    cases b.sellOrders.head?.map Node.order with
    | none => rfl
    | some bestAsk =>
      simp only [bind, Except.bind]
      cases b.order bestBid with
      | error e => rfl
      | ok bid =>
        cases b.order bestAsk with
        | error e => rfl
        | ok ask =>
          by_cases apart : bid.price < ask.price
          · simp only [Except.map, Order.blind, apart, ↓reduceIte]
            rfl
          · simp only [Except.map, Order.blind, apart, ↓reduceIte, blind_update_filled]
            cases b.updateFilled bestBid (min bid.quantity ask.quantity) with
            | error e => rfl
            | ok c =>
              simp only [Except.map, blind_update_filled]
              cases c.updateFilled bestAsk (min bid.quantity ask.quantity) with
              | error e => rfl
              | ok d =>
                simp only [Except.map, blind_remove_if_filled]
                cases d.removeIfFilled bestBid with
                | error e => rfl
                | ok e =>
                  simp only [Except.map, blind_remove_if_filled]
                  cases e.removeIfFilled bestAsk <;> rfl

theorem blind_match_orders (fuel : Nat) :
    b.blind.matchOrders fuel = (b.matchOrders fuel).map fun r => (r.1, r.2.blind) := by
  induction fuel generalizing b with
  | zero => rfl
  | succ fuel ih =>
    simp only [matchOrders, blind_match_once, bind, Except.bind]
    cases b.matchOnce with
    | error e => rfl
    | ok step =>
      cases step with
      | none => rfl
      | some result =>
        simp only [Except.map, Option.map_some, ih]
        cases result.2.matchOrders fuel <;> rfl

end OrderBook

/-- The call with its symbol left out. -/
def Call.blind : Call Price Id → Call Price Id
  | .addOrder id _ price quantity isBuy => .addOrder id "" price quantity isBuy
  | .removeOrder id => .removeOrder id
  | .matchOrders => .matchOrders

/-- Sessions whose books differ in nothing but symbols, with the same trades. -/
structure Twins (s s' : Session Price Id) : Prop where
  book : s'.book.blind = s.book.blind
  trades : s'.trades = s.trades

theorem map_eq_ok {Error A B : Type} {f : A → B} {x : Except Error A} {y : B}
    (mapped : x.map f = .ok y) : ∃ a, x = .ok a ∧ f a = y := by
  cases x with
  | error e => cases mapped
  | ok a => exact ⟨a, rfl, Except.ok.inj mapped⟩

section Simulation
variable {s t s' : Session Price Id} {call call' : Call Price Id}

theorem unshared_twins (twins : Twins s s') (same : call'.blind = call.blind)
    (allowed : Unshared s call) : Unshared s' call' := by
  have ids : s'.book.live.ids = s.book.live.ids := by
    rw [← OrderBook.blind_live_ids, twins.book, OrderBook.blind_live_ids]
  cases call' with
  | addOrder =>
    cases call <;> simp only [Call.blind, Call.addOrder.injEq, reduceCtorEq] at same
    obtain ⟨rfl, -⟩ := same
    simp only [Unshared, LiveBook.Rests, ids] at allowed ⊢
    exact allowed
  | removeOrder => trivial
  | matchOrders => trivial

variable [LinearOrder Price] [DecidableEq Id]

theorem step_twins (step : Step s call t) (twins : Twins s s')
    (same : call'.blind = call.blind) : ∃ t', Step s' call' t' ∧ Twins t t' := by
  have pool : s'.book.pool.firstFree = s.book.pool.firstFree :=
    congrArg (fun b => b.pool.firstFree) twins.book
  cases step with
  | accepted free id symbol price quantity isBuy =>
    cases call' <;> simp only [Call.blind, Call.addOrder.injEq, reduceCtorEq] at same
    obtain ⟨rfl, -, rfl, rfl, rfl⟩ := same
    refine ⟨_, .accepted (pool.trans free) _ _ _ _ _, ?_, twins.trades⟩
    rw [OrderBook.blind_add_order, OrderBook.blind_add_order, twins.book]
  | refused full id symbol price quantity isBuy =>
    cases call' <;> simp only [Call.blind, Call.addOrder.injEq, reduceCtorEq] at same
    obtain ⟨rfl, -, rfl, rfl, rfl⟩ := same
    refine ⟨_, .refused (pool.trans full) _ _ _ _ _, ?_, twins.trades⟩
    rw [OrderBook.blind_add_order, OrderBook.blind_add_order, twins.book]
  | @removeOrder id c done =>
    cases call' <;> simp only [Call.blind, Call.removeOrder.injEq, reduceCtorEq] at same
    obtain rfl := same.symm
    have removed := OrderBook.blind_remove_order s'.book id
    rw [twins.book, OrderBook.blind_remove_order, done] at removed
    obtain ⟨c', done', blind⟩ := map_eq_ok removed.symm
    exact ⟨_, .removeOrder done', blind, twins.trades⟩
  | @matchOrders fuel ts c done =>
    cases call' <;> simp only [Call.blind, reduceCtorEq] at same
    have matched := OrderBook.blind_match_orders s'.book fuel
    rw [twins.book, OrderBook.blind_match_orders, done] at matched
    obtain ⟨⟨ts', c'⟩, done', blind⟩ := map_eq_ok matched.symm
    obtain ⟨rfl, blind⟩ := Prod.mk.inj blind
    exact ⟨_, .matchOrders done', blind, congrArg (· ++ ts') twins.trades⟩

theorem run_twins {start : Session Price Id} {calls calls' : List (Call Price Id)}
    (run : Run (Guarded Step Unshared) start calls s)
    (same : calls'.map Call.blind = calls.map Call.blind) :
    ∃ s', Run (Guarded Step Unshared) start calls' s' ∧ Twins s s' := by
  induction run generalizing calls' with
  | nil =>
    cases List.map_eq_nil_iff.mp same
    exact ⟨start, .nil _, rfl, rfl⟩
  | snoc before last ih =>
    rw [List.map_append, List.map_cons, List.map_nil] at same
    obtain ⟨earlier, final, split, first, second⟩ := List.map_eq_append_iff.mp same
    obtain ⟨call', rest, rfl, one, none⟩ := List.map_eq_cons_iff.mp second
    cases List.map_eq_nil_iff.mp none
    obtain ⟨u, run', twins⟩ := ih first
    obtain ⟨t', step', twins'⟩ := step_twins last.1 twins one
    exact ⟨t', split ▸ run'.snoc ⟨step', unshared_twins twins one last.2⟩, twins'⟩

end Simulation

/-- The bid and the ask behind a trade: both were accepted, and their prices cross. -/
structure Pairs [LinearOrder Price] (placed : List (Resting Price Id)) (t : Trade Price Id)
    (bid ask : Resting Price Id) : Prop where
  bidPlaced : bid ∈ placed
  askPlaced : ask ∈ placed
  bought : bid.order.isBuy = true
  sold : ask.order.isBuy = false
  buyOrderId : bid.order.orderId = t.buyOrderId
  sellOrderId : ask.order.orderId = t.sellOrderId
  price : ask.order.price = t.price
  crosses : ask.order.price ≤ bid.order.price

/-- No bid reaches the price of an ask for another instrument. -/
def SymbolsApart [LinearOrder Price] (placed : List (Resting Price Id)) : Prop :=
  ∀ bid ∈ placed, ∀ ask ∈ placed, bid.order.isBuy = true → ask.order.isBuy = false →
    ask.order.price ≤ bid.order.price → bid.order.symbol = ask.order.symbol

section Pairing
variable [LinearOrder Price] {s t : Session Price Id} {call : Call Price Id}

theorem matches_paired {k : LiveBook Price Id} {ts : List (Trade Price Id)} (rec : Recorded s)
    (run : LiveBook.Matches s.book.live ts k) {t : Trade Price Id} (member : t ∈ ts) :
    ∃ bid ask, Pairs s.placed t bid ask := by
  obtain ⟨before, after, split⟩ := List.mem_iff_append.mp member
  subst split
  obtain ⟨m, first, rest⟩ := LiveBook.matches_split run
  -- an order at a head came, with its terms, from an accepted order of its side
  have origin : ∀ side, ∀ r ∈ m.side side, ∃ p ∈ s.placed,
      SameTerms r.order p.order ∧ p.order.isBuy = side := by
    intro side r inside
    obtain ⟨q, earlier, _, terms⟩ := LiveBook.matches_side_came first inside
    obtain ⟨p, placed, _, terms'⟩ := rec.came q (LiveBook.mem_all.mpr ⟨side, earlier⟩)
    have sided := rec.well.toSound.live_is_buy earlier
    exact ⟨p, placed, terms.trans terms', terms'.isBuy ▸ sided⟩
  cases rest with
  | trade head tail =>
    obtain ⟨bid, ask, bids, asks, step⟩ := LiveBook.match_head_cases head
    obtain ⟨p, placed, terms, bought⟩ := origin true bid (by simp [step.bidHead])
    obtain ⟨q, placed', terms', sold⟩ := origin false ask (by simp [step.askHead])
    have crosses := step.crosses
    rw [terms'.price, terms.price] at crosses
    refine ⟨p, q, placed, placed', bought, sold, ?_, ?_, ?_, crosses⟩
    · rw [step.trade, ← terms.orderId]
    · rw [step.trade, ← terms'.orderId]
    · rw [step.trade, ← terms'.price]

theorem Pairs.grow {placed more : List (Resting Price Id)} {t : Trade Price Id}
    {bid ask : Resting Price Id} (pair : Pairs placed t bid ask) :
    Pairs (placed ++ more) t bid ask :=
  { pair with
    bidPlaced := List.mem_append_left _ pair.bidPlaced
    askPlaced := List.mem_append_left _ pair.askPlaced }

variable [DecidableEq Id]

theorem step_paired (step : Step s call t) (rec : Recorded s)
    (paired : ∀ u ∈ s.trades, ∃ bid ask, Pairs s.placed u bid ask) :
    ∀ u ∈ t.trades, ∃ bid ask, Pairs t.placed u bid ask := by
  intro u member
  cases step with
  | accepted =>
    obtain ⟨bid, ask, pair⟩ := paired u member
    exact ⟨bid, ask, pair.grow⟩
  | refused => exact paired u member
  | removeOrder => exact paired u member
  | matchOrders done =>
    obtain ⟨_, run, _, _⟩ := OrderBook.match_orders_sound rec.well done
    rcases List.mem_append.mp member with old | new
    · exact paired u old
    · exact matches_paired rec run new

theorem run_paired {layout : Layout} {poolSize : Nat} {calls : List (Call Price Id)}
    (run : Run (Guarded Step Unshared) (.create layout poolSize) calls s) :
    ∀ u ∈ s.trades, ∃ bid ask, Pairs s.placed u bid ask := by
  induction run with
  | nil => simp [Session.create]
  | snoc before last ih => exact step_paired last.1 (run_recorded (fun _ => id) before) ih

/-- A trade pairs an accepted bid with an accepted ask whose prices cross, whatever
    their symbols: these agree when prices never cross between instruments, and the
    same calls with other symbols make the same trades. -/
theorem trades_ignore_symbols {layout : Layout} {poolSize : Nat} {calls : List (Call Price Id)}
    (run : Run (Guarded Step Unshared) (.create layout poolSize) calls s) :
    (∀ u ∈ s.trades, ∃ bid ask, Pairs s.placed u bid ask ∧
      (SymbolsApart s.placed → bid.order.symbol = ask.order.symbol)) ∧
    ∀ calls' : List (Call Price Id), calls'.map Call.blind = calls.map Call.blind →
      ∃ s', Run (Guarded Step Unshared) (.create layout poolSize) calls' s' ∧
        s'.trades = s.trades := by
  constructor
  · intro u member
    obtain ⟨bid, ask, pair⟩ := run_paired run u member
    exact ⟨bid, ask, pair, fun apart => apart bid pair.bidPlaced ask pair.askPlaced
      pair.bought pair.sold pair.crosses⟩
  · intro calls' same
    obtain ⟨s', run', twins⟩ := run_twins run same
    exact ⟨s', run', twins.trades⟩

end Pairing

/-- A bid for one instrument takes an ask for another. -/
theorem trade_across_symbols : ∃ s : Session Int Nat,
    Run (Guarded Step Unshared) (.create ⟨4096, 64, by decide⟩ 4)
      [.addOrder 1 "AAPL" 100 10 true, .addOrder 2 "GOOGL" 100 10 false, .matchOrders] s ∧
      ∃ t ∈ s.trades, ∀ bid ∈ s.placed, ∀ ask ∈ s.placed, bid.order.orderId = t.buyOrderId →
        ask.order.orderId = t.sellOrderId → bid.order.symbol ≠ ask.order.symbol := by
  have replayed : ∃ s, replay (Session.attempt Unshared 4)
      (.create ⟨4096, 64, by decide⟩ 4 : Session Int Nat)
      [.addOrder 1 "AAPL" 100 10 true, .addOrder 2 "GOOGL" 100 10 false, .matchOrders] = some s ∧
      ∃ t ∈ s.trades, ∀ bid ∈ s.placed, ∀ ask ∈ s.placed, bid.order.orderId = t.buyOrderId →
        ask.order.orderId = t.sellOrderId → bid.order.symbol ≠ ask.order.symbol :=
    ⟨_, rfl, by decide⟩
  obtain ⟨s, done, across⟩ := replayed
  exact ⟨s, run_of_replay attempt_step done, across⟩

theorem trades_ignore_symbols_crossing : ∃ s : Session Int Nat,
    Run (Guarded Step Unshared) (.create ⟨4096, 64, by decide⟩ 4)
      [.addOrder 1 "AAPL" 100 10 true, .addOrder 2 "GOOGL" 100 10 false, .matchOrders] s ∧
      s.trades = [⟨1, 2, 100, 10⟩] ∧
      ∃ s', Run (Guarded Step Unshared) (.create ⟨4096, 64, by decide⟩ 4)
        [.addOrder 1 "MSFT" 100 10 true, .addOrder 2 "MSFT" 100 10 false, .matchOrders] s' ∧
        s'.trades = s.trades := by
  have replayed : ∃ s, replay (Session.attempt Unshared 4)
      (.create ⟨4096, 64, by decide⟩ 4 : Session Int Nat)
      [.addOrder 1 "AAPL" 100 10 true, .addOrder 2 "GOOGL" 100 10 false, .matchOrders] = some s ∧
      s.trades = [⟨1, 2, 100, 10⟩] := ⟨_, rfl, rfl⟩
  obtain ⟨s, done, trades⟩ := replayed
  have run := run_of_replay attempt_step done
  exact ⟨s, run, trades, (trades_ignore_symbols run).2 _ rfl⟩

end Phase4
