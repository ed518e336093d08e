import TradingSystems.Phase4.BookRuns

/- Books whose orders still want something. While quantities are positive and small
   enough for an `int`, every trade fills the smaller of its two orders, so the
   matching loop ends after at most one trade for each order at rest. -/
namespace Phase4
open Runs
variable {Price Id : Type}

/-- The largest quantity whose fills cannot overflow. -/
def quantityBound : Int := 2 ^ 30

def Resting.Open (r : Resting Price Id) : Prop :=
  0 ≤ r.order.filledQuantity ∧ r.order.filledQuantity < r.order.quantity ∧
    r.order.quantity ≤ quantityBound

theorem open_fill {r : Resting Price Id} (unfilled : r.Open) {q : Int} (positive : 0 < q)
    (small : q ≤ quantityBound) :
    ((r.order.updateFilled q).status = .filled ↔
      r.order.quantity ≤ r.order.filledQuantity + q) ∧
    ((r.order.updateFilled q).status ≠ .filled → (r.fill q).Open) := by
  obtain ⟨started, short, range⟩ := unfilled
  simp only [quantityBound] at range small
  obtain ⟨sum, filled⟩ := update_filled_status started positive (by simp only [intMax]; omega)
  refine ⟨filled, fun unfilled => ?_⟩
  have still := mt filled.mpr unfilled
  simp only [Resting.Open, fill_order, update_filled_quantity, sum, quantityBound]
  omega

variable [LinearOrder Price]

namespace LiveBook

def Open (l : LiveBook Price Id) : Prop := ∀ r ∈ l.all, r.Open

section OneTrade
variable {l m : LiveBook Price Id} {t : Trade Price Id} {bid ask : Resting Price Id}
  {bids asks : List (Resting Price Id)}

theorem HeadTrade.fills (step : HeadTrade l t m bid ask bids asks) (wanting : l.Open) :
    (((bid.order.updateFilled t.quantity).status = .filled ↔
        bid.order.quantity ≤ bid.order.filledQuantity + t.quantity) ∧
      ((bid.order.updateFilled t.quantity).status ≠ .filled → (bid.fill t.quantity).Open)) ∧
    (((ask.order.updateFilled t.quantity).status = .filled ↔
        ask.order.quantity ≤ ask.order.filledQuantity + t.quantity) ∧
      ((ask.order.updateFilled t.quantity).status ≠ .filled → (ask.fill t.quantity).Open)) := by
  have bidOpen := wanting bid (step.mem_before.mpr (Or.inl rfl))
  have askOpen := wanting ask (step.mem_before.mpr (Or.inr (Or.inl rfl)))
  have quantity := step.quantity
  have positive : 0 < t.quantity := by
    simp only [Resting.Open] at bidOpen askOpen
    omega
  have small : t.quantity ≤ quantityBound := by
    have range := bidOpen.2.2
    omega
  exact ⟨open_fill bidOpen positive small, open_fill askOpen positive small⟩

theorem HeadTrade.someone_filled (step : HeadTrade l t m bid ask bids asks) (wanting : l.Open) :
    (bid.order.updateFilled t.quantity).status = .filled ∨
      (ask.order.updateFilled t.quantity).status = .filled := by
  have bidOpen := wanting bid (step.mem_before.mpr (Or.inl rfl))
  have askOpen := wanting ask (step.mem_before.mpr (Or.inr (Or.inl rfl)))
  obtain ⟨bidFill, askFill⟩ := step.fills wanting
  have quantity := step.quantity
  simp only [Resting.Open] at bidOpen askOpen
  rw [bidFill.1, askFill.1]
  omega

theorem HeadTrade.someone_gone (step : HeadTrade l t m bid ask bids asks) (wanting : l.Open)
    (distinct : l.ids.Nodup) :
    ¬ m.Rests bid.order.orderId ∨ ¬ m.Rests ask.order.orderId := by
  have kept : ∀ (r : Resting Price Id) n, (r.fill n).order.orderId = r.order.orderId :=
    fun _ _ => rfl
  rcases step.someone_filled wanting with filled | filled
  · refine Or.inl fun rests => ?_
    obtain ⟨r, member, named⟩ := rests_iff.mp rests
    exact step.bid_gone kept distinct filled r member named
  · refine Or.inr fun rests => ?_
    obtain ⟨r, member, named⟩ := rests_iff.mp rests
    exact step.ask_gone kept distinct filled r member named

end OneTrade

theorem open_trade {l m : LiveBook Price Id} {t : Trade Price Id} (wanting : l.Open)
    (head : l.matchHead = some (t, m)) : m.Open ∧ m.all.length < l.all.length := by
  obtain ⟨bid, ask, bids, asks, step⟩ := match_head_cases head
  obtain ⟨bidFill, askFill⟩ := step.fills wanting
  constructor
  · intro r member
    rcases step.mem_after.mp member with ⟨same, unfilled⟩ | ⟨same, unfilled⟩ | other
    · exact same ▸ bidFill.2 unfilled
    · exact same ▸ askFill.2 unfilled
    · exact wanting r (step.mem_before.mpr (Or.inr (Or.inr other)))
  · exact step.shrinks (step.someone_filled wanting)

theorem open_matches {l k : LiveBook Price Id} {ts : List (Trade Price Id)} (wanting : l.Open)
    (run : Matches l ts k) : k.Open ∧ k.all.length + ts.length ≤ l.all.length := by
  induction run with
  | done => exact ⟨wanting, by simp⟩
  | trade head tail ih =>
    have step := open_trade wanting head
    have rest := ih step.1
    exact ⟨rest.1, by simp only [List.length_cons]; omega⟩

theorem open_matches_fewer {l k : LiveBook Price Id} {ts : List (Trade Price Id)}
    (wanting : l.Open) (run : Matches l ts k) : ts.length ≤ l.all.length - 1 := by
  induction run with
  | done => simp
  | @trade l m k t ts head tail ih =>
    obtain ⟨bid, ask, bids, asks, step⟩ := match_head_cases head
    obtain ⟨wanting', shrinks⟩ := open_trade wanting head
    have rest := ih wanting'
    have two : 2 ≤ l.all.length := by
      simp only [all, step.bidHead, step.askHead, List.length_append, List.length_cons]
      omega
    simp only [List.length_cons]
    omega

theorem open_terminates {l : LiveBook Price Id} (wanting : l.Open) :
    ∃ ts k, Matches l ts k ∧ k.matchHead = none := by
  refine shrinking_terminates LiveBook.Open ?_ wanting
  intro l t m wanting head
  obtain ⟨wanting', smaller⟩ := open_trade wanting head
  exact ⟨[t], m, .trade head (.done m), smaller, wanting'⟩

end LiveBook

variable [DecidableEq Id]

section Reached
variable {layout : Layout} {poolSize : Nat} {calls : List (Call Price Id)} {s : Session Price Id}

theorem fresh_run_admissible
    (run : Run (Guarded Step (Fresh quantityBound)) (.create layout poolSize) calls s) :
    Run (Guarded Step Admissible) (.create layout poolSize) calls s := by
  induction run with
  | nil => exact .nil _
  | @snoc t u calls call before last ih =>
    refine ih.snoc ⟨last.1, ?_⟩
    have recorded := (fresh_run_history before).recorded
    cases call with
    | addOrder => exact ⟨last.2.unshared recorded, last.2.2⟩
    | _ => trivial

theorem admissible_run_recorded
    (run : Run (Guarded Step Admissible) (.create layout poolSize) calls s) : Recorded s :=
  run_recorded (fun _ allowed => allowed.unshared) run

theorem run_open
    (run : Run (Guarded Step Admissible) (.create layout poolSize) calls s) :
    s.book.live.Open := by
  apply run_resting (fun head wanting => (LiveBook.open_trade wanting head).1)
    (fun _ allowed => allowed.unshared) _ run
  intro s stamp id symbol price quantity isBuy allowed
  exact ⟨le_rfl, allowed.2⟩

theorem match_orders_returns
    (run : Run (Guarded Step Admissible) (.create layout poolSize) calls s) :
    ∃ ts c, s.book.matchOrders (s.book.nodes.length + 1) = .ok (ts, c) := by
  have well := (admissible_run_recorded run).well
  obtain ⟨ts, k, trades, stopped⟩ := LiveBook.open_terminates (run_open run)
  have fewer := LiveBook.open_matches_fewer (run_open run) trades
  rw [well.live_length] at fewer
  have enough : ts.length < s.book.nodes.length + 1 := by omega
  obtain ⟨c, done, _⟩ := OrderBook.match_orders_complete well trades stopped enough
  exact ⟨ts, c, done⟩

/-- Both orders of a trade rest before it, and at least one of them is gone behind it. -/
structure TakesOff (d e : OrderBook Price Id) (t : Trade Price Id) : Prop where
  buyer : d.live.Rests t.buyOrderId
  seller : d.live.Rests t.sellOrderId
  gone : ¬ e.live.Rests t.buyOrderId ∨ ¬ e.live.Rests t.sellOrderId
  fewer : e.nodes.length < d.nodes.length

theorem takes_off {d e : OrderBook Price Id} {t : Trade Price Id} (well : d.WellFormed)
    (wanting : d.live.Open) (once : d.matchOnce = .ok (some (t, e))) : TakesOff d e t := by
  have head := OrderBook.match_once_trade well once
  have well' := (OrderBook.iterated_matches well (.next once (.start e))).1
  obtain ⟨bid, ask, bids, asks, step⟩ := LiveBook.match_head_cases head
  have shrinks := (LiveBook.open_trade wanting head).2
  have gone := step.someone_gone wanting well.ids_nodup
  rw [well.live_length, well'.live_length] at shrinks
  rw [step.trade]
  exact {
    buyer := LiveBook.rests_iff.mpr ⟨bid, step.mem_before.mpr (Or.inl rfl), rfl⟩
    seller := LiveBook.rests_iff.mpr ⟨ask, step.mem_before.mpr (Or.inr (Or.inl rfl)), rfl⟩
    gone := gone
    fewer := shrinks }

/-- A call of match_orders returns, it makes less trades than there are orders at rest,
    and each trade takes one of its two orders off the book that the loop had reached. -/
theorem match_orders_progress
    (run : Run (Guarded Step Admissible) (.create layout poolSize) calls s) :
    (∃ fuel ts c, s.book.matchOrders fuel = .ok (ts, c)) ∧
    ∀ fuel ts c, s.book.matchOrders fuel = .ok (ts, c) →
      ts.length ≤ s.book.nodes.length - 1 ∧
      ∀ before t after, ts = before ++ t :: after →
        ∃ d e, s.book.Iterated before d ∧ d.matchOnce = .ok (some (t, e)) ∧
          e.Iterated after c ∧ TakesOff d e t := by
  have well := (admissible_run_recorded run).well
  refine ⟨⟨_, match_orders_returns run⟩, ?_⟩
  intro fuel ts c done
  obtain ⟨loop, _⟩ := OrderBook.match_orders_iterated done
  constructor
  · rw [← well.live_length]
    exact LiveBook.open_matches_fewer (run_open run) (OrderBook.iterated_matches well loop).2
  · intro before t after split
    subst split
    obtain ⟨d, e, first, once, rest⟩ := OrderBook.iterated_split loop
    obtain ⟨well', matched⟩ := OrderBook.iterated_matches well first
    have wanting := (LiveBook.open_matches (run_open run) matched).1
    exact ⟨d, e, first, once, rest, takes_off well' wanting once⟩

theorem match_orders_progress_two_trades : ∃ (s : Session Int Nat) (c : OrderBook Int Nat)
    (ts : List (Trade Int Nat)),
    Run (Guarded Step Admissible) (.create ⟨4096, 64, by decide⟩ 4)
      [.addOrder 1 "AAPL" 101 40 true, .addOrder 2 "AAPL" 101 60 true,
       .addOrder 3 "AAPL" 100 90 false] s ∧
      s.book.matchOrders 4 = .ok (ts, c) ∧ ts.length = 2 ∧
      ts.length ≤ s.book.nodes.length - 1 := by
  have replayed : ∃ s c ts, replay (Session.attempt Admissible 4)
      (.create ⟨4096, 64, by decide⟩ 4 : Session Int Nat)
      [.addOrder 1 "AAPL" 101 40 true, .addOrder 2 "AAPL" 101 60 true,
       .addOrder 3 "AAPL" 100 90 false] = some s ∧
      s.book.matchOrders 4 = .ok (ts, c) ∧ ts.length = 2 := ⟨_, _, _, rfl, rfl, rfl⟩
  obtain ⟨s, c, ts, done, matched, two⟩ := replayed
  have run := run_of_replay attempt_step done
  exact ⟨s, c, ts, run, matched, two, ((match_orders_progress run).2 4 ts c matched).1⟩

end Reached
end Phase4
