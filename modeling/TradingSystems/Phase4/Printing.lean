import TradingSystems.Phase4.Symbols
import TradingSystems.Library.Formats

/- What print_order_book writes, line by line. The buys are printed from the worst to the
   best and the sells from the best to the worst, so that a book without a crossing shows
   its prices in one ascending column. How a price and an identifier are written is left
   to the stream. -/
namespace Phase4
open Runs Decimal Formats
variable {Price Id : Type}

/-- How the stream writes the two types of the template. -/
structure Writers (Price Id : Type) where
  price : Price → Text
  id : Id → Text

def printOrder (w : Writers Price Id) (o : Order Price Id) : Text :=
  "ID=".toList ++ w.id o.orderId ++ " Sym=".toList ++ o.symbol.toList ++
    " Price=".toList ++ w.price o.price ++ " Qty=".toList ++ showInt o.quantity ++
    " Side=".toList ++ (if o.isBuy then "Buy" else "Sell").toList

namespace OrderBook

def printSide (w : Writers Price Id) (b : OrderBook Price Id) :
    List (Node Price) → Except Stuck (List Text)
  | [] => return []
  | n :: nodes => do
    let o ← b.order n.order
    let lines ← b.printSide w nodes
    return printOrder w o :: lines

def printOrderBook (w : Writers Price Id) (b : OrderBook Price Id) : Except Stuck (List Text) := do
  let buys ← b.printSide w b.buyOrders.reverse
  let sells ← b.printSide w b.sellOrders
  return "Buy Orders:".toList :: buys ++ "Sell Orders:".toList :: sells

section Printed
variable [LinearOrder Price] {w : Writers Price Id} {b : OrderBook Price Id}

theorem print_side_live (sound : b.Sound) (nodes : List (Node Price))
    (inside : ∀ n ∈ nodes, n ∈ b.nodes) :
    b.printSide w nodes = .ok ((nodes.filterMap b.resting).map fun r => printOrder w r.order) := by
  induction nodes with
  | nil => rfl
  | cons n nodes ih =>
    obtain ⟨first, others⟩ := List.forall_mem_cons.mp inside
    obtain ⟨o, held, view, _⟩ := sound.resting_some first
    have read : b.order n.order = .ok o := by rw [order, held]
    rw [printSide, read, List.filterMap_cons_some view]
    simp only [bind, Except.bind, ih others, pure, Except.pure, List.map_cons]

theorem print_order_book_live (sound : b.Sound) : b.printOrderBook w =
    .ok ("Buy Orders:".toList :: (b.live.bids.reverse.map fun r => printOrder w r.order) ++
      "Sell Orders:".toList :: b.live.asks.map fun r => printOrder w r.order) := by
  have buys := print_side_live (w := w) sound b.buyOrders.reverse
    fun n member => List.mem_append_left _ (List.mem_reverse.mp member)
  have sells := print_side_live (w := w) sound b.sellOrders
    fun n member => List.mem_append_right _ member
  rw [List.filterMap_reverse] at buys
  rw [printOrderBook, buys, sells]
  rfl

def column (b : OrderBook Price Id) : List (Order Price Id) :=
  (b.live.bids.reverse ++ b.live.asks).map Resting.order

theorem column_sorted (sound : b.Sound) (stopped : b.live.matchHead = none) :
    b.column.Pairwise fun o p => o.price ≤ p.price := by
  rw [column, List.pairwise_map, List.pairwise_append]
  refine ⟨?_, ?_, ?_⟩
  · rw [List.pairwise_reverse]
    refine (sound.queue_ahead true).imp ?_
    rintro r q (better | ⟨tie, _⟩)
    · exact le_of_lt (by simpa [Better] using better)
    · exact tie.ge
  · refine (sound.queue_ahead false).imp ?_
    rintro r q (better | ⟨tie, _⟩)
    · exact le_of_lt (by simpa [Better] using better)
    · exact tie.le
  · intro bid buy ask sell
    exact (LiveBook.apart_of_stopped sound.queue_ahead stopped
      (List.mem_reverse.mp buy) sell).le

theorem column_ids (well : b.WellFormed) : (b.column.map Order.orderId).Nodup := by
  have distinct := well.ids_nodup
  have perm : (b.live.bids.reverse ++ b.live.asks).Perm b.live.all :=
    (List.reverse_perm _).append_right _
  rw [column, List.map_map]
  exact (perm.map _).nodup_iff.mpr distinct

theorem column_side (sound : b.Sound) (s : Bool) :
    b.column.filter (fun o => o.isBuy = s) =
      (if s then b.live.bids.reverse else b.live.asks).map Resting.order := by
  have bought : ∀ r ∈ b.live.bids, r.order.isBuy = true :=
    fun r member => sound.live_is_buy (s := true) member
  have sold : ∀ r ∈ b.live.asks, r.order.isBuy = false :=
    fun r member => sound.live_is_buy (s := false) member
  rw [column, List.filter_map, List.filter_append]
  congr 1
  cases s
  · rw [List.filter_eq_nil_iff.mpr, List.filter_eq_self.mpr] <;> simp_all
  · rw [List.filter_eq_self.mpr, List.filter_eq_nil_iff.mpr] <;> simp_all

def columnLines (w : Writers Price Id) (b : OrderBook Price Id) : List Text :=
  "Buy Orders:".toList :: (b.column.filter fun o => o.isBuy = true).map (printOrder w) ++
    "Sell Orders:".toList :: (b.column.filter fun o => o.isBuy = false).map (printOrder w)

theorem print_column (sound : b.Sound) : b.printOrderBook w = .ok (b.columnLines w) := by
  rw [print_order_book_live sound, columnLines, column_side sound, column_side sound]
  simp [Function.comp_def]

end Printed
end OrderBook

variable [LinearOrder Price] [DecidableEq Id]

/-- On every reachable book print_order_book returns and prints each resting order once;
    after a call of match_orders the prices that it prints only go up. -/
theorem printed_in_a_column (w : Writers Price Id) {layout : Layout} {poolSize : Nat}
    {calls : List (Call Price Id)} {s : Session Price Id}
    (run : Run (Guarded Step Unshared) (.create layout poolSize) calls s) :
    s.book.printOrderBook w = .ok (s.book.columnLines w) ∧
    (s.book.column.map Order.orderId).Nodup ∧
    (∀ o, o ∈ s.book.column ↔ ∃ r ∈ s.book.live.all, r.order = o) ∧
    ∀ fuel ts c, s.book.matchOrders fuel = .ok (ts, c) →
      c.printOrderBook w = .ok (c.columnLines w) ∧
        c.column.Pairwise fun o p => o.price ≤ p.price := by
  have well := (run_recorded (fun _ allowed => allowed) run).well
  refine ⟨OrderBook.print_column well.toSound, OrderBook.column_ids well, ?_, ?_⟩
  · intro o
    simp [OrderBook.column, LiveBook.all, or_and_right, exists_or]
  · intro fuel ts c done
    obtain ⟨well', _, stopped, _⟩ := OrderBook.match_orders_sound well done
    exact ⟨OrderBook.print_column well'.toSound, OrderBook.column_sorted well'.toSound stopped⟩

def intWriters : Writers Int Nat := ⟨showInt, fun id => digits id⟩

theorem printed_in_a_column_three : ∃ s : Session Int Nat,
    Run (Guarded Step Unshared) (.create ⟨4096, 64, by decide⟩ 4)
      [.addOrder 1 "A" 9 5 true, .addOrder 2 "A" 12 5 false, .addOrder 3 "A" 8 5 true] s ∧
      s.book.column.map Order.orderId = [3, 1, 2] ∧
      s.book.printOrderBook intWriters = .ok (s.book.columnLines intWriters) := by
  have done : ∃ s, replay (Session.attempt Unshared 4)
      (.create ⟨4096, 64, by decide⟩ 4 : Session Int Nat)
      [.addOrder 1 "A" 9 5 true, .addOrder 2 "A" 12 5 false, .addOrder 3 "A" 8 5 true] = some s ∧
      s.book.column.map Order.orderId = [3, 1, 2] := ⟨_, rfl, rfl⟩
  obtain ⟨s, done, column⟩ := done
  have run := run_of_replay attempt_step done
  exact ⟨s, run, column, (printed_in_a_column intWriters run).1⟩

end Phase4
