import TradingSystems.Phase3.Fills
import TradingSystems.Library.Formats

/- The whole log of the simulator. After every event it shows the best levels, and at the
   end the orders that have not been filled. How a price is written is left to the
   stream. -/
namespace Phase3
open Decimal Formats Wrapping TradeSim

section Printing
variable (showPrice : ℚ → Text)

def PriceLevel.text (l : PriceLevel ℚ) : Text :=
  showPrice l.price ++ " x ".toList ++ showInt l.quantity

def MarketSnapshot.printBook (s : MarketSnapshot ℚ) : List Text :=
  (match s.getBestBid with
    | some bid => ["[Book] Bid: ".toList ++ bid.text showPrice]
    | none => []) ++
  match s.getBestAsk with
    | some ask => ["[Book] Ask: ".toList ++ ask.text showPrice]
    | none => []

def MyOrder.text (o : MyOrder ℚ) : Text :=
  "Order ".toList ++ showInt o.id ++ " | Side: ".toList ++
    (match o.side with | .buy => "Buy" | .sell => "Sell").toList ++
    " | Price: ".toList ++ showPrice o.price ++ " | Qty: ".toList ++ showInt o.quantity ++
    " | Filled: ".toList ++ showInt o.filled

def MyOrder.Active (o : MyOrder ℚ) : Prop := o.status = .new ∨ o.status = .partiallyFilled

instance (o : MyOrder ℚ) : Decidable o.Active := inferInstanceAs (Decidable (_ ∨ _))

/-- The map is walked in the order of its identifiers, and they are among those handed out. -/
def OrderManager.activeOrders (m : OrderManager ℚ) : List (MyOrder ℚ) :=
  (List.range m.nextId).filterMap fun id : Nat => (m.orders id).filter fun o => o.Active

def OrderManager.printActiveOrders (m : OrderManager ℚ) : List Text :=
  m.activeOrders.map (MyOrder.text showPrice)

def printRound (r : TradeSim × List Text) (e : FeedEvent) : TradeSim × List Text :=
  let s := r.1.round e
  (s, r.2 ++ s.snapshot.printBook showPrice)

def simulate (feed : List FeedEvent) : List Text :=
  let (s, log) := feed.foldl (printRound showPrice) (.create, [])
  log ++ s.om.printActiveOrders showPrice

def tradeSim (file : Option Text) : List Text :=
  simulate showPrice (loadFeed "../sample_feed.txt" file).events

end Printing

/-- The order of a price, filled by these events. -/
def orderAfter (k : Nat) (p : ℚ) (after : List FeedEvent) : MyOrder ℚ :=
  ((after.filter (FeedEvent.executes · k)).map FeedEvent.quantity).foldl MyOrder.fill
    (.create k .sell p 50)

/-- The last event makes the strategy sell at a new price. -/
structure Sells (before : List FeedEvent) (e : FeedEvent) (p : ℚ) : Prop where
  sold : soldPrices (before ++ [e]) = soldPrices before ++ [p]

def StillOpen (feed : List FeedEvent) (o : MyOrder ℚ) : Prop :=
  ∃ before e after p, feed = before ++ e :: after ∧ Sells before e p ∧
    o.id = (soldPrices before).length + 1 ∧ o.side = .sell ∧ o.price = p ∧ o.quantity = 50 ∧
    o.filled = wrapped 32 (executed o.id after) ∧ o.filled < 50 ∧
    o.status = if after.any (FeedEvent.executes · o.id) then .partiallyFilled else .new

theorem printed_rounds (showPrice : ℚ → Text) (feed : List FeedEvent) :
    feed.foldl (printRound showPrice) (.create, []) =
      (run feed, feed.inits.tail.flatMap fun seen => (market seen).printBook showPrice) := by
  induction feed using List.reverseRecOn with
  | nil => rfl
  | append_singleton feed e ih =>
    have start : feed.inits ≠ [] := by
      cases feed <;> simp
    rw [List.foldl_append, ih, List.inits_append, List.tail_append_of_ne_nil start]
    simp only [List.foldl_cons, List.foldl_nil, printRound, ← run_snoc]
    rw [(run_follows (feed ++ [e])).snapshot]
    simp

section Orders
variable {feed before after : List FeedEvent} {e : FeedEvent} {k : Nat} {p : ℚ} {o : MyOrder ℚ}

theorem order_after_snoc (k : Nat) (p : ℚ) (after : List FeedEvent) (e : FeedEvent) :
    orderAfter k p (after ++ [e]) =
      if e.executes k then (orderAfter k p after).fill e.quantity else orderAfter k p after := by
  unfold orderAfter
  cases own : e.executes k <;> simp [own]

theorem order_after_fields (k : Nat) (p : ℚ) (after : List FeedEvent) :
    (orderAfter k p after).id = k ∧ (orderAfter k p after).side = .sell ∧
      (orderAfter k p after).price = p ∧ (orderAfter k p after).quantity = 50 ∧
      (orderAfter k p after).filled = wrapped 32 (executed k after) := by
  induction after using List.reverseRecOn with
  | nil => exact ⟨rfl, rfl, rfl, rfl, rfl⟩
  | append_singleton after e ih =>
    rw [order_after_snoc, executed_snoc]
    split_ifs
    · obtain ⟨id, side, price, quantity, filled⟩ := ih
      refine ⟨id, side, price, quantity, ?_⟩
      rw [MyOrder.fill, filled]
      exact Int.bmod_add_bmod
    · rw [Int.add_zero]
      exact ih

theorem order_after_status (k : Nat) (p : ℚ) (after : List FeedEvent) :
    (orderAfter k p after).status =
      if after.any (FeedEvent.executes · k) then
        if 50 ≤ (orderAfter k p after).filled then .filled else .partiallyFilled
      else .new := by
  induction after using List.reverseRecOn with
  | nil => rfl
  | append_singleton after e ih =>
    rw [order_after_snoc, List.any_append]
    cases own : e.executes k with
    | false => simpa [own] using ih
    | true =>
      have quantity := (order_after_fields k p after).2.2.2.1
      simp [own, MyOrder.fill, quantity]

theorem order_after_active (k : Nat) (p : ℚ) (after : List FeedEvent) :
    (orderAfter k p after).Active ↔ (orderAfter k p after).filled < 50 := by
  rw [MyOrder.Active, order_after_status]
  cases touched : after.any (FeedEvent.executes · k) with
  | true =>
    by_cases full : 50 ≤ (orderAfter k p after).filled
    · simp [full]
    · simp [full, not_le.mp full]
  | false =>
    have none : executed k after = 0 := by
      have nothing : after.filter (FeedEvent.executes · k) = [] := by
        simpa [List.filter_eq_nil_iff] using touched
      rw [executed, nothing]
      rfl
    have zero : (orderAfter k p after).filled = 0 := by
      rw [(order_after_fields k p after).2.2.2.2, none]
      rfl
    simp [zero]

theorem sale_held (sells : Sells before e p) (after : List FeedEvent) :
    (run (before ++ e :: after)).om.orders ((soldPrices before).length + 1 : Nat) =
      some (orderAfter ((soldPrices before).length + 1) p after) := by
  induction after using List.reverseRecOn with
  | nil =>
    have next := (sold_event (run_sold before) e).next
    rw [run_snoc]
    obtain ⟨q, prices, placed, -⟩ | ⟨prices, -⟩ := round_cases (run_follows before) e
    · have same : q = p := by simpa [prices] using sells.sold
      rw [placed, place_order_orders, next, if_pos rfl, same]
      rfl
    · have longer := congrArg List.length (prices.symm.trans sells.sold)
      simp at longer
  | append_singleton after d ih =>
    rw [← List.cons_append, ← List.append_assoc, round_kept ih d, order_after_snoc]

theorem held_sale (held : (run feed).om.orders k = some o) :
    ∃ before e after p, feed = before ++ e :: after ∧ Sells before e p ∧
      k = (soldPrices before).length + 1 ∧ o = orderAfter k p after := by
  induction feed using List.reverseRecOn generalizing o with
  | nil => cases held
  | append_singleton feed d ih =>
    cases earlier : (run feed).om.orders k with
    | some o' =>
      obtain ⟨before, e, after, p, split, sells, number, rfl⟩ := ih earlier
      rw [round_kept earlier d, Option.some.injEq] at held
      refine ⟨before, e, after ++ [d], p, by rw [split]; simp, sells, number, ?_⟩
      rw [order_after_snoc, held]
    | none =>
      have moved := event_orders (run feed) d k
      have next := (sold_event (run_sold feed) d).next
      rw [earlier, Option.map_none] at moved
      rw [run_snoc] at held
      obtain ⟨p, prices, placed, -⟩ | ⟨-, same, -⟩ := round_cases (run_follows feed) d
      · rw [placed, place_order_orders, next, moved] at held
        split_ifs at held with newest
        cases held
        exact ⟨feed, d, [], p, rfl, ⟨prices⟩, by omega, by rw [Nat.cast_inj.mp newest]; rfl⟩
      · rw [same, moved] at held
        cases held

theorem active_iff : o ∈ (run feed).om.activeOrders ↔
    ∃ k : Nat, (run feed).om.orders k = some o ∧ o.Active := by
  have sold := run_sold feed
  simp only [OrderManager.activeOrders, List.mem_filterMap, List.mem_range,
    Option.filter_eq_some_iff, decide_eq_true_eq]
  refine exists_congr fun k => and_iff_right_of_imp ?_
  rintro ⟨held, -⟩
  have listed := sold.only k o held
  have next := sold.next
  omega

theorem still_open_iff : StillOpen feed o ↔
    ∃ k : Nat, (run feed).om.orders k = some o ∧ o.Active := by
  constructor
  · rintro ⟨before, e, after, p, rfl, sells, number, side, price, quantity, filled, short, status⟩
    have same : o = orderAfter o.id p after := by
      obtain ⟨id', side', price', quantity', filled'⟩ := order_after_fields o.id p after
      have status' := order_after_status o.id p after
      rw [filled', ← filled, if_neg (not_le.mpr short)] at status'
      cases made : orderAfter o.id p after
      rw [made] at id' side' price' quantity' filled' status'
      cases o
      simp_all
    have held := sale_held sells after
    rw [← number, ← same] at held
    exact ⟨o.id, held, same ▸ (order_after_active o.id p after).mpr (same ▸ short)⟩
  · rintro ⟨k, held, active⟩
    obtain ⟨before, e, after, p, split, sells, number, rfl⟩ := held_sale held
    obtain ⟨id, side, price, quantity, filled⟩ := order_after_fields k p after
    have short := (order_after_active k p after).mp active
    refine ⟨before, e, after, p, split, sells, id.trans number, side, price, quantity,
      by rw [id, filled], short, ?_⟩
    rw [order_after_status, id, if_neg (not_le.mpr short)]

theorem active_sorted (feed : List FeedEvent) :
    (run feed).om.activeOrders.Pairwise fun o p => o.id < p.id := by
  have own : ∀ (k : Nat) (o : MyOrder ℚ), (run feed).om.orders k = some o → o.id = k := by
    intro k o held
    obtain ⟨before, e, after, p, -, -, -, rfl⟩ := held_sale held
    exact (order_after_fields k p after).1
  rw [OrderManager.activeOrders, List.pairwise_filterMap]
  refine List.pairwise_lt_range.imp fun {i j} before o first p second => ?_
  have left := own i o (Option.filter_eq_some_iff.mp first).1
  have right := own j p (Option.filter_eq_some_iff.mp second).1
  rwa [left, right]

end Orders
end Phase3
