import TradingSystems.Phase3.TradeSim

/- The executions of the feed against the orders of the strategy. An order comes into being
   with an event of the market data, and the executions of its identifier count from there. -/
namespace Phase3
open TradeSim Prefixes Wrapping

def FeedEvent.executes (e : FeedEvent) (k : Int) : Bool := e.type = .execution ∧ e.orderId = k

def executed (k : Int) (feed : List FeedEvent) : Int :=
  ((feed.filter (FeedEvent.executes · k)).map FeedEvent.quantity).sum

/-- The event behind these ones places the order. -/
def Places (before : List FeedEvent) (e : FeedEvent) (k : Int) : Prop :=
  (run before).om.orders k = none ∧ (run (before ++ [e])).om.orders k ≠ none

section Fills
variable {feed before : List FeedEvent} {e : FeedEvent} {k : Int} {o : MyOrder ℚ}

theorem executed_snoc (k : Int) (feed : List FeedEvent) (e : FeedEvent) :
    executed k (feed ++ [e]) = executed k feed + if e.executes k then e.quantity else 0 := by
  rw [executed, List.filter_append, List.map_append, List.sum_append, ← executed]
  cases own : e.executes k <;> simp [own]

theorem event_orders (s : TradeSim) (e : FeedEvent) (k : Int) :
    (s.event e).om.orders k =
      (s.om.orders k).map fun o => if e.executes k then o.fill e.quantity else o := by
  unfold event FeedEvent.executes
  cases e.type with
  | execution =>
    dsimp only
    rw [handle_fill_orders]
    simp [eq_comm]
  | bid => simp
  | ask => simp
  | unknown => simp

theorem round_kept (held : (run feed).om.orders k = some o) (e : FeedEvent) :
    (run (feed ++ [e])).om.orders k = some (if e.executes k then o.fill e.quantity else o) := by
  have sold := sold_event (run_sold feed) e
  have moved := event_orders (run feed) e k
  rw [held, Option.map_some] at moved
  have older := sold.only k _ moved
  have next := sold.next
  rw [run_snoc]
  obtain ⟨p, -, placed, -⟩ | ⟨-, same, -⟩ := round_cases (run_follows feed) e
  · rw [placed, place_order_orders, if_neg (by omega), moved]
  · rw [same, moved]

theorem round_new (absent : (run feed).om.orders k = none)
    (present : (run (feed ++ [e])).om.orders k = some o) : o.filled = 0 := by
  have moved := event_orders (run feed) e k
  rw [absent, Option.map_none] at moved
  rw [run_snoc] at present
  obtain ⟨p, -, placed, -⟩ | ⟨-, same, -⟩ := round_cases (run_follows feed) e
  · rw [placed, place_order_orders, moved] at present
    split_ifs at present
    cases present
    rfl
  · rw [same, moved] at present
    cases present

theorem filled_after (held : (run before).om.orders k = some o) (fresh : o.filled = 0)
    (after : List FeedEvent) : ∃ o', (run (before ++ after)).om.orders k = some o' ∧
      o'.filled = wrapped 32 (executed k after) := by
  induction after using List.reverseRecOn with
  | nil => exact ⟨o, by rwa [List.append_nil], fresh⟩
  | append_singleton after e ih =>
    obtain ⟨o', held', filled⟩ := ih
    refine ⟨_, by rw [← List.append_assoc]; exact round_kept held' e, ?_⟩
    rw [executed_snoc]
    split_ifs
    · rw [MyOrder.fill, filled]
      exact Int.bmod_add_bmod
    · rw [Int.add_zero]
      exact filled

theorem settled (feed : List FeedEvent) {p : ℚ} (price : wanted (run feed).snapshot = some p) :
    p = (run feed).lastSellPrice := by
  have follows := run_follows feed
  rw [follows.snapshot] at price
  rw [follows.last]
  induction feed using List.reverseRecOn with
  | nil => cases price
  | append_singleton feed e _ =>
    rw [high_prices_snoc, price]
    simp

theorem execution_fills (execution : e.type = .execution) (feed : List FeedEvent) :
    (run (feed ++ [e])).om = (run feed).om.handleFill e.orderId e.quantity := by
  have moved : (run feed).event e =
      { run feed with om := (run feed).om.handleFill e.orderId e.quantity } := by
    rw [event, execution]
  rw [run_snoc, TradeSim.round]
  obtain ⟨p, price, new, -⟩ | ⟨-, same⟩ := sell_cases ((run feed).event e)
  · rw [moved] at price new
    exact absurd (settled feed price) new
  · rw [same, moved]

theorem execution_ignored (execution : e.type = .execution)
    (absent : (run feed).om.orders e.orderId = none) :
    (run (feed ++ [e])).om = (run feed).om := by
  rw [execution_fills execution, OrderManager.handleFill, absent]

theorem placed_by_event (held : (run feed).om.orders k ≠ none) :
    ∃ before e after, feed = before ++ e :: after ∧ Places before e k := by
  have start : ¬ (create.om.orders k ≠ none) := fun present => present rfl
  obtain ⟨before, e, after, split, absent, present⟩ :=
    begins (fun s : TradeSim => s.om.orders k ≠ none) start held
  exact ⟨before, e, after, split, not_not.mp absent, present⟩

/-- An order is filled by the executions behind the event that placed it; an execution that
    no such event precedes leaves all orders as they are. -/
theorem filled_since_placed (feed : List FeedEvent) :
    (∀ before e after k, feed = before ++ e :: after → Places before e k →
      ∃ o, (run feed).om.orders k = some o ∧
        (-2 ^ 31 ≤ executed k after → executed k after < 2 ^ 31 → o.filled = executed k after)) ∧
    (∀ k o, (run feed).om.orders k = some o →
      ∃ before e after, feed = before ++ e :: after ∧ Places before e k) ∧
    (∀ before e after, feed = before ++ e :: after → e.type = .execution →
      (∀ earlier e' between, before = earlier ++ e' :: between → ¬ Places earlier e' e.orderId) →
      (run (before ++ [e])).om = (run before).om) := by
  refine ⟨?_, fun k o held => placed_by_event (by simp [held]), ?_⟩
  · rintro before e after k rfl ⟨absent, present⟩
    obtain ⟨o, held⟩ := Option.ne_none_iff_exists'.mp present
    obtain ⟨o', held', filled⟩ := filled_after held (round_new absent held) after
    rw [List.append_assoc, List.singleton_append] at held'
    refine ⟨o', held', fun low high => ?_⟩
    rw [filled, wrapped_of_range low high]
  · intro before e after _ execution unplaced
    apply execution_ignored execution
    by_contra held
    obtain ⟨earlier, e', between, split, places⟩ := placed_by_event held
    exact unplaced earlier e' between split places

theorem filled_since_placed_once : ∃ o,
    (run [⟨.execution, 0, 9, 1⟩, ⟨.bid, 101, 5, -1⟩, ⟨.execution, 0, 20, 1⟩,
      ⟨.execution, 0, 30, 2⟩]).om.orders 1 = some o ∧ o.filled = 20 := by
  have places : Places [⟨.execution, 0, 9, 1⟩] ⟨.bid, 101, 5, -1⟩ 1 := ⟨rfl, by decide⟩
  obtain ⟨o, held, filled⟩ := (filled_since_placed _).1 [⟨.execution, 0, 9, 1⟩] _
    [⟨.execution, 0, 20, 1⟩, ⟨.execution, 0, 30, 2⟩] 1 rfl places
  exact ⟨o, held, filled (by decide) (by decide)⟩

end Fills
end Phase3
