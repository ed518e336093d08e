import TradingSystems.Phase4.OpenBook
import TradingSystems.Library.Wrapping

/- When the matching loop ends, for quantities of any size and sign. A trade of quantity
   zero changes nothing, so the loop then repeats it forever. Any other repeated trade
   moves the counters: an int sum wraps here, and the values that it meets come as close
   to the top of the range as it takes to fill the smaller order. -/
namespace Phase4
open Runs Wrapping
variable {Price Id : Type}

theorem int32_range (n : Int) : -2 ^ 31 ≤ int32 n ∧ int32 n ≤ intMax := by
  have low := Int.le_bmod (x := n) (m := 2 ^ 32) (by omega)
  have high := Int.bmod_lt (x := n) (m := 2 ^ 32) (by omega)
  simp only [int32, intMax]
  omega

/-- What holds of every order at rest: its counter is an `int`, and it is not filled. -/
structure Resting.Loose (r : Resting Price Id) : Prop where
  quantity : -2 ^ 31 ≤ r.order.quantity ∧ r.order.quantity ≤ intMax
  counter : -2 ^ 31 ≤ r.order.filledQuantity ∧ r.order.filledQuantity ≤ intMax
  unfilled : r.order.filledQuantity = 0 ∨ r.order.filledQuantity < r.order.quantity

theorem update_filled_iff (o : Order Price Id) (q : Int) :
    (o.updateFilled q).status = .filled ↔
      int32 (o.filledQuantity + q) ≠ 0 ∧ o.quantity ≤ int32 (o.filledQuantity + q) := by
  simp only [Order.updateFilled]
  split
  · rename_i zero
    simp [zero]
  · rename_i moved
    split
    · rename_i reached
      simp [moved, reached]
    · rename_i short
      simp [short]

theorem loose_fill {r : Resting Price Id} (loose : r.Loose) {q : Int}
    (unfilled : (r.order.updateFilled q).status ≠ .filled) : (r.fill q).Loose := by
  rw [Ne, update_filled_iff] at unfilled
  refine ⟨loose.quantity, int32_range _, ?_⟩
  simp only [fill_order, update_filled_quantity]
  change int32 (r.order.filledQuantity + q) = 0 ∨ int32 (r.order.filledQuantity + q) < _
  omega

theorem loose_zero {r : Resting Price Id} (loose : r.Loose) :
    (r.order.updateFilled 0).status ≠ .filled := by
  obtain ⟨_, counter, unfilled⟩ := loose
  rw [Ne, update_filled_iff, Int.add_zero, int32_of_range counter.1 counter.2]
  omega

variable [LinearOrder Price]

namespace LiveBook

def Loose (l : LiveBook Price Id) : Prop := ∀ r ∈ l.all, r.Loose

def Stalled (l : LiveBook Price Id) : Prop :=
  ∃ bid ask bids asks, l.bids = bid :: bids ∧ l.asks = ask :: asks ∧
    ask.order.price ≤ bid.order.price ∧ min bid.order.quantity ask.order.quantity = 0

section OneTrade
variable {l m k : LiveBook Price Id} {t : Trade Price Id} {ts : List (Trade Price Id)}
  {bid ask : Resting Price Id} {bids asks : List (Resting Price Id)}

theorem crossing_heads (hb : l.bids = bid :: bids) (ha : l.asks = ask :: asks)
    (crosses : ask.order.price ≤ bid.order.price) :
    ∃ t m, l.matchHead = some (t, m) ∧ HeadTrade l t m bid ask bids asks := by
  have some_head : ∃ t m, l.matchHead = some (t, m) := by
    simp [matchHead, hb, ha, not_lt.mpr crosses]
  obtain ⟨t, m, head⟩ := some_head
  obtain ⟨bid', ask', bids', asks', step⟩ := match_head_cases head
  obtain ⟨sameBid, sameBids⟩ := List.cons.inj (hb.symm.trans step.bidHead)
  obtain ⟨sameAsk, sameAsks⟩ := List.cons.inj (ha.symm.trans step.askHead)
  subst sameBid sameBids sameAsk sameAsks
  exact ⟨t, m, head, step⟩

theorem loose_trade (head : l.matchHead = some (t, m)) (loose : l.Loose) : m.Loose := by
  obtain ⟨bid, ask, bids, asks, step⟩ := match_head_cases head
  intro r member
  rcases step.mem_after.mp member with ⟨same, unfilled⟩ | ⟨same, unfilled⟩ | other
  · exact same ▸ loose_fill (loose bid (step.mem_before.mpr (Or.inl rfl))) unfilled
  · exact same ▸ loose_fill (loose ask (step.mem_before.mpr (Or.inr (Or.inl rfl)))) unfilled
  · exact loose r (step.mem_before.mpr (Or.inr (Or.inr other)))

theorem HeadTrade.unfilled (step : HeadTrade l t m bid ask bids asks)
    (first : (bid.order.updateFilled t.quantity).status ≠ .filled)
    (second : (ask.order.updateFilled t.quantity).status ≠ .filled) :
    m.bids = bid.fill t.quantity :: bids ∧ m.asks = ask.fill t.quantity :: asks := by
  rw [step.bidsAfter, step.asksAfter]
  exact ⟨settle_of_open first, settle_of_open second⟩

theorem stalled_trade (loose : l.Loose) (stalled : l.Stalled) :
    ∃ t m, l.matchHead = some (t, m) ∧ m.Loose ∧ m.Stalled := by
  obtain ⟨bid, ask, bids, asks, hb, ha, crosses, zero⟩ := stalled
  obtain ⟨t, m, head, step⟩ := crossing_heads hb ha crosses
  have nothing : t.quantity = 0 := step.quantity.trans zero
  have first := loose_zero (loose bid (step.mem_before.mpr (Or.inl rfl)))
  have second := loose_zero (loose ask (step.mem_before.mpr (Or.inr (Or.inl rfl))))
  rw [← nothing] at first second
  obtain ⟨hb', ha'⟩ := step.unfilled first second
  exact ⟨t, m, head, loose_trade head loose, _, _, _, _, hb', ha', crosses, zero⟩

theorem stalled_matches (run : Matches l ts k) (loose : l.Loose) (stalled : l.Stalled) :
    k.matchHead ≠ none := by
  induction run with
  | done =>
    obtain ⟨t, m, head, _⟩ := stalled_trade loose stalled
    rw [head]
    exact Option.some_ne_none _
  | trade head tail ih =>
    obtain ⟨t, m, head', loose', stalled'⟩ := stalled_trade loose stalled
    rw [head] at head'
    cases head'
    exact ih loose' stalled'

end OneTrade

def FilledAfter (n : Nat) (q : Int) (r : Resting Price Id) : Prop :=
  int32 (r.order.filledQuantity + n * q) ≠ 0 ∧
    r.order.quantity ≤ int32 (r.order.filledQuantity + n * q)

omit [LinearOrder Price] in
theorem filled_after_succ {n : Nat} {q : Int} {r : Resting Price Id}
    (later : FilledAfter (n + 1) q r) : FilledAfter n q (r.fill q) := by
  have sum : int32 ((r.fill q).order.filledQuantity + n * q) =
      int32 (r.order.filledQuantity + (n + 1 : Nat) * q) := by
    change int32 (int32 (r.order.filledQuantity + q) + n * q) = _
    unfold int32
    rw [Int.bmod_add_bmod, Int.natCast_add, Int.add_mul]
    congr 1
    omega
  unfold FilledAfter at later ⊢
  rw [sum]
  exact later

theorem repeated_trade {n : Nat} {q : Int} :
    ∀ {l : LiveBook Price Id} {bid ask : Resting Price Id} {bids asks : List (Resting Price Id)},
      l.bids = bid :: bids → l.asks = ask :: asks → ask.order.price ≤ bid.order.price →
      min bid.order.quantity ask.order.quantity = q →
      (FilledAfter (n + 1) q bid ∨ FilledAfter (n + 1) q ask) →
      ∃ ts m, Matches l ts m ∧ m.all.length < l.all.length := by
  induction n with
  | zero =>
    intro l bid ask bids asks hb ha crosses smaller later
    obtain ⟨t, m, head, step⟩ := crossing_heads hb ha crosses
    have quantity := step.quantity.trans smaller
    refine ⟨[t], m, .trade head (.done m), step.shrinks ?_⟩
    simpa [update_filled_iff, quantity, FilledAfter] using later
  | succ n ih =>
    intro l bid ask bids asks hb ha crosses smaller later
    obtain ⟨t, m, head, step⟩ := crossing_heads hb ha crosses
    have quantity := step.quantity.trans smaller
    by_cases someone : (bid.order.updateFilled t.quantity).status = .filled ∨
        (ask.order.updateFilled t.quantity).status = .filled
    · exact ⟨[t], m, .trade head (.done m), step.shrinks someone⟩
    · obtain ⟨hb', ha'⟩ := step.unfilled (fun filled => someone (Or.inl filled))
        fun filled => someone (Or.inr filled)
      have later' := later.imp filled_after_succ filled_after_succ
      rw [← quantity] at later'
      obtain ⟨ts, k, run, shorter⟩ := ih hb' ha' crosses smaller (quantity ▸ later')
      refine ⟨t :: ts, k, .trade head run, ?_⟩
      have same : m.all.length = l.all.length := by
        simp [all, hb, ha, hb', ha']
      omega

theorem loose_shrinks {l m : LiveBook Price Id} {t : Trade Price Id} (loose : l.Loose)
    (head : l.matchHead = some (t, m)) (moving : ¬ l.Stalled) :
    ∃ ts k, Matches l ts k ∧ k.all.length < l.all.length := by
  obtain ⟨bid, ask, bids, asks, step⟩ := match_head_cases head
  have nonzero : min bid.order.quantity ask.order.quantity ≠ 0 := fun zero =>
    moving ⟨bid, ask, bids, asks, step.bidHead, step.askHead, step.crosses, zero⟩
  have climbs : ∀ r : Resting Price Id, r.Loose → r.order.quantity ≠ 0 →
      ∃ n : Nat, FilledAfter (n + 1) r.order.quantity r := by
    intro r held moved
    have range := held.quantity
    simp only [intMax] at range
    obtain ⟨n, some, reached⟩ := walk_climbs (w := 31) moved range.1
      (by omega : r.order.quantity < 2 ^ 31)
    obtain ⟨n', same⟩ := Nat.exists_eq_succ_of_ne_zero some.ne'
    subst same
    exact ⟨n', reached⟩
  rcases min_choice bid.order.quantity ask.order.quantity with smaller | smaller
  · rw [smaller] at nonzero
    obtain ⟨n, later⟩ := climbs bid (loose bid (step.mem_before.mpr (Or.inl rfl))) nonzero
    exact repeated_trade step.bidHead step.askHead step.crosses smaller (Or.inl later)
  · rw [smaller] at nonzero
    obtain ⟨n, later⟩ := climbs ask (loose ask (step.mem_before.mpr (Or.inr (Or.inl rfl)))) nonzero
    exact repeated_trade step.bidHead step.askHead step.crosses smaller (Or.inr later)

theorem loose_terminates_iff {l : LiveBook Price Id} (loose : l.Loose) :
    (∃ ts k, Matches l ts k ∧ k.matchHead = none) ↔ ∀ ts m, Matches l ts m → ¬ m.Stalled := by
  constructor
  · rintro ⟨us, k, whole, stopped⟩ ts m run stalled
    obtain ⟨rest, tail⟩ := matches_extend run whole stopped
    exact stalled_matches tail (matches_keep loose_trade run loose) stalled stopped
  · intro moving
    refine shrinking_terminates
      (fun l => l.Loose ∧ ∀ ts m, Matches l ts m → ¬ m.Stalled) ?_ ⟨loose, moving⟩
    rintro l t m ⟨loose, moving⟩ head
    obtain ⟨ts, k, run, smaller⟩ := loose_shrinks loose head (moving [] l (.done l))
    exact ⟨ts, k, run, smaller, matches_keep loose_trade run loose,
      fun us j later => moving (ts ++ us) j (matches_append run later)⟩

end LiveBook

variable [DecidableEq Id]

namespace OrderBook
variable {b : OrderBook Price Id}

/-- The best bid and the best ask cross, and the smaller of their quantities is zero. -/
def Stalls (b : OrderBook Price Id) : Prop :=
  ∃ bestBid bestAsk bid ask, b.getBestBid = some bestBid ∧ b.getBestAsk = some bestAsk ∧
    b.order bestBid = .ok bid ∧ b.order bestAsk = .ok ask ∧ ¬ bid.price < ask.price ∧
    min bid.quantity ask.quantity = 0

omit [DecidableEq Id] in
theorem best_order (well : b.WellFormed) {s : Bool} {ptr : Nat} {o : Order Price Id}
    (best : (b.side s).head?.map Node.order = some ptr) (read : b.order ptr = .ok o) :
    ∃ r rest, b.live.side s = r :: rest ∧ r.order = o := by
  cases head : b.side s with
  | nil => simp [head] at best
  | cons n rest =>
    obtain ⟨p, held, view⟩ := live_head well.toSound head
    simp only [head, List.head?_cons, Option.map_some, Option.some.injEq] at best
    subst best
    simp only [order, held, Except.ok.injEq] at read
    exact ⟨_, _, view, read⟩

omit [DecidableEq Id] in
theorem best_of_live (well : b.WellFormed) {s : Bool} {r : Resting Price Id}
    {rest : List (Resting Price Id)} (view : b.live.side s = r :: rest) :
    ∃ ptr, (b.side s).head?.map Node.order = some ptr ∧ b.order ptr = .ok r.order := by
  cases head : b.side s with
  | nil => simp [live_side, head] at view
  | cons n others =>
    obtain ⟨p, held, view'⟩ := live_head well.toSound head
    rw [view'] at view
    obtain ⟨same, _⟩ := List.cons.inj view
    subst same
    exact ⟨n.order, by simp, by simp [order, held]⟩

omit [DecidableEq Id] in
theorem stalls_iff (well : b.WellFormed) : b.Stalls ↔ b.live.Stalled := by
  constructor
  · rintro ⟨bestBid, bestAsk, bid, ask, firstB, firstA, readB, readA, crosses, zero⟩
    obtain ⟨r, bids, hb, sameB⟩ := best_order well (s := true) firstB readB
    obtain ⟨q, asks, ha, sameA⟩ := best_order well (s := false) firstA readA
    subst sameB sameA
    exact ⟨r, q, bids, asks, hb, ha, not_lt.mp crosses, zero⟩
  · rintro ⟨r, q, bids, asks, hb, ha, crosses, zero⟩
    obtain ⟨bestBid, firstB, readB⟩ := best_of_live well (s := true) hb
    obtain ⟨bestAsk, firstA, readA⟩ := best_of_live well (s := false) ha
    exact ⟨bestBid, bestAsk, _, _, firstB, firstA, readB, readA, not_lt.mpr crosses, zero⟩

theorem returns_iff (well : b.WellFormed) : (∃ fuel ts c, b.matchOrders fuel = .ok (ts, c)) ↔
    ∃ ts k, LiveBook.Matches b.live ts k ∧ k.matchHead = none := by
  constructor
  · rintro ⟨fuel, ts, c, done⟩
    obtain ⟨_, run, stopped, _⟩ := match_orders_sound well done
    exact ⟨ts, c.live, run, stopped⟩
  · rintro ⟨ts, k, run, stopped⟩
    obtain ⟨c, done, _⟩ := match_orders_complete well run stopped (Nat.lt_succ_self _)
    exact ⟨_, ts, c, done⟩

end OrderBook

/-- An identifier never used before, with any quantity that an `int` can hold. -/
def AnyQuantity (s : Session Price Id) : Call Price Id → Prop
  | .addOrder id _ _ quantity _ => id ∉ s.issued ∧ -2 ^ 31 ≤ quantity ∧ quantity ≤ intMax
  | _ => True

instance (s : Session Price Id) (call : Call Price Id) : Decidable (AnyQuantity s call) :=
  match call with
  | .addOrder .. => inferInstanceAs (Decidable (_ ∧ _ ∧ _))
  | .removeOrder _ => inferInstanceAs (Decidable True)
  | .matchOrders => inferInstanceAs (Decidable True)

omit [DecidableEq Id] in
theorem AnyQuantity.unshared {s : Session Price Id} {call : Call Price Id} (rec : Recorded s)
    (allowed : AnyQuantity s call) : Unshared s call := by
  cases call with
  | addOrder => exact fun rests => allowed.1 (rec.rests_issued rests)
  | _ => trivial

section Reached
variable {layout : Layout} {poolSize : Nat} {calls : List (Call Price Id)} {s : Session Price Id}

theorem run_loose (run : Run (Guarded Step AnyQuantity) (.create layout poolSize) calls s) :
    s.book.live.Loose := by
  apply run_resting LiveBook.loose_trade (fun rec allowed => allowed.unshared rec) _ run
  intro s stamp id symbol price quantity isBuy allowed
  exact ⟨allowed.2, by simp [Order.create, intMax], Or.inl rfl⟩

/-- match_orders returns exactly when none of its iterations starts with a best bid and
    a best ask that cross and of which the smaller has quantity zero. -/
theorem match_orders_returns_iff
    (run : Run (Guarded Step AnyQuantity) (.create layout poolSize) calls s) :
    (∃ fuel ts c, s.book.matchOrders fuel = .ok (ts, c)) ↔
      ∀ ts d, s.book.Iterated ts d → ¬ d.Stalls := by
  have well := (run_recorded (fun rec allowed => allowed.unshared rec) run).well
  rw [OrderBook.returns_iff well, LiveBook.loose_terminates_iff (run_loose run)]
  constructor
  · intro moving ts d loop stalls
    obtain ⟨well', run⟩ := OrderBook.iterated_matches well loop
    exact moving ts d.live run ((OrderBook.stalls_iff well').mp stalls)
  · intro moving ts m run stalled
    obtain ⟨d, loop, well', live⟩ := OrderBook.matches_iterated well run
    subst live
    exact moving ts d loop ((OrderBook.stalls_iff well').mpr stalled)

theorem nonzero_quantities_return
    (run : Run (Guarded Step AnyQuantity) (.create layout poolSize) calls s)
    (nonzero : ∀ p ∈ s.placed, p.order.quantity ≠ 0) :
    ∃ fuel ts c, s.book.matchOrders fuel = .ok (ts, c) := by
  have recorded := run_recorded (fun rec allowed => allowed.unshared rec) run
  rw [OrderBook.returns_iff recorded.well, LiveBook.loose_terminates_iff (run_loose run)]
  rintro ts m trades ⟨bid, ask, bids, asks, hb, ha, _, zero⟩
  have wanted : ∀ side, ∀ r ∈ m.side side, r.order.quantity ≠ 0 := by
    intro side r member
    obtain ⟨q, before, _, terms⟩ := LiveBook.matches_side_came trades member
    obtain ⟨p, placed, _, terms'⟩ := recorded.came q (LiveBook.mem_all.mpr ⟨side, before⟩)
    rw [(terms.trans terms').quantity]
    exact nonzero p placed
  have buy := wanted true bid (by rw [LiveBook.side_true, hb]; simp)
  have sell := wanted false ask (by rw [LiveBook.side_false, ha]; simp)
  omega

end Reached

/-- A bid of quantity zero meets an ask of five: the loop trades nothing forever. -/
theorem match_orders_endless : ∃ s : Session Int Nat,
    Run (Guarded Step AnyQuantity) (.create ⟨4096, 64, by decide⟩ 4)
      [.addOrder 1 "AAPL" 100 0 true, .addOrder 2 "AAPL" 100 5 false] s ∧
      ¬ ∃ fuel ts c, s.book.matchOrders fuel = .ok (ts, c) := by
  have replayed : ∃ s bid ask, replay (Session.attempt AnyQuantity 4)
      (.create ⟨4096, 64, by decide⟩ 4 : Session Int Nat)
      [.addOrder 1 "AAPL" 100 0 true, .addOrder 2 "AAPL" 100 5 false] = some s ∧
      s.book.live.bids = [bid] ∧ s.book.live.asks = [ask] ∧ bid.order.price = 100 ∧
      ask.order.price = 100 ∧ bid.order.quantity = 0 ∧ ask.order.quantity = 5 :=
    ⟨_, _, _, rfl, rfl, rfl, rfl, rfl, rfl, rfl⟩
  obtain ⟨s, bid, ask, done, hb, ha, bidPrice, askPrice, bidSize, askSize⟩ := replayed
  have run := run_of_replay attempt_step done
  refine ⟨s, run, ?_⟩
  have well := (run_recorded (fun rec allowed => allowed.unshared rec) run).well
  have stalled : s.book.live.Stalled :=
    ⟨bid, ask, [], [], hb, ha, by rw [bidPrice, askPrice], by rw [bidSize, askSize]; decide⟩
  rw [OrderBook.returns_iff well]
  rintro ⟨ts, k, trades, stopped⟩
  exact LiveBook.stalled_matches trades (run_loose run) stalled stopped

theorem match_orders_returns_iff_negative : ∃ s : Session Int Nat,
    Run (Guarded Step AnyQuantity) (.create ⟨4096, 64, by decide⟩ 4)
      [.addOrder 1 "AAPL" 100 0 true, .addOrder 2 "AAPL" 100 (-5) false] s ∧
      ((∃ fuel ts c, s.book.matchOrders fuel = .ok (ts, c)) ↔
        ∀ ts d, s.book.Iterated ts d → ¬ d.Stalls) := by
  have replayed : ∃ s, replay (Session.attempt AnyQuantity 4)
      (.create ⟨4096, 64, by decide⟩ 4 : Session Int Nat)
      [.addOrder 1 "AAPL" 100 0 true, .addOrder 2 "AAPL" 100 (-5) false] = some s := ⟨_, rfl⟩
  obtain ⟨s, done⟩ := replayed
  have run := run_of_replay attempt_step done
  exact ⟨s, run, match_orders_returns_iff run⟩
end Phase4
