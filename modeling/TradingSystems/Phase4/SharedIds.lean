import TradingSystems.Phase4.BookRuns

/- Books in which an identifier is given out again while it rests. The lookup then leads
   to the newest of its orders, and remove_order erases that one. Nodes and slots stay in
   step all the same, so it can be told exactly when the matching loop is safe. -/
namespace Phase4
open Runs
variable {Price Id : Type} [LinearOrder Price] [DecidableEq Id]

namespace OrderBook

/-- The removal test of node `n` reads an order at rest, and an order that it finds
    Filled is the one that is erased. -/
structure SafeRemoval (b : OrderBook Price Id) (n : Node Price) (c : OrderBook Price Id) :
    Prop where
  rests : n ∈ b.nodes
  done : b.removeIfFilled n.order = .ok c
  erases : ∀ o, b.order n.order = .ok o → o.status = .filled →
    c.nodes = b.nodes.filter (fun m => m.it ≠ n.it)

/-- An iteration in which best_bid and best_ask point to orders at rest whenever the loop
    reads or removes through them. -/
def SafeIteration (b : OrderBook Price Id) : Prop :=
  ∀ bestBid bestAsk, b.buyOrders.head? = some bestBid → b.sellOrders.head? = some bestAsk →
    ∃ bid ask, b.order bestBid.order = .ok bid ∧ b.order bestAsk.order = .ok ask ∧
      (¬ bid.price < ask.price → ∃ b₁ b₂ b₃ b₄,
        b.updateFilled bestBid.order (min bid.quantity ask.quantity) = .ok b₁ ∧
        bestAsk ∈ b₁.nodes ∧
        b₁.updateFilled bestAsk.order (min bid.quantity ask.quantity) = .ok b₂ ∧
        SafeRemoval b₂ bestBid b₃ ∧ SafeRemoval b₃ bestAsk b₄)

def SafeCall (b : OrderBook Price Id) : Prop := ∀ ts d, b.Iterated ts d → d.SafeIteration

/-- The lookup leads to every order that trades at the heads of the queues fill. -/
def FillsIndexed (b : OrderBook Price Id) : Prop :=
  ∀ ts l, LiveBook.Matches b.live ts l → ∀ r ∈ b.live.all,
    (∀ q ∈ l.all, q.stamp ≠ r.stamp) → b.idLookup r.order.orderId = some r.stamp

variable {b c : OrderBook Price Id}

section Removal
variable {n : Node Price} {o : Order Price Id}

theorem safe_removal_settled (sound : b.Sound) (member : n ∈ b.nodes)
    (held : b.pool.deref n.order = some o)
    (indexed : o.status = .filled → b.idLookup o.orderId = some n.it) :
    SafeRemoval b n (b.settled n o) := by
  refine ⟨member, remove_if_filled_settled sound member held indexed, ?_⟩
  intro p read filled
  simp only [order, held, Except.ok.injEq] at read
  subst read
  rw [settled, if_pos filled, take_out_nodes]

theorem SafeRemoval.indexed (safe : SafeRemoval b n c) (sound : b.Sound)
    (held : b.pool.deref n.order = some o) (filled : o.status = .filled) :
    b.idLookup o.orderId = some n.it := by
  have read : b.order n.order = .ok o := by simp only [order, held]
  have erased := safe.erases o read filled
  have gone : n ∉ c.nodes := by
    rw [erased]
    simp
  have removed : b.removeOrder o.orderId = .ok c := by
    have done := safe.done
    simpa [removeIfFilled, read, filled, bind, Except.bind] using done
  cases entry : b.idLookup o.orderId with
  | none =>
    rw [remove_order_absent entry] at removed
    cases removed
    exact absurd safe.rests gone
  | some it =>
    obtain ⟨m, _, _, same, _, _, done⟩ := remove_order_present sound entry
    rw [done] at removed
    cases removed
    rw [take_out_nodes] at gone
    by_contra other
    apply gone
    rw [List.mem_filter]
    refine ⟨safe.rests, decide_eq_true ?_⟩
    intro eq
    exact other (by rw [← same, eq])

end Removal

section Iteration
variable {nb na : Node Price} {restB restA : List (Node Price)} {bo ao : Order Price Id}

omit [LinearOrder Price] [DecidableEq Id] in
theorem Heads.head_bid (heads : Heads b nb na restB restA bo ao) :
    b.buyOrders.head? = some nb := by
  have first : b.buyOrders = nb :: restB := heads.bids
  simp [first]

omit [LinearOrder Price] [DecidableEq Id] in
theorem Heads.head_ask (heads : Heads b nb na restB restA bo ao) :
    b.sellOrders.head? = some na := by
  have first : b.sellOrders = na :: restA := heads.asks
  simp [first]

theorem Heads.safe_of_indexed (heads : Heads b nb na restB restA bo ao) (sound : b.Sound)
    (indexed : ¬ bo.price < ao.price →
      HeadsIndexed b nb na bo ao (min bo.quantity ao.quantity)) : b.SafeIteration := by
  intro bestBid bestAsk firstB firstA
  rw [heads.head_bid] at firstB
  rw [heads.head_ask] at firstA
  cases firstB
  cases firstA
  refine ⟨bo, ao, by simp only [order, heads.readB], by simp only [order, heads.readA], ?_⟩
  intro crosses
  have indexed := indexed crosses
  have memB₂ : nb ∈ (b.fillBoth nb na bo ao (min bo.quantity ao.quantity)).nodes := heads.memB
  obtain ⟨_, readA₁⟩ := heads.first_fill sound (min bo.quantity ao.quantity)
  obtain ⟨sound₃, memA₃, readA₃⟩ := heads.bid_settled sound (min bo.quantity ao.quantity)
  exact ⟨_, _, _, _, update_filled_ok heads.readB _, heads.memA, update_filled_ok readA₁ _,
    safe_removal_settled (heads.both_sound sound _) memB₂ (heads.both_read sound _).1 indexed.bid,
    safe_removal_settled sound₃ memA₃ readA₃ (heads.ask_indexed sound _ indexed)⟩

theorem Heads.indexed_of_safe (heads : Heads b nb na restB restA bo ao) (sound : b.Sound)
    (crosses : ¬ bo.price < ao.price) (safe : b.SafeIteration) :
    HeadsIndexed b nb na bo ao (min bo.quantity ao.quantity) := by
  obtain ⟨bid, ask, readB, readA, rest⟩ := safe nb na heads.head_bid heads.head_ask
  simp only [order, heads.readB, heads.readA, Except.ok.injEq] at readB readA
  subst readB readA
  obtain ⟨b₁, b₂, b₃, b₄, fillB, _, fillA, removalB, safeA⟩ := rest crosses
  obtain ⟨_, readA₁⟩ := heads.first_fill sound (min bo.quantity ao.quantity)
  rw [update_filled_ok heads.readB] at fillB
  cases fillB
  rw [update_filled_ok readA₁] at fillA
  cases fillA
  have sound₂ := heads.both_sound sound (min bo.quantity ao.quantity)
  have readB₂ := (heads.both_read sound (min bo.quantity ao.quantity)).1
  have safeB : SafeRemoval (b.fillBoth nb na bo ao (min bo.quantity ao.quantity)) nb b₃ := removalB
  have indexedB : (bo.updateFilled (min bo.quantity ao.quantity)).status = .filled →
      b.idLookup bo.orderId = some nb.it := by
    intro filled
    have entry := safeB.indexed sound₂ readB₂ filled
    exact entry
  refine ⟨indexedB, fun filled => ?_⟩
  have settled₃ := remove_if_filled_settled sound₂ safeB.rests readB₂ indexedB
  have done := safeB.done
  rw [settled₃] at done
  cases done
  obtain ⟨sound₃, _, readA₃⟩ := heads.bid_settled sound (min bo.quantity ao.quantity)
  have entry := SafeRemoval.indexed (b := b.bidSettled nb na bo ao _) safeA sound₃ readA₃ filled
  rw [bid_settled_lookup] at entry
  split at entry
  · cases entry
  · exact entry

theorem Heads.head_trade (heads : Heads b nb na restB restA bo ao) (sound : b.Sound)
    (crosses : ¬ bo.price < ao.price) :
    LiveBook.HeadTrade b.live ⟨bo.orderId, ao.orderId, ao.price, min bo.quantity ao.quantity⟩
      (b.afterTrade nb na bo ao (min bo.quantity ao.quantity)).live ⟨nb.it, bo⟩ ⟨na.it, ao⟩
      (restB.filterMap b.resting) (restA.filterMap b.resting) where
  bidHead := heads.live_bids sound
  askHead := heads.live_asks sound
  crosses := not_lt.mp crosses
  trade := rfl
  bidsAfter := congrArg (·.bids) (heads.after_live sound _)
  asksAfter := congrArg (·.asks) (heads.after_live sound _)

omit [LinearOrder Price] [DecidableEq Id] in
theorem stamp_kept (r : Resting Price Id) (n : Int) : (r.fill n).stamp = r.stamp := rfl

theorem Heads.indexed_of_fills (heads : Heads b nb na restB restA bo ao) (sound : b.Sound)
    (crosses : ¬ bo.price < ao.price) (fills : b.FillsIndexed) :
    HeadsIndexed b nb na bo ao (min bo.quantity ao.quantity) := by
  have step := heads.head_trade sound crosses
  have one := LiveBook.Matches.trade (heads.match_head sound crosses) (.done _)
  constructor
  · intro filled
    exact fills _ _ one ⟨nb.it, bo⟩ (step.mem_before.mpr (Or.inl rfl))
      (step.bid_gone stamp_kept sound.stamps_nodup filled)
  · intro filled
    exact fills _ _ one ⟨na.it, ao⟩ (step.mem_before.mpr (Or.inr (Or.inl rfl)))
      (step.ask_gone stamp_kept sound.stamps_nodup filled)

theorem Heads.fills_after (heads : Heads b nb na restB restA bo ao) (sound : b.Sound)
    (crosses : ¬ bo.price < ao.price) (fills : b.FillsIndexed) :
    (b.afterTrade nb na bo ao (min bo.quantity ao.quantity)).FillsIndexed := by
  intro ts l run r member gone
  have head := heads.match_head sound crosses
  have step := heads.head_trade sound crosses
  have indexed := heads.indexed_of_fills sound crosses fills
  obtain ⟨q, before, stamp, terms⟩ := LiveBook.matches_came (.trade head (.done _)) member
  have entry := fills _ _ (.trade head run) q before (fun p left => stamp ▸ gone p left)
  rw [← terms.orderId, stamp] at entry
  rw [after_trade_lookup, if_neg, if_neg]
  · exact entry
  · rintro ⟨filled, same⟩
    rw [same, indexed.bid filled] at entry
    exact step.bid_gone stamp_kept sound.stamps_nodup filled r member (Option.some.inj entry).symm
  · rintro ⟨filled, same⟩
    rw [same, indexed.ask filled] at entry
    exact step.ask_gone stamp_kept sound.stamps_nodup filled r member (Option.some.inj entry).symm

end Iteration

theorem SafeIteration.returns (safe : b.SafeIteration) (sound : b.Sound) :
    ∃ result, b.matchOnce = .ok result := by
  rcases sound.heads_or_empty with ⟨nb, na, restB, restA, bo, ao, heads⟩ | empty
  · by_cases stops : bo.price < ao.price
    · exact ⟨_, heads.match_once_apart stops⟩
    · have indexed := heads.indexed_of_safe sound stops safe
      exact ⟨_, heads.match_once_crossing sound _ stops rfl indexed⟩
  · exact ⟨_, match_once_empty empty⟩

theorem SafeCall.after {t : Trade Price Id} (safe : b.SafeCall)
    (once : b.matchOnce = .ok (some (t, c))) : c.SafeCall :=
  fun ts d loop => safe (t :: ts) d (.next once loop)

theorem fills_of_safe (sound : b.Sound) (safe : b.SafeCall) : b.FillsIndexed := by
  intro ts l run
  induction ts generalizing b with
  | nil =>
    cases run
    intro r member gone
    exact absurd rfl (gone r member)
  | cons t ts ih =>
    cases run with
    | @trade _ m _ _ _ head tail =>
      rcases sound.heads_or_empty with ⟨nb, na, restB, restA, bo, ao, heads⟩ | empty
      · by_cases stops : bo.price < ao.price
        · rw [heads.match_head_apart sound stops] at head
          cases head
        · have indexed := heads.indexed_of_safe sound stops (safe [] b (.start b))
          have once := heads.match_once_crossing sound _ stops rfl indexed
          rw [heads.match_head sound stops] at head
          cases head
          have later := ih (heads.after_sound sound _) (safe.after once) tail
          intro r member gone
          rcases (heads.head_trade sound stops).stays member with ⟨q, left, stamp, named⟩ |
            ⟨same, filled⟩ | ⟨same, filled⟩
          · have entry := later q left (fun p hp => stamp ▸ gone p hp)
            rw [after_trade_lookup, named, stamp] at entry
            split at entry
            · cases entry
            · split at entry
              · cases entry
              · exact entry
          · subst same
            exact indexed.bid filled
          · subst same
            exact indexed.ask filled
      · rw [match_head_empty empty] at head
        cases head

theorem safe_of_fills (sound : b.Sound) (fills : b.FillsIndexed) : b.SafeCall := by
  intro ts d loop
  induction loop with
  | start b =>
    rcases sound.heads_or_empty with ⟨nb, na, restB, restA, bo, ao, heads⟩ | empty
    · exact heads.safe_of_indexed sound fun crosses => heads.indexed_of_fills sound crosses fills
    · intro bestBid bestAsk firstB firstA
      rcases empty with none_left | none_left
      · simp [none_left] at firstB
      · simp [none_left] at firstA
  | next once rest ih =>
    rcases sound.heads_or_empty with ⟨nb, na, restB, restA, bo, ao, heads⟩ | empty
    · by_cases stops : bo.price < ao.price
      · rw [heads.match_once_apart stops] at once
        cases once
      · have indexed := heads.indexed_of_fills sound stops fills
        rw [heads.match_once_crossing sound _ stops rfl indexed] at once
        cases once
        exact ih (heads.after_sound sound _) (heads.fills_after sound stops fills)
    · rw [match_once_empty empty] at once
      cases once

omit [DecidableEq Id] in
theorem WellFormed.fills_indexed (well : b.WellFormed) : b.FillsIndexed :=
  fun _ _ _ r member _ => well.lookup_iff.mpr ⟨r, member, rfl, rfl⟩

theorem remove_order_sound (sound : b.Sound) {id : Id} (done : b.removeOrder id = .ok c) :
    c.Sound := by
  cases entry : b.idLookup id with
  | none =>
    rw [remove_order_absent entry] at done
    cases done
    exact sound
  | some it =>
    obtain ⟨n, o, member, _, held, named, done'⟩ := remove_order_present sound entry
    rw [done'] at done
    cases done
    exact named ▸ take_out_sound sound member held

theorem remove_if_filled_sound (sound : b.Sound) {ptr : Nat}
    (done : b.removeIfFilled ptr = .ok c) : c.Sound := by
  unfold removeIfFilled at done
  cases read : b.order ptr with
  | error e => simp [read, bind, Except.bind] at done
  | ok o =>
    simp only [read, bind, Except.bind] at done
    split at done
    · exact remove_order_sound sound done
    · cases done
      exact sound

theorem match_once_sound (sound : b.Sound) {t : Trade Price Id}
    (once : b.matchOnce = .ok (some (t, c))) : c.Sound := by
  rcases sound.heads_or_empty with ⟨nb, na, restB, restA, bo, ao, heads⟩ | empty
  · by_cases stops : bo.price < ao.price
    · rw [heads.match_once_apart stops] at once
      cases once
    · rw [heads.match_once_removals sound _ stops rfl] at once
      cases removeB : (b.fillBoth nb na bo ao (min bo.quantity ao.quantity)).removeIfFilled
          nb.order with
      | error e => simp [removeB, bind, Except.bind] at once
      | ok d =>
        simp only [removeB, bind, Except.bind] at once
        cases removeA : d.removeIfFilled na.order with
        | error e => simp [removeA] at once
        | ok e =>
          simp only [removeA] at once
          cases once
          have sound₃ := remove_if_filled_sound (heads.both_sound sound _) removeB
          exact remove_if_filled_sound sound₃ removeA
  · rw [match_once_empty empty] at once
    cases once

theorem iterated_sound (sound : b.Sound) {ts : List (Trade Price Id)} (loop : b.Iterated ts c) :
    c.Sound := by
  induction loop with
  | start => exact sound
  | next once rest ih => exact ih (match_once_sound sound once)

end OrderBook

section Reached
variable {layout : Layout} {poolSize : Nat} {calls : List (Call Price Id)} {s t : Session Price Id}

theorem step_sound {call : Call Price Id} (step : Step s call t) (sound : s.book.Sound) :
    t.book.Sound := by
  cases step with
  | accepted free =>
    rw [OrderBook.add_order_free free]
    exact OrderBook.place_sound sound free
  | refused full =>
    rw [OrderBook.add_order_full full]
    exact sound
  | removeOrder done => exact OrderBook.remove_order_sound sound done
  | matchOrders done =>
    exact OrderBook.iterated_sound sound (OrderBook.match_orders_iterated done).1

theorem run_sound (run : Run Step (.create layout poolSize) calls s) : s.book.Sound :=
  run_invariant (fun s => s.book.Sound) step_sound run
    (OrderBook.create_well_formed layout poolSize).toSound

/-- Whatever identifiers were used, match_orders touches no released order and erases
    what it found Filled if and only if the lookup leads to the orders it fills. -/
theorem match_orders_safe_iff (run : Run Step (.create layout poolSize) calls s) :
    s.book.SafeCall ↔ s.book.FillsIndexed :=
  ⟨OrderBook.fills_of_safe (run_sound run), OrderBook.safe_of_fills (run_sound run)⟩

theorem unshared_safe (run : Run (Guarded Step Unshared) (.create layout poolSize) calls s) :
    s.book.SafeCall :=
  OrderBook.safe_of_fills (run_sound (guarded_run_is_run run))
    (run_recorded (fun _ allowed => allowed) run).well.fills_indexed

theorem match_orders_safe_iff_two_orders : ∃ s : Session Int Nat,
    Run Step (.create ⟨4096, 64, by decide⟩ 3)
      [.addOrder 1 "AAPL" 101 40 true, .addOrder 2 "AAPL" 100 60 false] s ∧
      s.book.SafeCall := by
  have replayed : ∃ s, replay (Session.attempt Admissible 4)
      (.create ⟨4096, 64, by decide⟩ 3 : Session Int Nat)
      [.addOrder 1 "AAPL" 101 40 true, .addOrder 2 "AAPL" 100 60 false] = some s := ⟨_, rfl⟩
  obtain ⟨s, done⟩ := replayed
  have run := run_of_replay attempt_step done
  have well := (run_recorded (fun _ allowed => allowed.unshared) run).well
  exact ⟨s, guarded_run_is_run run,
    (match_orders_safe_iff (guarded_run_is_run run)).mpr well.fills_indexed⟩

/-- A bid and an ask under one identifier: the removal of the bid erases the ask, whose
    status is read behind that. -/
theorem shared_id_not_safe : ∃ s : Session Int Nat,
    Run Step (.create ⟨4096, 64, by decide⟩ 2)
      [.addOrder 1 "AAPL" 101 5 true, .addOrder 1 "AAPL" 100 5 false] s ∧
      s.book.matchOrders 4 = .error .danglingPointer ∧ ¬ s.book.SafeCall := by
  have replayed : ∃ s, replay (Session.attempt (fun _ _ => True) 4)
      (.create ⟨4096, 64, by decide⟩ 2 : Session Int Nat)
      [.addOrder 1 "AAPL" 101 5 true, .addOrder 1 "AAPL" 100 5 false] = some s ∧
      s.book.matchOnce = .error .danglingPointer ∧
      s.book.matchOrders 4 = .error .danglingPointer := ⟨_, rfl, rfl, rfl⟩
  obtain ⟨s, done, stuck, call⟩ := replayed
  have run := guarded_run_is_run (run_of_replay attempt_step done)
  refine ⟨s, run, call, fun safe => ?_⟩
  obtain ⟨result, returned⟩ := (safe [] s.book (.start _)).returns (run_sound run)
  rw [stuck] at returned
  cases returned

end Reached
end Phase4
