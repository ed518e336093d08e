import TradingSystems.Phase4.OpenBook

/- Laws of add_order and remove_order on every book that calls can reach: the pool
   refuses an order exactly when it has no slot left, an order that is added and
   removed leaves the book as it was, and a removal touches no other order. -/
namespace Phase4
open Runs StableInsert
variable {Price Id : Type} [LinearOrder Price] [DecidableEq Id]

namespace OrderBook

def Refuses (b : OrderBook Price Id) (o : Order Price Id) : Prop :=
  (b.pool.allocate (.ok o : Except Empty (Order Price Id))).1 = .ok none

section Pool
variable {b : OrderBook Price Id} {o : Order Price Id}

omit [LinearOrder Price] [DecidableEq Id] in
theorem refuses_iff : b.Refuses o ↔ b.pool.firstFree = none := b.pool.allocate_null_iff o

omit [DecidableEq Id] in
theorem Sound.refuses_iff (sound : b.Sound) : b.Refuses o ↔ b.nodes.length = b.pool.size := by
  rw [OrderBook.refuses_iff, sound.full_iff, sound.live_length]

omit [DecidableEq Id] in
theorem Sound.used_count (sound : b.Sound) : b.pool.inUse.count true = b.nodes.length := by
  rw [sound.owns.used_count, List.length_map]

end Pool

/-- Two books that no caller can tell apart: the same nodes in the same order, the same
    orders behind them, the same lookup and the same slots in use. -/
structure SameBook (b c : OrderBook Price Id) : Prop where
  buyOrders : c.buyOrders = b.buyOrders
  sellOrders : c.sellOrders = b.sellOrders
  orders : ∀ n ∈ b.nodes, c.pool.deref n.order = b.pool.deref n.order
  idLookup : c.idLookup = b.idLookup
  usedSlots : c.pool.inUse = b.pool.inUse

/-- What a removal does to the orders with other identifiers, and that it does nothing
    when its identifier does not rest. -/
structure LeavesOthers (b : OrderBook Price Id) (id : Id) (c : OrderBook Price Id) : Prop where
  inOrder : ∀ s, (c.side s).Sublist (b.side s)
  others : ∀ s, ∀ n ∈ b.side s, ∀ o, b.pool.deref n.order = some o → o.orderId ≠ id →
    n ∈ c.side s ∧ c.pool.deref n.order = some o
  lookups : ∀ other, other ≠ id → c.idLookup other = b.idLookup other
  removed : ¬ c.live.Rests id
  absent : ¬ b.live.Rests id → c = b

section Inverse
variable {b : OrderBook Price Id} {i : Nat} {o : Order Price Id}

theorem place_take_out (well : b.WellFormed) (free : b.pool.firstFree = some i)
    (unused : ¬ b.live.Rests o.orderId) :
    SameBook b ((b.place i o).takeOut ⟨b.nextNode, o.price, b.pool.layout.addr i⟩ o.orderId) := by
  have older : ∀ s, ∀ n ∈ b.side s, decide (n.it ≠ b.nextNode) = true := by
    intro s n member
    exact decide_eq_true (well.fresh n (side_subset member)).ne
  have sides : ∀ s, ((b.place i o).side s).filter (fun n => n.it ≠ b.nextNode) = b.side s := by
    intro s
    rw [place_side]
    split
    · exact ordered_insert_filter (by simp) (older s)
    · exact List.filter_eq_self.mpr (older s)
  have clear := MemoryPool.first_free_spec free
  obtain ⟨inside, _⟩ := List.getElem?_eq_some_iff.mp clear
  refine ⟨sides true, sides false, ?_, ?_, ?_⟩
  · intro n member
    have left : n ∈ ((b.place i o).takeOut ⟨b.nextNode, o.price, b.pool.layout.addr i⟩
        o.orderId).nodes := by
      rw [take_out_nodes, List.mem_filter]
      exact ⟨place_mem_old member, decide_eq_true (well.fresh n member).ne⟩
    rw [take_out_deref (place_sound well.toSound free) place_mem_new _ left,
      place_deref_old well.toSound free member]
  · simp only [takeOut, place, Function.update_idem]
    rw [← well.lookup_none_iff.mpr unused, Function.update_eq_self]
  · simp [takeOut, place, MemoryPool.deallocate, MemoryPool.occupy, inside,
      Bitmap.set_clear clear]

theorem add_remove (well : b.WellFormed) {id : Id} (unused : ¬ b.live.Rests id)
    (symbol : String) (price : Price) (quantity : Int) (isBuy : Bool) :
    ∃ c, (b.addOrder id symbol price quantity isBuy).removeOrder id = .ok c ∧ SameBook b c := by
  cases free : b.pool.firstFree with
  | none =>
    rw [add_order_full free]
    exact ⟨b, remove_order_absent (well.lookup_none_iff.mpr unused), rfl, rfl,
      fun _ _ => rfl, rfl, rfl⟩
  | some i =>
    rw [add_order_free free]
    have placed := place_well_formed (o := .create id symbol price quantity isBuy) well free unused
    exact ⟨_, remove_resting placed place_mem_new MemoryPool.occupied_deref_new,
      place_take_out well free unused⟩

end Inverse

theorem remove_others {b : OrderBook Price Id} (well : b.WellFormed) (id : Id) :
    ∃ c, b.removeOrder id = .ok c ∧ LeavesOthers b id c := by
  cases entry : b.idLookup id with
  | none =>
    have unused := well.lookup_none_iff.mp entry
    exact ⟨b, remove_order_absent entry, fun s => List.Sublist.refl _,
      fun s n member o held _ => ⟨member, held⟩, fun _ _ => rfl, unused, fun _ => rfl⟩
  | some it =>
    obtain ⟨n, o, member, _, held, named, done⟩ := remove_order_present well.toSound entry
    subst named
    have rests : b.live.Rests o.orderId := by
      by_contra absent
      rw [well.lookup_none_iff.mpr absent] at entry
      cases entry
    refine ⟨_, done, ?_, ?_, ?_, ?_, fun absent => absurd rests absent⟩
    · intro s
      rw [take_out_side]
      exact List.filter_sublist
    · intro s m inside p held' other
      have differ : m.it ≠ n.it := by
        intro same
        rw [well.node_eq (side_subset inside) member same, held] at held'
        cases held'
        exact other rfl
      have left : m ∈ (b.takeOut n o.orderId).side s := by
        rw [take_out_side]
        simpa using ⟨inside, differ⟩
      exact ⟨left, (take_out_deref well.toSound member _ (side_subset left)).trans held'⟩
    · intro other differ
      exact Function.update_of_ne differ ..
    · rw [take_out_live well member held, LiveBook.rests_iff]
      rintro ⟨r, inside, same⟩
      exact (LiveBook.mem_drop.mp inside).2 same

end OrderBook

section Reached
variable {layout : Layout} {poolSize : Nat} {calls : List (Call Price Id)} {s : Session Price Id}

theorem step_size {s t : Session Price Id} {call : Call Price Id} (step : Step s call t)
    (recorded : Recorded s) : t.book.pool.size = s.book.pool.size := by
  cases step with
  | accepted free =>
    rw [OrderBook.add_order_free free]
    exact OrderBook.place_size
  | refused full => rw [OrderBook.add_order_full full]
  | @removeOrder id c done =>
    obtain ⟨c', done', _, _, frame⟩ := OrderBook.remove_order_spec recorded.well id
    rw [done] at done'
    cases done'
    exact frame.size
  | matchOrders done => exact (OrderBook.match_orders_sound recorded.well done).2.2.2.size

theorem run_size (run : Run (Guarded Step Admissible) (.create layout poolSize) calls s) :
    s.book.pool.size = poolSize := by
  induction run with
  | nil => simp [Session.create, OrderBook.create, MemoryPool.create, MemoryPool.size]
  | snoc before last ih =>
    rw [step_size last.1 (admissible_run_recorded before)]
    exact ih

structure ExactPool (poolSize : Nat) (b : OrderBook Price Id) : Prop where
  usedSlots : b.pool.inUse.count true = b.nodes.length
  refused_iff : ∀ o, b.Refuses o ↔ b.nodes.length = poolSize
  accepted : ∀ id symbol price quantity isBuy,
    ¬ b.Refuses (.create id symbol price quantity isBuy) →
    (b.addOrder id symbol price quantity isBuy).nodes.length = b.nodes.length + 1
  atomic : ∀ id symbol price quantity isBuy, b.Refuses (.create id symbol price quantity isBuy) →
    b.addOrder id symbol price quantity isBuy = b

theorem exhaustion_exact
    (run : Run (Guarded Step Admissible) (.create layout poolSize) calls s) :
    ExactPool poolSize s.book := by
  have sound := (admissible_run_recorded run).well.toSound
  refine ⟨sound.used_count, ?_, ?_, ?_⟩
  · intro o
    rw [sound.refuses_iff, run_size run]
  · intro id symbol price quantity isBuy accepted
    rw [OrderBook.refuses_iff] at accepted
    obtain ⟨i, free⟩ := Option.ne_none_iff_exists'.mp accepted
    rw [OrderBook.add_order_free free, OrderBook.place_nodes_perm.length_eq, List.length_cons]
  · intro id symbol price quantity isBuy refused
    exact OrderBook.add_order_full (OrderBook.refuses_iff.mp refused) id symbol price quantity isBuy

theorem exhaustion_exact_two_slots : ∃ s : Session Int Nat,
    Run (Guarded Step Admissible) (.create ⟨4096, 64, by decide⟩ 2)
      [.addOrder 1 "AAPL" 101 40 true, .addOrder 2 "AAPL" 100 60 false, .matchOrders,
       .addOrder 3 "AAPL" 99 5 true] s ∧
      s.book.Refuses (.create 4 "AAPL" 98 7 true) ∧ ExactPool 2 s.book := by
  have replayed : ∃ s, replay (Session.attempt Admissible 4)
      (.create ⟨4096, 64, by decide⟩ 2 : Session Int Nat)
      [.addOrder 1 "AAPL" 101 40 true, .addOrder 2 "AAPL" 100 60 false, .matchOrders,
       .addOrder 3 "AAPL" 99 5 true] = some s ∧
      s.book.Refuses (.create 4 "AAPL" 98 7 true) := ⟨_, rfl, rfl⟩
  obtain ⟨s, done, refuses⟩ := replayed
  have run := run_of_replay attempt_step done
  exact ⟨s, run, refuses, exhaustion_exact run⟩

/-- Adding and removing an order gives the book back; removing one leaves the others. -/
theorem add_remove_laws
    (run : Run (Guarded Step Admissible) (.create layout poolSize) calls s) :
    (∀ id symbol price quantity isBuy, ¬ s.book.live.Rests id →
      ∃ c, (s.book.addOrder id symbol price quantity isBuy).removeOrder id = .ok c ∧
        s.book.SameBook c) ∧
    ∀ id, ∃ c, s.book.removeOrder id = .ok c ∧ s.book.LeavesOthers id c := by
  have well := (admissible_run_recorded run).well
  constructor
  · intro id symbol price quantity isBuy unused
    exact OrderBook.add_remove well unused symbol price quantity isBuy
  · exact OrderBook.remove_others well

theorem add_remove_laws_between : ∃ (s : Session Int Nat) (c : OrderBook Int Nat),
    Run (Guarded Step Admissible) (.create ⟨4096, 64, by decide⟩ 4)
      [.addOrder 1 "AAPL" 101 40 true, .addOrder 2 "AAPL" 101 60 true,
       .addOrder 3 "AAPL" 100 50 true, .removeOrder 1] s ∧
      (s.book.addOrder 4 "AAPL" 101 5 true).removeOrder 4 = .ok c ∧
      ((s.book.addOrder 4 "AAPL" 101 5 true).live.side true).map (fun r => r.order.orderId) =
        [2, 4, 3] ∧
      (c.live.side true).map (fun r => r.order.orderId) = [2, 3] ∧ s.book.SameBook c := by
  have replayed : ∃ s c, replay (Session.attempt Admissible 4)
      (.create ⟨4096, 64, by decide⟩ 4 : Session Int Nat)
      [.addOrder 1 "AAPL" 101 40 true, .addOrder 2 "AAPL" 101 60 true,
       .addOrder 3 "AAPL" 100 50 true, .removeOrder 1] = some s ∧
      (s.book.addOrder 4 "AAPL" 101 5 true).removeOrder 4 = .ok c ∧
      ((s.book.addOrder 4 "AAPL" 101 5 true).live.side true).map (fun r => r.order.orderId) =
        [2, 4, 3] ∧
      (c.live.side true).map (fun r => r.order.orderId) = [2, 3] ∧
      ¬ s.book.live.Rests 4 := ⟨_, _, rfl, rfl, rfl, rfl, by decide⟩
  obtain ⟨s, c, done, removed, between, left, unused⟩ := replayed
  have run := run_of_replay attempt_step done
  obtain ⟨d, removed', same⟩ := (add_remove_laws run).1 4 "AAPL" 101 5 true unused
  cases removed.symm.trans removed'
  exact ⟨s, c, run, removed, between, left, same⟩

end Reached
end Phase4
