import TradingSystems.Phase4.BookRuns
import Mathlib.Algebra.Order.Field.Rat
import Mathlib.Tactic.NormNum

/- A book that only receives orders, as the one of the main program does. It takes as many
   as its pool has slots and refuses the rest, and each side is a list of price levels,
   the best first, with the orders of a level in the order of their arrival. -/
namespace Phase4
open StableInsert
variable {Price Id : Type}

structure Request (Price Id : Type) where
  id : Id
  symbol : String
  price : Price
  quantity : Int
  isBuy : Bool

def Request.order (q : Request Price Id) : Order Price Id :=
  .create q.id q.symbol q.price q.quantity q.isBuy

def levelOf [DecidableEq Price] (os : List (Order Price Id)) (s : Bool) (k : Price) :
    List (Order Price Id) := os.filter fun o => o.isBuy = s ∧ o.price = k

variable [LinearOrder Price] [DecidableEq Id]

namespace OrderBook

def addAll (b : OrderBook Price Id) (qs : List (Request Price Id)) : OrderBook Price Id :=
  qs.foldl (fun b q => b.addOrder q.id q.symbol q.price q.quantity q.isBuy) b

/-- What a book is that has accepted these orders and no other call. -/
structure Holds (poolSize : Nat) (accepted : List (Order Price Id)) (b : OrderBook Price Id) :
    Prop where
  well : b.WellFormed
  size : b.pool.size = poolSize
  orders : (b.live.all.map Resting.order).Perm accepted
  levels : ∀ s (ks : List Price), ks.Pairwise (Better s) →
    (∀ o ∈ accepted, o.isBuy = s → o.price ∈ ks) →
      (b.live.side s).map Resting.order = ks.flatMap (levelOf accepted s)

section Adding
variable {poolSize : Nat} {accepted : List (Order Price Id)} {b : OrderBook Price Id}

omit [DecidableEq Id] in
theorem create_holds (layout : Layout) : Holds poolSize [] (create layout poolSize :
    OrderBook Price Id) where
  well := create_well_formed layout poolSize
  size := by simp [create, MemoryPool.create, MemoryPool.size]
  orders := by simp [create, live, LiveBook.all]
  levels := by
    intro s ks _ _
    have none : ∀ k ∈ ks, levelOf ([] : List (Order Price Id)) s k = [] := fun _ _ => rfl
    rw [List.flatMap_eq_nil_iff.mpr none]
    cases s <;> simp [create, live]

omit [DecidableEq Id] in
theorem Holds.full_iff (holds : Holds poolSize accepted b) :
    b.pool.firstFree = none ↔ accepted.length = poolSize := by
  rw [holds.well.full_iff, holds.size, ← holds.orders.length_eq, List.length_map]

omit [DecidableEq Id] in
theorem queue_level {o : Order Price Id} {stamp : Nat} {queue : List (Resting Price Id)}
    {ks : List Price} (sorted : ks.Pairwise (Better o.isBuy)) (listed : o.price ∈ ks)
    (levels : queue.map Resting.order = ks.flatMap (levelOf accepted o.isBuy)) :
    (LiveBook.queueIn ⟨stamp, o⟩ queue).map Resting.order =
      ks.flatMap (levelOf (accepted ++ [o]) o.isBuy) := by
  have shown : (LiveBook.queueIn ⟨stamp, o⟩ queue).map Resting.order =
      (queue.map Resting.order).orderedInsert (fun x y => Better o.isBuy x.price y.price) o :=
    List.map_orderedInsert _ _ _ _ _ (fun _ _ => Iff.rfl) fun _ _ => Iff.rfl
  have own : ∀ k, ∀ p ∈ levelOf accepted o.isBuy k, p.price = k := by
    intro k p member
    have same := (List.mem_filter.mp member).2
    simp only [decide_eq_true_eq] at same
    exact same.2
  rw [shown, levels, ordered_insert_levels (fun less => better_asymm less) sorted own listed]
  refine List.flatMap_congr fun k _ => ?_
  rw [levelOf, levelOf, List.filter_append]
  by_cases here : k = o.price <;> simp [here, eq_comm]

theorem Holds.accept (holds : Holds poolSize accepted b) {i : Nat}
    (free : b.pool.firstFree = some i) (q : Request Price Id)
    (unused : q.id ∉ accepted.map Order.orderId) :
    Holds poolSize (accepted ++ [q.order])
      (b.addOrder q.id q.symbol q.price q.quantity q.isBuy) := by
  have added : b.addOrder q.id q.symbol q.price q.quantity q.isBuy = b.place i q.order :=
    add_order_free free q.id q.symbol q.price q.quantity q.isBuy
  have live := place_live holds.well.toSound free (o := q.order)
  have absent : ¬ b.live.Rests q.order.orderId := by
    intro rests
    obtain ⟨r, member, named⟩ := LiveBook.rests_iff.mp rests
    have listed := holds.orders.mem_iff.mp (List.mem_map_of_mem member)
    exact unused (List.mem_map.mpr ⟨r.order, listed, named⟩)
  rw [added]
  refine ⟨place_well_formed holds.well free absent, place_size.trans holds.size, ?_, ?_⟩
  · have queued : (b.live.add ⟨b.nextNode, q.order⟩).all.Perm
        (⟨b.nextNode, q.order⟩ :: b.live.all) := by
      unfold LiveBook.add LiveBook.all LiveBook.queueIn
      split
      · exact (List.perm_orderedInsert _ _ _).append_right _
      · exact ((List.perm_orderedInsert _ _ _).append_left _).trans List.perm_middle
    have orders := (queued.map Resting.order).trans (holds.orders.cons q.order)
    rw [live]
    exact orders.trans (List.perm_append_singleton _ _).symm
  · intro s ks sorted listed
    have before := holds.levels s ks sorted fun o member =>
      listed o (List.mem_append_left _ member)
    rw [live]
    by_cases own : q.order.isBuy = s
    · subst own
      have side : (b.live.add ⟨b.nextNode, q.order⟩).side q.order.isBuy =
          LiveBook.queueIn ⟨b.nextNode, q.order⟩ (b.live.side q.order.isBuy) := by
        cases flag : q.order.isBuy <;> simp [LiveBook.add, flag]
      rw [side]
      exact queue_level sorted (listed _ (by simp) rfl) before
    · have side : (b.live.add ⟨b.nextNode, q.order⟩).side s = b.live.side s := by
        cases flag : q.order.isBuy <;> cases s <;> simp_all [LiveBook.add]
      rw [side, before]
      refine List.flatMap_congr fun k _ => ?_
      simp [levelOf, List.filter_append, own]

theorem add_all_holds (layout : Layout) (poolSize : Nat) (qs : List (Request Price Id))
    (distinct : (qs.map Request.id).Nodup) :
    Holds poolSize ((qs.take poolSize).map Request.order) ((create layout poolSize).addAll qs) := by
  induction qs using List.reverseRecOn with
  | nil => simpa [addAll] using create_holds layout
  | append_singleton qs q ih =>
    rw [List.map_append, List.nodup_append] at distinct
    obtain ⟨earlier, _, apart⟩ := distinct
    have holds := ih earlier
    rw [addAll, List.foldl_append, ← addAll]
    change Holds _ _ (((create layout poolSize).addAll qs).addOrder _ _ _ _ _)
    cases free : ((create layout poolSize).addAll qs).pool.firstFree with
    | none =>
      have full := holds.full_iff.mp free
      rw [List.length_map, List.length_take] at full
      rw [add_order_full free, List.take_append_of_le_length (by omega)]
      exact holds
    | some i =>
      have room : ((qs.take poolSize).map Request.order).length ≠ poolSize := by
        intro full
        rw [holds.full_iff.mpr full] at free
        cases free
      rw [List.length_map, List.length_take] at room
      have all : qs.take poolSize = qs := List.take_of_length_le (by omega)
      have one_more : (qs ++ [q]).take poolSize = qs ++ [q] :=
        List.take_of_length_le (by rw [List.length_append, List.length_singleton]; omega)
      rw [all] at holds
      rw [one_more, List.map_append]
      refine holds.accept free q ?_
      intro used
      obtain ⟨o, member, same⟩ := List.mem_map.mp used
      obtain ⟨p, listed, rfl⟩ := List.mem_map.mp member
      exact apart _ (List.mem_map_of_mem listed) _ (by simp) same

/-- Of distinct orders added to an empty book, the first as many as the pool has slots rest,
    and a side lists its price levels, the best first, each by arrival. -/
theorem adds_only_levels (layout : Layout) (poolSize : Nat) (qs : List (Request Price Id))
    (distinct : (qs.map Request.id).Nodup) :
    let b := (create layout poolSize).addAll qs
    let accepted := (qs.take poolSize).map Request.order
    (b.live.all.map Resting.order).Perm accepted ∧
    ∀ s (ks : List Price), ks.Pairwise (Better s) →
      (∀ o ∈ accepted, o.isBuy = s → o.price ∈ ks) →
        (b.live.side s).map Resting.order = ks.flatMap (levelOf accepted s) := by
  intro b accepted
  have holds := add_all_holds layout poolSize qs distinct
  exact ⟨holds.orders, holds.levels⟩

theorem adds_only_levels_two_slots :
    let qs : List (Request Int Nat) := [⟨1, "AAPL", 100, 10, true⟩, ⟨2, "AAPL", 101, 10, true⟩,
      ⟨3, "AAPL", 102, 10, true⟩]
    let b := (create ⟨4096, 64, by decide⟩ 2).addAll qs
    (b.live.side true).map (fun r => r.order.orderId) = [2, 1] := by
  intro qs b
  have levels := (adds_only_levels ⟨4096, 64, by decide⟩ 2 qs (by decide)).2 true [101, 100]
    (by decide) (by decide)
  have shown := congrArg (List.map Order.orderId) levels
  rw [List.map_map] at shown
  exact shown

end Adding
end OrderBook

def tickRequest (i : Nat) : Request ℚ Nat := ⟨i, "AAPL", 150 + (i % 5 : Nat), 100, i % 2 = 0⟩

def tickBook (layout : Layout) (poolSize numTicks : Nat) : OrderBook ℚ Nat :=
  (OrderBook.create layout poolSize).addAll ((List.range numTicks).map tickRequest)

def tickLevels (s : Bool) : List Nat := if s then [4, 3, 2, 1, 0] else [0, 1, 2, 3, 4]

theorem tick_requests_taken (poolSize numTicks : Nat) :
    (((List.range numTicks).map tickRequest).take poolSize).map Request.order =
      (List.range (min poolSize numTicks)).map fun i => (tickRequest i).order := by
  rw [← List.map_take, List.take_range, List.map_map]
  rfl

theorem tick_level (n : Nat) (s : Bool) (k : Nat) :
    levelOf ((List.range n).map fun i => (tickRequest i).order) s (150 + (k : ℚ)) =
      ((List.range n).filter fun i => (i % 2 = 0 ↔ s = true) ∧ i % 5 = k).map fun i =>
        .create i "AAPL" (150 + (k : ℚ)) 100 s := by
  have test : ∀ i, ((tickRequest i).order.isBuy = s ∧ (tickRequest i).order.price = 150 + (k : ℚ)) ↔
      (i % 2 = 0 ↔ s = true) ∧ i % 5 = k := by
    intro i
    have price : (150 : ℚ) + (i % 5 : Nat) = 150 + (k : ℚ) ↔ i % 5 = k := by
      rw [add_right_inj, Nat.cast_inj]
    rw [← price]
    cases s <;> simp [tickRequest, Request.order, Order.create]
  rw [levelOf, List.filter_map]
  simp only [Function.comp_def, test]
  refine List.map_congr_left fun i member => ?_
  obtain ⟨parity, residue⟩ := of_decide_eq_true (List.mem_filter.mp member).2
  have side : decide (i % 2 = 0) = s := by simp [parity]
  rw [tickRequest, Request.order, side, residue]

theorem tick_requests_distinct (numTicks : Nat) :
    (((List.range numTicks).map tickRequest).map Request.id).Nodup := by
  have ids : ((List.range numTicks).map tickRequest).map Request.id = List.range numTicks := by
    rw [List.map_map]
    exact List.map_id _
  rw [ids]
  exact List.nodup_range

theorem tick_levels_sorted (s : Bool) :
    ((tickLevels s).map fun k : Nat => (150 : ℚ) + (k : ℚ)).Pairwise (Better s) := by
  cases s <;> simp [tickLevels, Better] <;> norm_num

theorem tick_price_listed (s : Bool) (i : Nat) :
    (tickRequest i).price ∈ (tickLevels s).map fun k : Nat => (150 : ℚ) + (k : ℚ) := by
  have below : i % 5 < 5 := Nat.mod_lt i (by decide)
  refine List.mem_map.mpr ⟨i % 5, ?_, rfl⟩
  cases s <;> simp only [tickLevels] <;> simp <;> omega

theorem tick_rests (layout : Layout) {poolSize numTicks i : Nat}
    (accepted : i < min poolSize numTicks) :
    ∃ r ∈ (tickBook layout poolSize numTicks).live.side (i % 2 = 0),
      r.order.price = 150 + (i % 5 : Nat) := by
  have holds := OrderBook.add_all_holds layout poolSize _ (tick_requests_distinct numTicks)
  rw [tick_requests_taken] at holds
  have member : (tickRequest i).order ∈ (List.range (min poolSize numTicks)).map
      fun i => (tickRequest i).order := List.mem_map.mpr ⟨i, List.mem_range.mpr accepted, rfl⟩
  obtain ⟨r, listed, same⟩ := List.mem_map.mp (holds.orders.mem_iff.mpr member)
  obtain ⟨s, inside⟩ := LiveBook.mem_all.mp listed
  have side := holds.well.live_is_buy inside
  rw [same] at side
  refine ⟨r, ?_, by rw [same]; rfl⟩
  rw [show decide (i % 2 = 0) = s from side]
  exact inside

/-- The main program's bids end as five levels from 154 down and its asks as five levels
    from 150 up, each with the orders of its accepted ticks as they came. Nothing is ever
    matched: from the third accepted tick on the book is crossed. -/
theorem tick_book_levels (layout : Layout) (poolSize numTicks : Nat) :
    (∀ s, ((tickBook layout poolSize numTicks).live.side s).map Resting.order =
      (tickLevels s).flatMap fun k => ((List.range (min poolSize numTicks)).filter fun i =>
        (i % 2 = 0 ↔ s = true) ∧ i % 5 = k).map fun i =>
          .create i "AAPL" (150 + (k : ℚ)) 100 s) ∧
    (3 ≤ min poolSize numTicks → (tickBook layout poolSize numTicks).live.matchHead ≠ none) := by
  constructor
  · intro s
    have holds := OrderBook.add_all_holds layout poolSize _ (tick_requests_distinct numTicks)
    rw [tick_requests_taken] at holds
    have levels := holds.levels s _ (tick_levels_sorted s) (by
      intro o member _
      obtain ⟨i, _, rfl⟩ := List.mem_map.mp member
      exact tick_price_listed s i)
    rw [List.flatMap_map] at levels
    simp only [tick_level] at levels
    exact levels
  · intro three stopped
    have holds := OrderBook.add_all_holds layout poolSize _ (tick_requests_distinct numTicks)
    obtain ⟨bid, buy, high⟩ := tick_rests layout (show 2 < min poolSize numTicks by omega)
    obtain ⟨ask, sell, low⟩ := tick_rests layout (show 1 < min poolSize numTicks by omega)
    have apart := LiveBook.apart_of_stopped holds.well.queue_ahead stopped buy sell
    rw [high, low] at apart
    norm_num at apart

end Phase4
