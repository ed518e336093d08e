import TradingSystems.Phase4.BookInvariant

/- What add_order and remove_order do to a book that satisfies the invariant, and
   the step of the live book that each one refines. -/
namespace Phase4
open StableInsert DistinctKeys
variable {Price Id : Type} [DecidableEq Id]

namespace OrderBook

def place [LinearOrder Price] (b : OrderBook Price Id) (i : Nat) (o : Order Price Id) :
    OrderBook Price Id :=
  let node : Node Price := ⟨b.nextNode, o.price, b.pool.layout.addr i⟩
  { pool := b.pool.occupy i o
    buyOrders := if o.isBuy then emplace true node b.buyOrders else b.buyOrders
    sellOrders := if o.isBuy then b.sellOrders else emplace false node b.sellOrders
    idLookup := Function.update b.idLookup o.orderId (some b.nextNode)
    nextNode := b.nextNode + 1 }

def takeOut (b : OrderBook Price Id) (n : Node Price) (id : Id) : OrderBook Price Id :=
  { pool := b.pool.deallocate (some n.order)
    buyOrders := b.buyOrders.filter (fun m => m.it ≠ n.it)
    sellOrders := b.sellOrders.filter (fun m => m.it ≠ n.it)
    idLookup := Function.update b.idLookup id none
    nextNode := b.nextNode }

/-- No node was made and no slot was added or lost. -/
structure Frame (b c : OrderBook Price Id) : Prop where
  nextNode : c.nextNode = b.nextNode
  size : c.pool.size = b.pool.size

omit [DecidableEq Id] in
theorem Frame.refl (b : OrderBook Price Id) : Frame b b := ⟨rfl, rfl⟩

omit [DecidableEq Id] in
theorem Frame.trans {b c d : OrderBook Price Id} (first : Frame b c) (second : Frame c d) :
    Frame b d :=
  ⟨second.nextNode.trans first.nextNode, second.size.trans first.size⟩

section Add
variable [LinearOrder Price] {b : OrderBook Price Id} {i : Nat} {o : Order Price Id}

theorem add_order_full (full : b.pool.firstFree = none) (id : Id) (symbol : String)
    (price : Price) (quantity : Int) (isBuy : Bool) :
    b.addOrder id symbol price quantity isBuy = b := by
  simp only [addOrder, MemoryPool.allocate_full full]

theorem add_order_free (free : b.pool.firstFree = some i) (id : Id) (symbol : String)
    (price : Price) (quantity : Int) (isBuy : Bool) :
    b.addOrder id symbol price quantity isBuy =
      b.place i (.create id symbol price quantity isBuy) := by
  simp only [addOrder, MemoryPool.allocate_ok free]
  cases isBuy <;> rfl

theorem place_side (s : Bool) : (b.place i o).side s =
    if s = o.isBuy then emplace s ⟨b.nextNode, o.price, b.pool.layout.addr i⟩ (b.side s)
    else b.side s := by
  cases s <;> cases flag : o.isBuy <;> simp [place, side, flag]

theorem place_nodes_perm : (b.place i o).nodes.Perm
    (⟨b.nextNode, o.price, b.pool.layout.addr i⟩ :: b.nodes) := by
  cases flag : o.isBuy
  · simp only [place, nodes, flag, Bool.false_eq_true, ↓reduceIte]
    exact ((emplace_perm false _ b.sellOrders).append_left b.buyOrders).trans List.perm_middle
  · simp only [place, nodes, flag, ↓reduceIte]
    exact (emplace_perm true _ b.buyOrders).append_right b.sellOrders

theorem place_mem_new :
    (⟨b.nextNode, o.price, b.pool.layout.addr i⟩ : Node Price) ∈ (b.place i o).nodes :=
  place_nodes_perm.mem_iff.mpr List.mem_cons_self

theorem place_mem_old {n : Node Price} (member : n ∈ b.nodes) : n ∈ (b.place i o).nodes :=
  place_nodes_perm.mem_iff.mpr (List.mem_cons_of_mem _ member)

theorem place_size : (b.place i o).pool.size = b.pool.size := by
  simp [place, MemoryPool.occupy, MemoryPool.size]

theorem place_deref_old (sound : b.Sound) (free : b.pool.firstFree = some i) {n : Node Price}
    (member : n ∈ b.nodes) : (b.place i o).pool.deref n.order = b.pool.deref n.order :=
  MemoryPool.occupied_deref_old sound.owns free (List.mem_map.mpr ⟨n, member, rfl⟩)

theorem place_sound (sound : b.Sound) (free : b.pool.firstFree = some i) :
    (b.place i o).Sound where
  owns := by
    refine (MemoryPool.occupied_owns sound.owns free).perm ?_
    exact (place_nodes_perm.map Node.order).symm
  distinct := by
    rw [(place_nodes_perm.map Node.it).nodup_iff, List.map_cons, List.nodup_cons]
    refine ⟨?_, sound.distinct⟩
    intro member
    obtain ⟨n, old, same⟩ := List.mem_map.mp member
    have older := sound.fresh n old
    simp only at same
    omega
  fresh := by
    intro n member
    rcases List.mem_cons.mp (place_nodes_perm.mem_iff.mp member) with new | old
    · subst n; exact Nat.lt_succ_self _
    · exact Nat.lt_succ_of_lt (sound.fresh n old)
  holds := by
    intro s n member
    rw [place_side] at member
    split at member
    · rename_i flag
      rcases List.mem_cons.mp ((emplace_perm s _ _).mem_iff.mp member) with new | old
      · subst n
        exact ⟨o, MemoryPool.occupied_deref_new, rfl, flag.symm⟩
      · rw [place_deref_old sound free (side_subset old)]
        exact sound.holds s n old
    · rw [place_deref_old sound free (side_subset member)]
      exact sound.holds s n member
  queued := by
    intro s
    rw [place_side]
    split
    · exact emplace_queued (sound.queued s) fun n member => sound.fresh n (side_subset member)
    · exact sound.queued s
  leads := by
    intro id it entry
    by_cases named : id = o.orderId
    · subst named
      simp only [place, Function.update_self, Option.some.injEq] at entry
      refine ⟨_, place_mem_new, entry, o, ?_, rfl⟩
      exact MemoryPool.occupied_deref_new
    · simp only [place, Function.update_of_ne named] at entry
      obtain ⟨n, member, same, p, held, own⟩ := sound.leads id it entry
      refine ⟨n, place_mem_old member, same, p, ?_, own⟩
      rw [place_deref_old sound free member]
      exact held

theorem place_well_formed (well : b.WellFormed) (free : b.pool.firstFree = some i)
    (unused : ¬ b.live.Rests o.orderId) : (b.place i o).WellFormed where
  toSound := place_sound well.toSound free
  indexed := by
    intro n member p held
    rcases List.mem_cons.mp (place_nodes_perm.mem_iff.mp member) with new | old
    · subst n
      have built : (b.place i o).pool.deref (b.pool.layout.addr i) = some o :=
        MemoryPool.occupied_deref_new
      rw [built] at held
      cases held
      simp [place]
    · rw [place_deref_old well.toSound free old] at held
      have entry := well.indexed n old p held
      have other : p.orderId ≠ o.orderId := by
        intro same
        rw [same, well.lookup_none_iff.mpr unused] at entry
        cases entry
      simpa [place, Function.update_of_ne other] using entry

theorem place_live (sound : b.Sound) (free : b.pool.firstFree = some i) :
    (b.place i o).live = b.live.add ⟨b.nextNode, o⟩ := by
  have old : ∀ s, (b.side s).filterMap (b.place i o).resting = (b.side s).filterMap b.resting :=
    fun s => resting_congr fun n member => place_deref_old sound free (side_subset member)
  have queue : ∀ s, o.isBuy = s →
      (emplace s ⟨b.nextNode, o.price, b.pool.layout.addr i⟩ (b.side s)).filterMap
        (b.place i o).resting = LiveBook.queueIn ⟨b.nextNode, o⟩ (b.live.side s) := by
    intro s flag
    have built : (b.place i o).pool.deref (b.pool.layout.addr i) = some o :=
      MemoryPool.occupied_deref_new
    rw [live_side, ← old s]
    refine filterMap_ordered_insert _ (by simp [resting, built]) ?_
    intro n member
    obtain ⟨p, held, view, price⟩ := sound.resting_some (side_subset member)
    refine ⟨⟨n.it, p⟩, ?_, ?_⟩
    · simp [resting, place_deref_old sound free (side_subset member), held]
    · simp [flag, price]
  have old_bids := old true
  have old_asks := old false
  simp only [side] at old_bids old_asks
  cases flag : o.isBuy
  · have joined := queue false flag
    simp only [side, LiveBook.side_false] at joined
    simp only [LiveBook.add, flag, Bool.false_eq_true, ↓reduceIte]
    simp only [live, place, flag, Bool.false_eq_true, ↓reduceIte] at old_bids joined ⊢
    rw [old_bids, joined]
  · have joined := queue true flag
    simp only [side, LiveBook.side_true] at joined
    simp only [LiveBook.add, flag, ↓reduceIte]
    simp only [live, place, flag, ↓reduceIte] at old_asks joined ⊢
    rw [old_asks, joined]

end Add

section Remove
variable {b : OrderBook Price Id} {n : Node Price} {o : Order Price Id}

theorem take_out_nodes (id : Id) :
    (b.takeOut n id).nodes = b.nodes.filter (fun m => m.it ≠ n.it) := by
  simp [takeOut, nodes]

theorem take_out_side (id : Id) (s : Bool) :
    (b.takeOut n id).side s = (b.side s).filter (fun m => m.it ≠ n.it) := by
  cases s <;> rfl

theorem take_out_frame (id : Id) : Frame b (b.takeOut n id) := by
  refine ⟨rfl, ?_⟩
  simp only [takeOut, MemoryPool.deallocate, MemoryPool.size]
  split <;> simp

theorem take_out_subset {id : Id} {m : Node Price} (member : m ∈ (b.takeOut n id).nodes) :
    m ∈ b.nodes ∧ m.it ≠ n.it := by
  rw [take_out_nodes] at member
  simpa using member

theorem remove_order_absent {id : Id} (absent : b.idLookup id = none) :
    b.removeOrder id = .ok b := by
  simp [removeOrder, absent]

variable [LinearOrder Price]

theorem take_out_owns (sound : b.Sound) (member : n ∈ b.nodes) (id : Id) :
    b.pool.Owns (n.order :: (b.takeOut n id).nodes.map Node.order) := by
  refine sound.owns.perm ?_
  rw [take_out_nodes]
  exact (perm_cons_filter sound.distinct member).map Node.order

theorem take_out_deref (sound : b.Sound) (member : n ∈ b.nodes) (id : Id) {m : Node Price}
    (left : m ∈ (b.takeOut n id).nodes) :
    (b.takeOut n id).pool.deref m.order = b.pool.deref m.order :=
  MemoryPool.deallocated_deref (take_out_owns sound member id) (List.mem_map.mpr ⟨m, left, rfl⟩)

theorem take_out_sound (sound : b.Sound) (member : n ∈ b.nodes)
    (held : b.pool.deref n.order = some o) : (b.takeOut n o.orderId).Sound where
  owns := MemoryPool.deallocated_owns (take_out_owns sound member o.orderId)
  distinct := by
    rw [take_out_nodes]
    exact (List.filter_sublist.map Node.it).nodup sound.distinct
  fresh m left := sound.fresh m (take_out_subset left).1
  holds := by
    intro s m left
    rw [take_out_deref sound member _ (side_subset left)]
    rw [take_out_side] at left
    exact sound.holds s m (List.mem_of_mem_filter left)
  queued := by
    intro s
    rw [take_out_side]
    exact (sound.queued s).filter _
  leads := by
    intro id it entry
    by_cases named : id = o.orderId
    · subst named
      simp [takeOut] at entry
    · simp only [takeOut, Function.update_of_ne named] at entry
      obtain ⟨m, inside, same, p, held', own⟩ := sound.leads id it entry
      have differ : m.it ≠ n.it := by
        intro eq
        rw [sound.node_eq inside member eq, held] at held'
        cases held'
        exact named own.symm
      have left : m ∈ (b.takeOut n o.orderId).nodes := by
        rw [take_out_nodes]
        simpa using ⟨inside, differ⟩
      exact ⟨m, left, same, p, by rw [take_out_deref sound member _ left]; exact held', own⟩

theorem take_out_well_formed (well : b.WellFormed) (member : n ∈ b.nodes)
    (held : b.pool.deref n.order = some o) : (b.takeOut n o.orderId).WellFormed where
  toSound := take_out_sound well.toSound member held
  indexed := by
    intro m left p held'
    rw [take_out_deref well.toSound member _ left] at held'
    obtain ⟨inside, differ⟩ := take_out_subset left
    have entry := well.indexed m inside p held'
    have other : p.orderId ≠ o.orderId := by
      intro same
      rw [same, well.indexed n member o held] at entry
      exact differ (Option.some.inj entry).symm
    simpa [takeOut, Function.update_of_ne other] using entry

theorem take_out_without (sound : b.Sound) (member : n ∈ b.nodes) (id : Id) :
    (b.takeOut n id).live = b.live.without n.it := by
  have queue : ∀ s, ((b.side s).filter (fun m => m.it ≠ n.it)).filterMap
      (b.takeOut n id).resting =
        ((b.side s).filterMap b.resting).filter (fun r => r.stamp ≠ n.it) := by
    intro s
    rw [← take_out_side id, resting_congr (b := b) fun m left =>
      take_out_deref sound member id (side_subset left), take_out_side,
      List.filter_filterMap, List.filterMap_filter]
    apply List.filterMap_congr
    intro m inside
    obtain ⟨p, _, view, _⟩ := sound.resting_some (side_subset inside)
    rw [view]
    by_cases same : m.it = n.it <;> simp [same, Option.filter_some]
  have bids := queue true
  have asks := queue false
  simp only [side] at bids asks
  simp only [live, LiveBook.without]
  rw [← bids, ← asks]
  rfl

/-- An indexed order is the only one with its identifier. -/
theorem without_eq_drop (well : b.WellFormed) (member : n ∈ b.nodes)
    (held : b.pool.deref n.order = some o) : b.live.without n.it = b.live.drop o.orderId := by
  have same : ∀ r ∈ b.live.all, decide (r.stamp ≠ n.it) = decide (r.order.orderId ≠ o.orderId) := by
    intro r inside
    rw [decide_eq_decide]
    apply not_congr
    constructor
    · intro stamp
      obtain ⟨m, listed, it, read⟩ := well.mem_live_all.mp inside
      rw [well.node_eq listed member (it.trans stamp), held] at read
      exact congrArg Order.orderId (Option.some.inj read).symm
    · intro named
      have entry := well.lookup_iff.mpr ⟨r, inside, named, rfl⟩
      rw [well.indexed n member o held] at entry
      exact (Option.some.inj entry).symm
  have bids := List.filter_congr fun r (listed : r ∈ b.live.bids) =>
    same r (List.mem_append_left _ listed)
  have asks := List.filter_congr fun r (listed : r ∈ b.live.asks) =>
    same r (List.mem_append_right _ listed)
  exact congrArg₂ LiveBook.mk bids asks

theorem take_out_live (well : b.WellFormed) (member : n ∈ b.nodes)
    (held : b.pool.deref n.order = some o) :
    (b.takeOut n o.orderId).live = b.live.drop o.orderId := by
  rw [take_out_without well.toSound member, without_eq_drop well member held]

theorem remove_order_present (sound : b.Sound) {id : Id} {it : Nat}
    (entry : b.idLookup id = some it) :
    ∃ n o, n ∈ b.nodes ∧ n.it = it ∧ b.pool.deref n.order = some o ∧ o.orderId = id ∧
      b.removeOrder id = .ok (b.takeOut n id) := by
  obtain ⟨n, member, same, o, held, named⟩ := sound.leads id it entry
  refine ⟨n, o, member, same, held, named, ?_⟩
  subst same
  have found : b.node n.it = .ok n := by
    simp only [node, find_key sound.distinct member]
  have read : b.order n.order = .ok o := by simp only [order, held]
  have split := sound.distinct
  simp only [nodes, List.map_append] at split
  obtain ⟨s, inside⟩ := mem_nodes.mp member
  obtain ⟨p, held', _, flag⟩ := sound.holds s n inside
  rw [held] at held'
  cases held'
  have listed : n.it ∈ (b.side s).map Node.it := List.mem_map.mpr ⟨n, inside, rfl⟩
  cases s
  · have absent : n.it ∉ b.buyOrders.map Node.it := fun left =>
      List.disjoint_of_nodup_append split left listed
    have same_bids := filter_absent absent
    simp only [side] at listed
    simpa [removeOrder, entry, found, read, flag, eraseNode, listed, takeOut, bind, Except.bind,
      pure, Except.pure] using same_bids.symm
  · have absent : n.it ∉ b.sellOrders.map Node.it := fun right =>
      List.disjoint_of_nodup_append split listed right
    have same_asks := filter_absent absent
    simp only [side] at listed
    simpa [removeOrder, entry, found, read, flag, eraseNode, listed, takeOut, bind, Except.bind,
      pure, Except.pure] using same_asks.symm

/-- remove_order always returns, keeps the invariant and drops the identifier. -/
theorem remove_order_spec (well : b.WellFormed) (id : Id) :
    ∃ c, b.removeOrder id = .ok c ∧ c.WellFormed ∧ c.live = b.live.drop id ∧ Frame b c := by
  cases entry : b.idLookup id with
  | none =>
    refine ⟨b, remove_order_absent entry, well, ?_, Frame.refl b⟩
    have unused := well.lookup_none_iff.mp entry
    have kept : ∀ r ∈ b.live.all, r.order.orderId ≠ id := fun r member named =>
      unused (LiveBook.rests_iff.mpr ⟨r, member, named⟩)
    have bids : b.live.bids.filter (fun r => r.order.orderId ≠ id) = b.live.bids := by
      rw [List.filter_eq_self]
      exact fun r member => decide_eq_true (kept r (by simp [LiveBook.all, member]))
    have asks : b.live.asks.filter (fun r => r.order.orderId ≠ id) = b.live.asks := by
      rw [List.filter_eq_self]
      exact fun r member => decide_eq_true (kept r (by simp [LiveBook.all, member]))
    simp only [LiveBook.drop, bids, asks]
  | some it =>
    obtain ⟨n, o, member, _, held, named, done⟩ := remove_order_present well.toSound entry
    subst named
    exact ⟨_, done, take_out_well_formed well member held, take_out_live well member held,
      take_out_frame o.orderId⟩

end Remove
end OrderBook
end Phase4
