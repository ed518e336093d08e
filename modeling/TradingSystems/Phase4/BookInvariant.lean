import TradingSystems.Phase4.LiveBook
import TradingSystems.Library.DistinctKeys

/- The representation invariant of the book and the book of live orders behind it.
   Four structures move together: both multimaps, the lookup of iterators and the
   slot bitmap. `Sound` is kept by every call; `indexed` needs distinct identifiers. -/
namespace Phase4
open StableInsert DistinctKeys
variable {Price Id : Type}

section Queues
variable [LinearOrder Price]

/-- Strictly ahead in a multimap: better key, or the same key and an older node. -/
def NodeAhead (isBuy : Bool) (m n : Node Price) : Prop :=
  Better isBuy m.key n.key ∨ (m.key = n.key ∧ m.it < n.it)

theorem better_trans {isBuy : Bool} {p q r : Price} (pq : Better isBuy p q)
    (qr : Better isBuy q r) : Better isBuy p r := by
  cases isBuy
  · simp only [Better, Bool.false_eq_true, ↓reduceIte] at *; exact lt_trans pq qr
  · simp only [Better, ↓reduceIte] at *; exact lt_trans qr pq

theorem better_asymm {isBuy : Bool} {p q : Price} (pq : Better isBuy p q) : ¬ Better isBuy q p := by
  intro qp
  have self := better_trans pq qp
  cases isBuy <;> simp [Better] at self

theorem better_or_eq {isBuy : Bool} {p q : Price} (no : ¬ Better isBuy p q) :
    Better isBuy q p ∨ q = p := by
  cases isBuy
  · simp only [Better, Bool.false_eq_true, ↓reduceIte, not_lt] at *
    exact lt_or_eq_of_le no
  · simp only [Better, ↓reduceIte, not_lt] at *
    exact (lt_or_eq_of_le no).imp id Eq.symm

theorem emplace_queued {isBuy : Bool} {node : Node Price} {side : List (Node Price)}
    (queued : side.Pairwise (NodeAhead isBuy)) (newest : ∀ n ∈ side, n.it < node.it) :
    (emplace isBuy node side).Pairwise (NodeAhead isBuy) := by
  refine ordered_insert_pairwise queued (fun _ _ wins => Or.inl wins) ?_ ?_
  · intro n member loses
    exact (better_or_eq loses).imp id fun same => ⟨same, newest n member⟩
  · intro n _ m _ wins ahead
    rcases ahead with better | tie
    · exact better_trans wins better
    · exact tie.1 ▸ wins

theorem emplace_perm (isBuy : Bool) (node : Node Price) (side : List (Node Price)) :
    (emplace isBuy node side).Perm (node :: side) := List.perm_orderedInsert _ _ _

end Queues

namespace OrderBook

def side (b : OrderBook Price Id) : Bool → List (Node Price)
  | true => b.buyOrders
  | false => b.sellOrders

/-- The order that a node owns, with the node as its arrival stamp. -/
def resting (b : OrderBook Price Id) (n : Node Price) : Option (Resting Price Id) :=
  (b.pool.deref n.order).map (Resting.mk n.it)

def live (b : OrderBook Price Id) : LiveBook Price Id :=
  ⟨b.buyOrders.filterMap b.resting, b.sellOrders.filterMap b.resting⟩

structure Sound [LinearOrder Price] (b : OrderBook Price Id) : Prop where
  owns : b.pool.Owns (b.nodes.map Node.order)
  distinct : (b.nodes.map Node.it).Nodup
  fresh : ∀ n ∈ b.nodes, n.it < b.nextNode
  holds : ∀ s, ∀ n ∈ b.side s, ∃ o, b.pool.deref n.order = some o ∧ o.price = n.key ∧ o.isBuy = s
  queued : ∀ s, (b.side s).Pairwise (NodeAhead s)
  leads : ∀ id it, b.idLookup id = some it →
    ∃ n ∈ b.nodes, n.it = it ∧ ∃ o, b.pool.deref n.order = some o ∧ o.orderId = id

structure WellFormed [LinearOrder Price] (b : OrderBook Price Id) : Prop extends b.Sound where
  indexed : ∀ n ∈ b.nodes, ∀ o, b.pool.deref n.order = some o → b.idLookup o.orderId = some n.it

theorem mem_nodes {b : OrderBook Price Id} {n : Node Price} :
    n ∈ b.nodes ↔ ∃ s, n ∈ b.side s := by
  simp [nodes, side, or_comm]

theorem side_subset {b : OrderBook Price Id} {s : Bool} {n : Node Price} (member : n ∈ b.side s) :
    n ∈ b.nodes := mem_nodes.mpr ⟨s, member⟩

theorem live_side (b : OrderBook Price Id) (s : Bool) :
    b.live.side s = (b.side s).filterMap b.resting := by
  cases s <;> rfl

theorem live_all (b : OrderBook Price Id) : b.live.all = b.nodes.filterMap b.resting := by
  simp [live, LiveBook.all, nodes]

theorem create_well_formed [LinearOrder Price] (layout : Layout) (poolSize : Nat) :
    (create layout poolSize : OrderBook Price Id).WellFormed where
  owns := by simpa [create, nodes] using MemoryPool.create_owns layout poolSize
  distinct := by simp [create, nodes]
  fresh := by simp [create, nodes]
  holds := by intro s; cases s <;> simp [create, side]
  queued := by intro s; cases s <;> simp [create, side]
  leads := by simp [create]
  indexed := by simp [create, nodes]

section Views
variable {b c : OrderBook Price Id}

theorem resting_congr {ns : List (Node Price)}
    (same : ∀ n ∈ ns, c.pool.deref n.order = b.pool.deref n.order) :
    ns.filterMap c.resting = ns.filterMap b.resting := by
  apply List.filterMap_congr
  intro n member
  simp [resting, same n member]

variable [LinearOrder Price]

theorem Sound.resting_some (sound : b.Sound) {n : Node Price} (member : n ∈ b.nodes) :
    ∃ o, b.pool.deref n.order = some o ∧ b.resting n = some ⟨n.it, o⟩ ∧ o.price = n.key := by
  obtain ⟨s, member⟩ := mem_nodes.mp member
  obtain ⟨o, held, price, _⟩ := sound.holds s n member
  exact ⟨o, held, by simp [resting, held], price⟩

theorem Sound.mem_live_side (sound : b.Sound) {s : Bool} {r : Resting Price Id} :
    r ∈ b.live.side s ↔
      ∃ n ∈ b.side s, n.it = r.stamp ∧ b.pool.deref n.order = some r.order := by
  rw [live_side, List.mem_filterMap]
  constructor
  · rintro ⟨n, member, shown⟩
    obtain ⟨o, held, _⟩ := sound.holds s n member
    rw [resting, held] at shown
    cases shown
    exact ⟨n, member, rfl, held⟩
  · rintro ⟨n, member, stamp, held⟩
    exact ⟨n, member, by simp [resting, held, stamp]⟩

theorem Sound.mem_live_all (sound : b.Sound) {r : Resting Price Id} :
    r ∈ b.live.all ↔ ∃ n ∈ b.nodes, n.it = r.stamp ∧ b.pool.deref n.order = some r.order := by
  rw [LiveBook.mem_all]
  constructor
  · rintro ⟨s, member⟩
    obtain ⟨n, inside, rest⟩ := sound.mem_live_side.mp member
    exact ⟨n, side_subset inside, rest⟩
  · rintro ⟨n, member, rest⟩
    obtain ⟨s, inside⟩ := mem_nodes.mp member
    exact ⟨s, sound.mem_live_side.mpr ⟨n, inside, rest⟩⟩

theorem Sound.node_eq (sound : b.Sound) {m n : Node Price} (hm : m ∈ b.nodes) (hn : n ∈ b.nodes)
    (same : m.it = n.it) : m = n := eq_of_key sound.distinct hm hn same

theorem Sound.pointers_apart (sound : b.Sound) {m n : Node Price} (hm : m ∈ b.nodes)
    (hn : n ∈ b.nodes) (differ : m.it ≠ n.it) : m.order ≠ n.order := fun same =>
  differ (congrArg Node.it (eq_of_key sound.owns.distinct hm hn same))

theorem Sound.side_eq (sound : b.Sound) {m n : Node Price} {s t : Bool} (hm : m ∈ b.side s)
    (hn : n ∈ b.side t) (same : m.it = n.it) : s = t := by
  have eq := sound.node_eq (side_subset hm) (side_subset hn) same
  subst eq
  obtain ⟨o, held, _, flag⟩ := sound.holds s m hm
  obtain ⟨p, held', _, flag'⟩ := sound.holds t m hn
  rw [held] at held'
  cases held'
  exact flag.symm.trans flag'

/-- The lookup has an entry for exactly the identifiers at rest. -/
theorem WellFormed.lookup_iff (well : b.WellFormed) {id : Id} {it : Nat} :
    b.idLookup id = some it ↔ ∃ r ∈ b.live.all, r.order.orderId = id ∧ r.stamp = it := by
  constructor
  · intro entry
    obtain ⟨n, member, same, o, held, named⟩ := well.leads id it entry
    exact ⟨⟨n.it, o⟩, well.mem_live_all.mpr ⟨n, member, rfl, held⟩, named, same⟩
  · rintro ⟨r, member, named, stamp⟩
    obtain ⟨n, inside, same, held⟩ := well.mem_live_all.mp member
    rw [← named, ← stamp, ← same]
    exact well.indexed n inside r.order held

theorem WellFormed.lookup_none_iff (well : b.WellFormed) {id : Id} :
    b.idLookup id = none ↔ ¬ b.live.Rests id := by
  rw [LiveBook.rests_iff, Option.eq_none_iff_forall_ne_some]
  simp only [Ne, well.lookup_iff]
  constructor
  · rintro absent ⟨r, member, named⟩
    exact absent r.stamp ⟨r, member, named, rfl⟩
  · rintro absent it ⟨r, member, named, _⟩
    exact absent ⟨r, member, named⟩

theorem Sound.live_stamps (sound : b.Sound) :
    b.live.all.map Resting.stamp = b.nodes.map Node.it := by
  rw [live_all, List.map_filterMap]
  have each : ∀ n ∈ b.nodes, (b.resting n).map Resting.stamp = some n.it := by
    intro n member
    obtain ⟨o, _, view, _⟩ := sound.resting_some member
    simp [view]
  rw [List.filterMap_congr each]
  simp

theorem Sound.stamps_nodup (sound : b.Sound) : (b.live.all.map Resting.stamp).Nodup :=
  sound.live_stamps ▸ sound.distinct

theorem Sound.live_length (sound : b.Sound) : b.live.all.length = b.nodes.length := by
  simpa using congrArg List.length sound.live_stamps

theorem Sound.live_bounded (sound : b.Sound) : b.live.all.length ≤ b.pool.size := by
  rw [sound.live_length]
  simpa using sound.owns.length_le

/-- An order is refused exactly when as many orders rest as the pool has slots. -/
theorem Sound.full_iff (sound : b.Sound) :
    b.pool.firstFree = none ↔ b.live.all.length = b.pool.size := by
  rw [sound.live_length, MemoryPool.full_iff_all_live sound.owns, List.length_map]

theorem WellFormed.ids_nodup (well : b.WellFormed) : b.live.ids.Nodup := by
  have stamps := well.toSound.stamps_nodup
  refine List.Nodup.map_on ?_ (List.Nodup.of_map _ stamps)
  intro r hr q hq same
  have left := well.lookup_iff.mpr ⟨r, hr, rfl, rfl⟩
  have right := well.lookup_iff.mpr ⟨q, hq, same.symm, rfl⟩
  rw [left] at right
  exact eq_of_key stamps hr hq (Option.some.inj right)

theorem Sound.queue_ahead (sound : b.Sound) (s : Bool) :
    (b.live.side s).Pairwise (LiveBook.Ahead s) := by
  rw [live_side, List.pairwise_filterMap]
  refine (sound.queued s).imp_of_mem ?_
  intro m n hm hn ahead r hr q hq
  obtain ⟨o, _, view, price⟩ := sound.resting_some (side_subset hm)
  obtain ⟨p, _, view', price'⟩ := sound.resting_some (side_subset hn)
  rw [view] at hr; rw [view'] at hq
  cases hr; cases hq
  simpa [LiveBook.Ahead, NodeAhead, price, price'] using ahead

theorem Sound.live_is_buy (sound : b.Sound) {s : Bool} {r : Resting Price Id}
    (member : r ∈ b.live.side s) : r.order.isBuy = s := by
  obtain ⟨n, inside, _, held⟩ := sound.mem_live_side.mp member
  obtain ⟨o, held', _, flag⟩ := sound.holds s n inside
  rw [held] at held'
  cases held'
  exact flag

end Views
end OrderBook
end Phase4
