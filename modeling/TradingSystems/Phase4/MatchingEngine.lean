import TradingSystems.Phase4.BookOperations

/- The matching loop. On a sound book one iteration is one trade at the heads of the
   live book, provided that the lookup leads to the heads that the trade fills; with
   distinct identifiers it always does. -/
namespace Phase4
open DistinctKeys
variable {Price Id : Type}

namespace LiveBook
variable {l : LiveBook Price Id} {r : Resting Price Id} {rest : List (Resting Price Id)}

theorem without_head_bid (distinct : (l.all.map Resting.stamp).Nodup)
    (head : l.bids = r :: rest) : l.without r.stamp = ⟨rest, l.asks⟩ := by
  simp only [all, head, List.map_append] at distinct
  have parts := List.nodup_append.mp distinct
  have asks : r.stamp ∉ l.asks.map Resting.stamp := fun member =>
    parts.2.2 _ (by simp) _ member rfl
  simp only [without, head, filter_absent asks, filter_head parts.1]

theorem without_head_ask (distinct : (l.all.map Resting.stamp).Nodup)
    (head : l.asks = r :: rest) : l.without r.stamp = ⟨l.bids, rest⟩ := by
  simp only [all, head, List.map_append] at distinct
  have parts := List.nodup_append.mp distinct
  have bids : r.stamp ∉ l.bids.map Resting.stamp := fun member =>
    parts.2.2 _ member _ (by simp) rfl
  simp only [without, head, filter_absent bids, filter_head parts.2.1]

theorem settle_head_bid (distinct : (l.all.map Resting.stamp).Nodup) (head : l.bids = r :: rest) :
    (if r.order.status = .filled then l.without r.stamp else l) = ⟨settle r rest, l.asks⟩ := by
  split
  · rename_i filled
    rw [settle_of_filled filled]
    exact without_head_bid distinct head
  · rename_i unfilled
    rw [settle_of_open unfilled, ← head]

theorem settle_head_ask (distinct : (l.all.map Resting.stamp).Nodup) (head : l.asks = r :: rest) :
    (if r.order.status = .filled then l.without r.stamp else l) = ⟨l.bids, settle r rest⟩ := by
  split
  · rename_i filled
    rw [settle_of_filled filled]
    exact without_head_ask distinct head
  · rename_i unfilled
    rw [settle_of_open unfilled, ← head]

end LiveBook

namespace OrderBook

/-- The book after the object behind `ptr` was assigned. -/
def refill (b : OrderBook Price Id) (ptr : Nat) (o : Order Price Id) : OrderBook Price Id :=
  { b with pool := b.pool.store ptr o }

variable {b : OrderBook Price Id} {n : Node Price} {o p : Order Price Id}

theorem refill_deref_self : (b.refill n.order p).pool.deref n.order = some p :=
  MemoryPool.stored_deref_same

theorem update_filled_ok (held : b.pool.deref n.order = some o) (q : Int) :
    b.updateFilled n.order q = .ok (b.refill n.order (o.updateFilled q)) := by
  simp [updateFilled, order, held, refill, bind, Except.bind, pure, Except.pure]

variable [LinearOrder Price]

section Refill
variable (sound : b.Sound) (member : n ∈ b.nodes) (held : b.pool.deref n.order = some o)
  (terms : SameTerms p o)
include sound member

theorem refill_deref_other {m : Node Price} (inside : m ∈ b.nodes) (differ : m.it ≠ n.it) :
    (b.refill n.order p).pool.deref m.order = b.pool.deref m.order :=
  MemoryPool.stored_deref_other sound.owns (List.mem_map.mpr ⟨n, member, rfl⟩)
    (List.mem_map.mpr ⟨m, inside, rfl⟩) (sound.pointers_apart inside member differ)

include held terms

theorem refill_deref {m : Node Price} (inside : m ∈ b.nodes) {q : Order Price Id}
    (read : b.pool.deref m.order = some q) :
    ∃ q', (b.refill n.order p).pool.deref m.order = some q' ∧ SameTerms q' q := by
  by_cases same : m.it = n.it
  · have eq := sound.node_eq inside member same
    subst eq
    rw [held] at read
    cases read
    exact ⟨p, refill_deref_self, terms⟩
  · exact ⟨q, by rw [refill_deref_other sound member inside same]; exact read, SameTerms.refl q⟩

theorem refill_sound : (b.refill n.order p).Sound where
  owns := MemoryPool.stored_owns sound.owns (List.mem_map.mpr ⟨n, member, rfl⟩)
  distinct := sound.distinct
  fresh := sound.fresh
  holds := by
    intro s m inside
    obtain ⟨q, read, price, flag⟩ := sound.holds s m inside
    obtain ⟨q', read', kept⟩ := refill_deref sound member held terms (side_subset inside) read
    exact ⟨q', read', kept.price.trans price, kept.isBuy.trans flag⟩
  queued := sound.queued
  leads := by
    intro id it entry
    obtain ⟨m, inside, same, q, read, named⟩ := sound.leads id it entry
    obtain ⟨q', read', kept⟩ := refill_deref sound member held terms inside read
    exact ⟨m, inside, same, q', read', kept.orderId.trans named⟩

omit sound in
theorem refill_well_formed (well : b.WellFormed) : (b.refill n.order p).WellFormed where
  toSound := refill_sound well.toSound member held terms
  indexed := by
    intro m inside q' read'
    obtain ⟨q, read, _⟩ := well.resting_some inside
    obtain ⟨q'', read'', kept⟩ := refill_deref well.toSound member held terms inside read
    rw [read''] at read'
    cases read'
    rw [kept.orderId]
    exact well.indexed m inside q read

omit held terms in
theorem refill_head_live {s : Bool} {rest : List (Node Price)} (head : b.side s = n :: rest)
    (t : Bool) : (b.refill n.order p).live.side t =
      if t = s then ⟨n.it, p⟩ :: rest.filterMap b.resting else b.live.side t := by
  have distinct := sound.distinct
  have kept : ∀ ns : List (Node Price), (∀ m ∈ ns, m ∈ b.nodes ∧ m.it ≠ n.it) →
      ns.filterMap (b.refill n.order p).resting = ns.filterMap b.resting := fun ns apart =>
    resting_congr fun m hm => refill_deref_other sound member (apart m hm).1 (apart m hm).2
  have sides : (b.refill n.order p).side t = b.side t := by cases t <;> rfl
  rw [live_side, live_side, sides]
  split
  · rename_i same
    subst same
    rw [head, List.filterMap_cons_some (b := (⟨n.it, p⟩ : Resting Price Id))]
    · congr 1
      refine kept rest fun m hm => ⟨side_subset (s := t) (by simp [head, hm]), ?_⟩
      have queue : ((b.side t).map Node.it).Nodup := by
        refine (List.Sublist.map Node.it ?_).nodup distinct
        cases t
        · exact List.sublist_append_right _ _
        · exact List.sublist_append_left _ _
      rw [head, List.map_cons, List.nodup_cons] at queue
      exact fun eq => queue.1 (eq ▸ List.mem_map.mpr ⟨m, hm, rfl⟩)
    · simp [resting, refill_deref_self]
  · rename_i other
    refine kept _ fun m hm => ⟨side_subset hm, ?_⟩
    intro eq
    exact other (sound.side_eq hm (by simp [head]) eq)

end Refill

theorem live_head (sound : b.Sound) {s : Bool} {rest : List (Node Price)}
    (head : b.side s = n :: rest) :
    ∃ o, b.pool.deref n.order = some o ∧
      b.live.side s = ⟨n.it, o⟩ :: rest.filterMap b.resting := by
  have member : n ∈ b.nodes := side_subset (s := s) (by rw [head]; simp)
  obtain ⟨o, held, view, _⟩ := sound.resting_some member
  exact ⟨o, held, by rw [live_side, head, List.filterMap_cons_some view]⟩

section Settled
variable [DecidableEq Id]

/-- The book behind the removal test of a node to which the lookup leads. -/
def settled (b : OrderBook Price Id) (n : Node Price) (o : Order Price Id) :
    OrderBook Price Id :=
  if o.status = .filled then b.takeOut n o.orderId else b

omit [LinearOrder Price] in
theorem settled_lookup (id : Id) : (b.settled n o).idLookup id =
    if o.status = .filled ∧ id = o.orderId then none else b.idLookup id := by
  unfold settled
  by_cases filled : o.status = .filled
  · by_cases same : id = o.orderId <;> simp [filled, takeOut, same]
  · simp [filled]

omit [LinearOrder Price] in
theorem settled_frame : Frame b (b.settled n o) := by
  unfold settled
  split
  · exact take_out_frame _
  · exact Frame.refl b

omit [LinearOrder Price] in
theorem settled_mem {m : Node Price} : m ∈ (b.settled n o).nodes ↔
    m ∈ b.nodes ∧ (o.status = .filled → m.it ≠ n.it) := by
  unfold settled
  split
  · rename_i filled
    simp [take_out_nodes, filled]
  · rename_i unfilled
    simp [unfilled]

section Tested
variable (sound : b.Sound) (member : n ∈ b.nodes) (held : b.pool.deref n.order = some o)
include sound member

theorem settled_live : (b.settled n o).live =
    if o.status = .filled then b.live.without n.it else b.live := by
  unfold settled
  split
  · exact take_out_without sound member _
  · rfl

theorem settled_deref {m : Node Price} (left : m ∈ (b.settled n o).nodes) :
    (b.settled n o).pool.deref m.order = b.pool.deref m.order := by
  unfold settled at left ⊢
  split
  · rename_i filled
    rw [if_pos filled] at left
    exact take_out_deref sound member _ left
  · rfl

include held

theorem settled_sound : (b.settled n o).Sound := by
  unfold settled
  split
  · exact take_out_sound sound member held
  · exact sound

omit sound in
theorem settled_well_formed (well : b.WellFormed) : (b.settled n o).WellFormed := by
  unfold settled
  split
  · exact take_out_well_formed well member held
  · exact well

omit held in
theorem remove_indexed (indexed : b.idLookup o.orderId = some n.it) :
    b.removeOrder o.orderId = .ok (b.takeOut n o.orderId) := by
  obtain ⟨m, _, inside, same, _, _, done⟩ := remove_order_present sound indexed
  rw [sound.node_eq inside member same] at done
  exact done

theorem remove_if_filled_settled
    (indexed : o.status = .filled → b.idLookup o.orderId = some n.it) :
    b.removeIfFilled n.order = .ok (b.settled n o) := by
  by_cases filled : o.status = .filled
  · have removed := remove_indexed sound member (indexed filled)
    simp [removeIfFilled, settled, order, held, filled, removed, bind, Except.bind]
  · simp [removeIfFilled, settled, order, held, filled, bind, Except.bind, pure, Except.pure]

end Tested

theorem remove_resting (well : b.WellFormed) (member : n ∈ b.nodes)
    (held : b.pool.deref n.order = some o) :
    b.removeOrder o.orderId = .ok (b.takeOut n o.orderId) :=
  remove_indexed well.toSound member (well.indexed n member o held)

end Settled

/-- The two best nodes and the orders behind them. -/
structure Heads (b : OrderBook Price Id) (nb na : Node Price) (restB restA : List (Node Price))
    (bo ao : Order Price Id) : Prop where
  bids : b.side true = nb :: restB
  asks : b.side false = na :: restA
  readB : b.pool.deref nb.order = some bo
  readA : b.pool.deref na.order = some ao

/-- Both fills go through the pointers that were read before either of them. -/
def fillBoth (b : OrderBook Price Id) (nb na : Node Price) (bo ao : Order Price Id) (q : Int) :
    OrderBook Price Id :=
  (b.refill nb.order (bo.updateFilled q)).refill na.order (ao.updateFilled q)

section Trading
variable {nb na : Node Price} {restB restA : List (Node Price)} {bo ao : Order Price Id}
  (heads : Heads b nb na restB restA bo ao) (sound : b.Sound) (q : Int)
include heads

omit [LinearOrder Price] in
theorem Heads.memB : nb ∈ b.nodes := side_subset (s := true) (by rw [heads.bids]; simp)

omit [LinearOrder Price] in
theorem Heads.memA : na ∈ b.nodes := side_subset (s := false) (by rw [heads.asks]; simp)

include sound

theorem Heads.asks_apart {m : Node Price} (inside : m ∈ b.side false) : m.it ≠ nb.it := fun same =>
  Bool.false_ne_true (sound.side_eq inside (by rw [heads.bids]; simp) same)

theorem Heads.apart : na.it ≠ nb.it := heads.asks_apart sound (by rw [heads.asks]; simp)

theorem Heads.first_fill :
    (b.refill nb.order (bo.updateFilled q)).Sound ∧
      (b.refill nb.order (bo.updateFilled q)).pool.deref na.order = some ao := by
  refine ⟨refill_sound sound heads.memB heads.readB (update_filled_same_terms bo q), ?_⟩
  rw [refill_deref_other sound heads.memB heads.memA (heads.apart sound)]
  exact heads.readA

theorem Heads.both_sound : (b.fillBoth nb na bo ao q).Sound := by
  obtain ⟨sound₁, readA₁⟩ := heads.first_fill sound q
  exact refill_sound sound₁ heads.memA readA₁ (update_filled_same_terms ao q)

theorem Heads.both_read :
    (b.fillBoth nb na bo ao q).pool.deref nb.order = some (bo.updateFilled q) ∧
      (b.fillBoth nb na bo ao q).pool.deref na.order = some (ao.updateFilled q) := by
  obtain ⟨sound₁, _⟩ := heads.first_fill sound q
  refine ⟨?_, refill_deref_self⟩
  have memA₁ : na ∈ (b.refill nb.order (bo.updateFilled q)).nodes := heads.memA
  have memB₁ : nb ∈ (b.refill nb.order (bo.updateFilled q)).nodes := heads.memB
  rw [fillBoth, refill_deref_other sound₁ memA₁ memB₁ (Ne.symm (heads.apart sound))]
  exact refill_deref_self

theorem Heads.both_live : (b.fillBoth nb na bo ao q).live =
    ⟨(⟨nb.it, bo⟩ : Resting Price Id).fill q :: restB.filterMap b.resting,
      (⟨na.it, ao⟩ : Resting Price Id).fill q :: restA.filterMap b.resting⟩ := by
  obtain ⟨sound₁, _⟩ := heads.first_fill sound q
  have memA₁ : na ∈ (b.refill nb.order (bo.updateFilled q)).nodes := heads.memA
  have outer := refill_head_live (p := ao.updateFilled q) sound₁ memA₁ (s := false) heads.asks
  have inner := refill_head_live (p := bo.updateFilled q) sound heads.memB (s := true)
    heads.bids true
  have bids := outer true
  have asks := outer false
  simp only [Bool.true_eq_false, ↓reduceIte] at inner bids asks
  have kept : restA.filterMap (b.refill nb.order (bo.updateFilled q)).resting =
      restA.filterMap b.resting := by
    refine resting_congr fun m hm => ?_
    have inside : m ∈ b.side false := by rw [heads.asks]; simp [hm]
    exact refill_deref_other sound heads.memB (side_subset inside) (heads.asks_apart sound inside)
  rw [kept] at asks
  exact congrArg₂ LiveBook.mk (bids.trans inner) asks

omit sound in
theorem Heads.both_well_formed (well : b.WellFormed) : (b.fillBoth nb na bo ao q).WellFormed := by
  obtain ⟨_, readA₁⟩ := heads.first_fill well.toSound q
  have well₁ := refill_well_formed heads.memB heads.readB (update_filled_same_terms bo q) well
  exact refill_well_formed heads.memA readA₁ (update_filled_same_terms ao q) well₁

variable [DecidableEq Id]

/-- The lookup leads to each of the heads that a fill of `q` fills. -/
structure HeadsIndexed (b : OrderBook Price Id) (nb na : Node Price) (bo ao : Order Price Id)
    (q : Int) : Prop where
  bid : (bo.updateFilled q).status = .filled → b.idLookup bo.orderId = some nb.it
  ask : (ao.updateFilled q).status = .filled → b.idLookup ao.orderId = some na.it

/-- The book between the two removal tests, and behind both of them. -/
def bidSettled (b : OrderBook Price Id) (nb na : Node Price) (bo ao : Order Price Id) (q : Int) :
    OrderBook Price Id := (b.fillBoth nb na bo ao q).settled nb (bo.updateFilled q)

def afterTrade (b : OrderBook Price Id) (nb na : Node Price) (bo ao : Order Price Id) (q : Int) :
    OrderBook Price Id := (b.bidSettled nb na bo ao q).settled na (ao.updateFilled q)

theorem Heads.bid_settled :
    (b.bidSettled nb na bo ao q).Sound ∧ na ∈ (b.bidSettled nb na bo ao q).nodes ∧
      (b.bidSettled nb na bo ao q).pool.deref na.order = some (ao.updateFilled q) := by
  have sound₂ := heads.both_sound sound q
  have memB₂ : nb ∈ (b.fillBoth nb na bo ao q).nodes := heads.memB
  obtain ⟨readB₂, readA₂⟩ := heads.both_read sound q
  have left : na ∈ (b.bidSettled nb na bo ao q).nodes :=
    settled_mem.mpr ⟨heads.memA, fun _ => heads.apart sound⟩
  refine ⟨settled_sound sound₂ memB₂ readB₂, left, ?_⟩
  rw [bidSettled, settled_deref sound₂ memB₂ left]
  exact readA₂

omit heads sound [LinearOrder Price] in
theorem bid_settled_lookup (id : Id) : (b.bidSettled nb na bo ao q).idLookup id =
    if (bo.updateFilled q).status = .filled ∧ id = bo.orderId then none else b.idLookup id :=
  settled_lookup id

omit heads sound [LinearOrder Price] in
theorem after_trade_lookup (id : Id) : (b.afterTrade nb na bo ao q).idLookup id =
    if (ao.updateFilled q).status = .filled ∧ id = ao.orderId then none
    else if (bo.updateFilled q).status = .filled ∧ id = bo.orderId then none
    else b.idLookup id := by
  rw [afterTrade, settled_lookup, bid_settled_lookup]
  rfl

theorem Heads.ask_indexed (indexed : HeadsIndexed b nb na bo ao q)
    (filled : (ao.updateFilled q).status = .filled) :
    (b.bidSettled nb na bo ao q).idLookup ao.orderId = some na.it := by
  rw [bid_settled_lookup, if_neg]
  · exact indexed.ask filled
  · rintro ⟨filled', same⟩
    have entry := indexed.bid filled'
    rw [← same, indexed.ask filled] at entry
    exact heads.apart sound (Option.some.inj entry)

theorem Heads.after_sound : (b.afterTrade nb na bo ao q).Sound := by
  obtain ⟨sound₃, memA₃, readA₃⟩ := heads.bid_settled sound q
  exact settled_sound sound₃ memA₃ readA₃

theorem Heads.after_live : (b.afterTrade nb na bo ao q).live =
    ⟨settle ((⟨nb.it, bo⟩ : Resting Price Id).fill q) (restB.filterMap b.resting),
      settle ((⟨na.it, ao⟩ : Resting Price Id).fill q) (restA.filterMap b.resting)⟩ := by
  have sound₂ := heads.both_sound sound q
  have memB₂ : nb ∈ (b.fillBoth nb na bo ao q).nodes := heads.memB
  obtain ⟨sound₃, memA₃, _⟩ := heads.bid_settled sound q
  have live₂ := heads.both_live sound q
  have live₃ : (b.bidSettled nb na bo ao q).live = _ := (settled_live sound₂ memB₂).trans
    (LiveBook.settle_head_bid sound₂.stamps_nodup (congrArg (·.bids) live₂))
  have asks₃ := (congrArg (·.asks) live₃).trans (congrArg (·.asks) live₂)
  have live₄ := (settled_live sound₃ memA₃).trans
    (LiveBook.settle_head_ask sound₃.stamps_nodup asks₃)
  rw [live₃] at live₄
  exact live₄

omit heads sound [LinearOrder Price] in
theorem after_trade_frame : Frame b (b.afterTrade nb na bo ao q) := by
  have both : Frame b (b.fillBoth nb na bo ao q) := ⟨rfl, rfl⟩
  exact (both.trans settled_frame).trans settled_frame

omit sound in
theorem Heads.after_well_formed (well : b.WellFormed) :
    (b.afterTrade nb na bo ao q).WellFormed := by
  have sound := well.toSound
  have well₂ := heads.both_well_formed q well
  have memB₂ : nb ∈ (b.fillBoth nb na bo ao q).nodes := heads.memB
  obtain ⟨_, memA₃, readA₃⟩ := heads.bid_settled sound q
  have well₃ : (b.bidSettled nb na bo ao q).WellFormed :=
    settled_well_formed memB₂ (heads.both_read sound q).1 well₂
  exact settled_well_formed memA₃ readA₃ well₃

/-- One iteration, once both heads are read and the prices cross: both orders are filled,
    and then each is tested for removal. -/
theorem Heads.match_once_removals (crosses : ¬ bo.price < ao.price)
    (quantity : q = min bo.quantity ao.quantity) : b.matchOnce = do
      let c ← (b.fillBoth nb na bo ao q).removeIfFilled nb.order
      let d ← c.removeIfFilled na.order
      return some (⟨bo.orderId, ao.orderId, ao.price, q⟩, d) := by
  have firstB : b.getBestBid = some nb.order := by
    have first : b.buyOrders = nb :: restB := heads.bids
    simp [getBestBid, first]
  have firstA : b.getBestAsk = some na.order := by
    have first : b.sellOrders = na :: restA := heads.asks
    simp [getBestAsk, first]
  obtain ⟨_, readA₁⟩ := heads.first_fill sound q
  have fillB := update_filled_ok heads.readB q
  have fillA := update_filled_ok readA₁ q
  simp only [matchOnce, firstB, firstA, order, heads.readB, heads.readA, crosses, ↓reduceIte,
    ← quantity, fillB, fillA, bind, Except.bind, fillBoth]

theorem Heads.match_once_crossing (crosses : ¬ bo.price < ao.price)
    (quantity : q = min bo.quantity ao.quantity) (indexed : HeadsIndexed b nb na bo ao q) :
    b.matchOnce =
      .ok (some (⟨bo.orderId, ao.orderId, ao.price, q⟩, b.afterTrade nb na bo ao q)) := by
  have memB₂ : nb ∈ (b.fillBoth nb na bo ao q).nodes := heads.memB
  have removeB : (b.fillBoth nb na bo ao q).removeIfFilled nb.order =
      .ok (b.bidSettled nb na bo ao q) :=
    remove_if_filled_settled (heads.both_sound sound q) memB₂ (heads.both_read sound q).1
      indexed.bid
  obtain ⟨sound₃, memA₃, readA₃⟩ := heads.bid_settled sound q
  have removeA := remove_if_filled_settled sound₃ memA₃ readA₃ (heads.ask_indexed sound q indexed)
  rw [heads.match_once_removals sound q crosses quantity]
  simp only [removeB, removeA, bind, Except.bind, pure, Except.pure, afterTrade]

end Trading

theorem Sound.heads_or_empty (sound : b.Sound) :
    (∃ nb na restB restA bo ao, Heads b nb na restB restA bo ao) ∨
      b.buyOrders = [] ∨ b.sellOrders = [] := by
  cases bids : b.side true with
  | nil => exact Or.inr (Or.inl bids)
  | cons nb restB =>
    cases asks : b.side false with
    | nil => exact Or.inr (Or.inr asks)
    | cons na restA =>
      obtain ⟨bo, readB, _⟩ := live_head sound bids
      obtain ⟨ao, readA, _⟩ := live_head sound asks
      exact Or.inl ⟨nb, na, restB, restA, bo, ao, bids, asks, readB, readA⟩

section Reading
variable {nb na : Node Price} {restB restA : List (Node Price)} {bo ao : Order Price Id}

theorem Heads.live_bids (heads : Heads b nb na restB restA bo ao) (sound : b.Sound) :
    b.live.bids = ⟨nb.it, bo⟩ :: restB.filterMap b.resting := by
  obtain ⟨o, held, view⟩ := live_head sound heads.bids
  rw [heads.readB] at held
  cases held
  exact view

theorem Heads.live_asks (heads : Heads b nb na restB restA bo ao) (sound : b.Sound) :
    b.live.asks = ⟨na.it, ao⟩ :: restA.filterMap b.resting := by
  obtain ⟨o, held, view⟩ := live_head sound heads.asks
  rw [heads.readA] at held
  cases held
  exact view

theorem Heads.match_head_apart (heads : Heads b nb na restB restA bo ao) (sound : b.Sound)
    (stops : bo.price < ao.price) : b.live.matchHead = none := by
  simp [LiveBook.matchHead, heads.live_bids sound, heads.live_asks sound, stops]

theorem match_head_empty (empty : b.buyOrders = [] ∨ b.sellOrders = []) :
    b.live.matchHead = none := by
  rcases empty with none_left | none_left <;> simp [LiveBook.matchHead, live, none_left]

variable [DecidableEq Id]

theorem Heads.match_head (heads : Heads b nb na restB restA bo ao) (sound : b.Sound)
    (crosses : ¬ bo.price < ao.price) : b.live.matchHead =
      some (⟨bo.orderId, ao.orderId, ao.price, min bo.quantity ao.quantity⟩,
        (b.afterTrade nb na bo ao (min bo.quantity ao.quantity)).live) := by
  rw [heads.after_live sound]
  simp [LiveBook.matchHead, heads.live_bids sound, heads.live_asks sound, crosses]

theorem Heads.match_once_apart (heads : Heads b nb na restB restA bo ao)
    (stops : bo.price < ao.price) : b.matchOnce = .ok none := by
  have firstB : b.buyOrders = nb :: restB := heads.bids
  have firstA : b.sellOrders = na :: restA := heads.asks
  simp [matchOnce, getBestBid, getBestAsk, firstB, firstA, order, heads.readB, heads.readA, stops,
    bind, Except.bind, pure, Except.pure]

theorem match_once_empty (empty : b.buyOrders = [] ∨ b.sellOrders = []) :
    b.matchOnce = .ok none := by
  rcases empty with none_left | none_left
  · simp [matchOnce, getBestBid, none_left]
  · simp [matchOnce, getBestAsk, none_left]

end Reading

variable [DecidableEq Id]

/-- One iteration refines one step of the live book, and it never gets stuck. -/
theorem match_once_spec (well : b.WellFormed) :
    (b.live.matchHead = none ∧ b.matchOnce = .ok none) ∨
    ∃ t l c, b.live.matchHead = some (t, l) ∧ b.matchOnce = .ok (some (t, c)) ∧
      c.WellFormed ∧ c.live = l ∧ Frame b c := by
  rcases well.heads_or_empty with ⟨nb, na, restB, restA, bo, ao, heads⟩ | empty
  · by_cases stops : bo.price < ao.price
    · exact Or.inl ⟨heads.match_head_apart well.toSound stops, heads.match_once_apart stops⟩
    · have indexed : HeadsIndexed b nb na bo ao (min bo.quantity ao.quantity) :=
        ⟨fun _ => well.indexed nb heads.memB bo heads.readB,
          fun _ => well.indexed na heads.memA ao heads.readA⟩
      exact Or.inr ⟨_, _, _, heads.match_head well.toSound stops,
        heads.match_once_crossing well.toSound _ stops rfl indexed,
        heads.after_well_formed _ well, rfl, after_trade_frame _⟩
  · exact Or.inl ⟨match_head_empty empty, match_once_empty empty⟩

/-- What the loop returns are the trades of the live book, up to where it stops. -/
theorem match_orders_sound (well : b.WellFormed) {fuel : Nat} {ts : List (Trade Price Id)}
    {c : OrderBook Price Id} (done : b.matchOrders fuel = .ok (ts, c)) :
    c.WellFormed ∧ LiveBook.Matches b.live ts c.live ∧ c.live.matchHead = none ∧ Frame b c := by
  induction fuel generalizing b ts c with
  | zero => cases done
  | succ fuel ih =>
    rcases match_once_spec well with ⟨stopped, once⟩ | ⟨t, l, d, head, once, well', after, frame⟩
    · simp only [matchOrders, once, bind, Except.bind, pure, Except.pure, Except.ok.injEq,
        Prod.mk.injEq] at done
      obtain ⟨rfl, rfl⟩ := done
      exact ⟨well, .done _, stopped, Frame.refl b⟩
    · simp only [matchOrders, once, bind, Except.bind, pure, Except.pure] at done
      cases inner : d.matchOrders fuel with
      | error e => simp [inner] at done
      | ok result =>
        obtain ⟨us, e⟩ := result
        simp only [inner, Except.ok.injEq, Prod.mk.injEq] at done
        obtain ⟨rfl, rfl⟩ := done
        obtain ⟨well'', run, stopped, frame'⟩ := ih well' inner
        exact ⟨well'', .trade (after ▸ head) run, stopped, frame.trans frame'⟩

theorem match_orders_complete (well : b.WellFormed) {ts : List (Trade Price Id)}
    {l : LiveBook Price Id} (run : LiveBook.Matches b.live ts l) (stopped : l.matchHead = none)
    {fuel : Nat} (enough : ts.length < fuel) :
    ∃ c, b.matchOrders fuel = .ok (ts, c) ∧ c.live = l := by
  induction ts generalizing b fuel with
  | nil =>
    obtain ⟨fuel, rfl⟩ := Nat.exists_eq_succ_of_ne_zero (by omega : fuel ≠ 0)
    cases run
    rcases match_once_spec well with ⟨_, once⟩ | ⟨t, l, d, head, _⟩
    · exact ⟨b, by simp [matchOrders, once, bind, Except.bind, pure, Except.pure], rfl⟩
    · rw [stopped] at head; cases head
  | cons t ts ih =>
    obtain ⟨fuel, rfl⟩ := Nat.exists_eq_succ_of_ne_zero (by omega : fuel ≠ 0)
    cases run with
    | trade head tail =>
      rcases match_once_spec well with ⟨none_left, _⟩ | ⟨t', l', d, head', once, well', after, _⟩
      · rw [head] at none_left; cases none_left
      · rw [head] at head'
        cases head'
        rw [← after] at tail
        obtain ⟨c, inner, same⟩ := ih well' tail (Nat.lt_of_succ_lt_succ enough)
        refine ⟨c, ?_, same⟩
        simp [matchOrders, once, inner, bind, Except.bind, pure, Except.pure]

/-- The only way for the loop not to return is to need more iterations. -/
theorem match_orders_not_stuck (well : b.WellFormed) {fuel : Nat} {e : Stuck}
    (failed : b.matchOrders fuel = .error e) : e = .outOfFuel := by
  induction fuel generalizing b with
  | zero => cases failed; rfl
  | succ fuel ih =>
    rcases match_once_spec well with ⟨_, once⟩ | ⟨t, l, d, _, once, well', _⟩
    · simp [matchOrders, once, bind, Except.bind, pure, Except.pure] at failed
    · simp only [matchOrders, once, bind, Except.bind, pure, Except.pure] at failed
      cases inner : d.matchOrders fuel with
      | ok result => simp [inner] at failed
      | error e' =>
        simp only [inner, Except.error.injEq] at failed
        subst failed
        exact ih well' inner

/-- Iterations of the loop, with the trades that they make. -/
inductive Iterated : OrderBook Price Id → List (Trade Price Id) → OrderBook Price Id → Prop where
  | start (b : OrderBook Price Id) : Iterated b [] b
  | next {b c d : OrderBook Price Id} {t : Trade Price Id} {ts : List (Trade Price Id)}
      (once : b.matchOnce = .ok (some (t, d))) (rest : Iterated d ts c) : Iterated b (t :: ts) c

section Iterations
variable {c : OrderBook Price Id} {ts : List (Trade Price Id)} {fuel : Nat}

theorem iterated_matches (well : b.WellFormed) (loop : Iterated b ts c) :
    c.WellFormed ∧ LiveBook.Matches b.live ts c.live := by
  induction loop with
  | start b => exact ⟨well, .done _⟩
  | next once rest ih =>
    rcases match_once_spec well with ⟨_, stops⟩ | ⟨t, l, d, head, trades, well', after, _⟩
    · rw [once] at stops
      cases stops
    · rw [once] at trades
      cases trades
      obtain ⟨well'', run⟩ := ih well'
      exact ⟨well'', .trade (after ▸ head) run⟩

/-- Every run of trades of the live book is made by iterations of the loop. -/
theorem matches_iterated {l : LiveBook Price Id} (well : b.WellFormed)
    (run : LiveBook.Matches b.live ts l) : ∃ c, Iterated b ts c ∧ c.WellFormed ∧ c.live = l := by
  induction ts generalizing b with
  | nil =>
    cases run
    exact ⟨b, .start b, well, rfl⟩
  | cons t ts ih =>
    cases run with
    | trade head tail =>
      rcases match_once_spec well with ⟨stopped, _⟩ | ⟨u, m, d, head', once, well', after, _⟩
      · rw [stopped] at head
        cases head
      · rw [head] at head'
        cases head'
        obtain ⟨c, loop, well'', live⟩ := ih well' (after ▸ tail)
        exact ⟨c, .next once loop, well'', live⟩

theorem match_orders_iterated (done : b.matchOrders fuel = .ok (ts, c)) :
    Iterated b ts c ∧ c.matchOnce = .ok none := by
  induction fuel generalizing b ts c with
  | zero => cases done
  | succ fuel ih =>
    simp only [matchOrders, bind, Except.bind, pure, Except.pure] at done
    split at done
    · cases done
    · rename_i once
      split at done
      · cases done
        exact ⟨.start _, once⟩
      · split at done
        · cases done
        · rename_i inner
          cases done
          obtain ⟨loop, stops⟩ := ih inner
          exact ⟨.next once loop, stops⟩

theorem iterated_split {before after : List (Trade Price Id)} {t : Trade Price Id}
    (loop : Iterated b (before ++ t :: after) c) :
    ∃ d e, Iterated b before d ∧ d.matchOnce = .ok (some (t, e)) ∧ Iterated e after c := by
  induction before generalizing b with
  | nil =>
    cases loop with
    | next once rest => exact ⟨b, _, .start b, once, rest⟩
  | cons u before ih =>
    cases loop with
    | next once rest =>
      obtain ⟨d, e, first, trade, last⟩ := ih rest
      exact ⟨d, e, .next once first, trade, last⟩

theorem match_once_trade (well : b.WellFormed) {t : Trade Price Id}
    (once : b.matchOnce = .ok (some (t, c))) : b.live.matchHead = some (t, c.live) := by
  have run := (iterated_matches well (.next once (.start c))).2
  cases run with
  | trade head tail => rw [head, LiveBook.matches_nil tail]

theorem match_orders_stopped (well : b.WellFormed) (stopped : b.live.matchHead = none) :
    b.matchOrders (fuel + 1) = .ok ([], b) := by
  rcases match_once_spec well with ⟨_, once⟩ | ⟨t, l, d, head, _⟩
  · simp [matchOrders, once, bind, Except.bind, pure, Except.pure]
  · rw [stopped] at head
    cases head

end Iterations

end OrderBook
end Phase4
