import TradingSystems.Phase4.BookRuns
import Mathlib.Algebra.Order.BigOperators.Group.List

/- What the trades of a run add up to. The loop takes the smaller of the two full
   quantities, not of the two remainders, so an order that was filled in part can be
   filled again beyond its quantity. Fills are exact in precisely those runs in
   which every trade fits what is left of both orders. -/
namespace Phase4
open Runs
variable {Price Id : Type}

def Trade.Names (t : Trade Price Id) (id : Id) : Prop := t.buyOrderId = id ∨ t.sellOrderId = id

instance [DecidableEq Id] (t : Trade Price Id) (id : Id) : Decidable (t.Names id) :=
  inferInstanceAs (Decidable (_ ∨ _))

/-- The total quantity of the trades that name an order. -/
def filledBy [DecidableEq Id] (ts : List (Trade Price Id)) (id : Id) : Int :=
  (ts.map fun t => if t.Names id then t.quantity else 0).sum

section FilledBy
variable [DecidableEq Id]

theorem filled_by_append (ts us : List (Trade Price Id)) (id : Id) :
    filledBy (ts ++ us) id = filledBy ts id + filledBy us id := by
  simp [filledBy]

theorem filled_by_snoc (ts : List (Trade Price Id)) (t : Trade Price Id) (id : Id) :
    filledBy (ts ++ [t]) id = filledBy ts id + if t.Names id then t.quantity else 0 := by
  simp [filledBy]

theorem filled_by_unnamed {ts : List (Trade Price Id)} {id : Id}
    (unnamed : ∀ t ∈ ts, ¬ t.Names id) : filledBy ts id = 0 := by
  unfold filledBy
  apply List.sum_eq_zero
  intro n member
  obtain ⟨t, listed, value⟩ := List.mem_map.mp member
  rw [← value, if_neg (unnamed t listed)]

theorem filled_by_nonneg {ts : List (Trade Price Id)} (positive : ∀ t ∈ ts, 0 < t.quantity)
    (id : Id) : 0 ≤ filledBy ts id := by
  apply List.sum_nonneg
  intro n member
  obtain ⟨t, listed, value⟩ := List.mem_map.mp member
  have := positive t listed
  rw [← value]
  split <;> omega

theorem filled_by_positive {ts : List (Trade Price Id)} {t : Trade Price Id} {id : Id}
    (positive : ∀ u ∈ ts, 0 < u.quantity) (member : t ∈ ts) (named : t.Names id) :
    0 < filledBy ts id := by
  obtain ⟨before, after, split⟩ := List.mem_iff_append.mp member
  subst split
  have low : 0 ≤ filledBy before id := filled_by_nonneg (fun u hu => positive u (by simp [hu])) id
  have high : 0 ≤ filledBy after id := filled_by_nonneg (fun u hu => positive u (by simp [hu])) id
  have own := positive t (by simp)
  rw [filled_by_append, show t :: after = [t] ++ after from rfl, filled_by_append,
    show filledBy [t] id = t.quantity by simp [filledBy, named]]
  omega

end FilledBy

def Order.remaining (o : Order Price Id) : Int := o.quantity - o.filledQuantity

variable [LinearOrder Price]

namespace LiveBook

/-- The trade that the heads would make fits what is left of both. -/
def Fits (l : LiveBook Price Id) : Prop :=
  ∀ bid ask bids asks, l.bids = bid :: bids → l.asks = ask :: asks →
    ask.order.price ≤ bid.order.price →
      min bid.order.quantity ask.order.quantity ≤ bid.order.remaining ∧
      min bid.order.quantity ask.order.quantity ≤ ask.order.remaining

def AllFit (l : LiveBook Price Id) : Prop :=
  ∀ ts m, Matches l ts m → Fits m

theorem all_fit_stopped {l : LiveBook Price Id} (stopped : l.matchHead = none) : l.AllFit := by
  intro ts m run
  cases run with
  | done =>
    intro bid ask bids asks hb ha crosses
    exact absurd crosses (not_le.mpr (match_head_none_iff.mp stopped bid ask bids asks hb ha))
  | trade head _ => rw [stopped] at head; cases head

theorem all_fit_step {l m : LiveBook Price Id} {t : Trade Price Id}
    (head : l.matchHead = some (t, m)) : l.AllFit ↔ l.Fits ∧ m.AllFit := by
  constructor
  · intro all
    exact ⟨all [] l (.done l), fun ts k run => all (t :: ts) k (.trade head run)⟩
  · rintro ⟨here, later⟩ ts k run
    cases run with
    | done => exact here
    | trade head' tail =>
      rw [head] at head'
      cases head'
      exact later _ _ tail

end LiveBook

variable [DecidableEq Id]

structure Placed (placed : List (Resting Price Id)) (l : LiveBook Price Id) : Prop where
  distinct : (placed.map fun p => p.order.orderId).Nodup
  range : ∀ p ∈ placed, 0 < p.order.quantity ∧ p.order.quantity ≤ intMax
  ids : l.ids.Nodup
  came : ∀ r ∈ l.all, ∃ p ∈ placed, p.stamp = r.stamp ∧ SameTerms r.order p.order

/-- Every order at rest carries the sum of its trades, short of its quantity, and
    every order that has left was filled to its quantity. -/
structure Accounted (placed : List (Resting Price Id)) (l : LiveBook Price Id)
    (ts : List (Trade Price Id)) : Prop where
  resting : ∀ r ∈ l.all, 0 ≤ r.order.filledQuantity ∧
    r.order.filledQuantity < r.order.quantity ∧
    r.order.filledQuantity = filledBy ts r.order.orderId
  left : ∀ p ∈ placed, ¬ l.Rests p.order.orderId → filledBy ts p.order.orderId = p.order.quantity

def Overfilled (placed : List (Resting Price Id)) (ts : List (Trade Price Id)) : Prop :=
  ∃ p ∈ placed, p.order.quantity < filledBy ts p.order.orderId

section OneTrade
variable {placed : List (Resting Price Id)} {l m : LiveBook Price Id} {t : Trade Price Id}
  {ts : List (Trade Price Id)} {bid ask : Resting Price Id} {bids asks : List (Resting Price Id)}

omit [DecidableEq Id] in
theorem LiveBook.HeadTrade.names (step : LiveBook.HeadTrade l t m bid ask bids asks) {id : Id} :
    t.Names id ↔ bid.order.orderId = id ∨ ask.order.orderId = id := by
  simp [Trade.Names, step.trade]

omit [DecidableEq Id] [LinearOrder Price] in
theorem Placed.range_of (given : Placed placed l) {r : Resting Price Id} (member : r ∈ l.all) :
    0 < r.order.quantity ∧ r.order.quantity ≤ intMax := by
  obtain ⟨p, listed, _, terms⟩ := given.came r member
  rw [terms.quantity]
  exact given.range p listed

omit [DecidableEq Id] [LinearOrder Price] in
theorem Placed.terms_of (given : Placed placed l) {r p : Resting Price Id} (member : r ∈ l.all)
    (listed : p ∈ placed) (named : r.order.orderId = p.order.orderId) :
    SameTerms r.order p.order := by
  obtain ⟨q, listed', _, terms⟩ := given.came r member
  have same := List.inj_on_of_nodup_map given.distinct listed' listed
    (terms.orderId.symm.trans named)
  exact same ▸ terms

omit [DecidableEq Id] in
theorem LiveBook.HeadTrade.positive (step : LiveBook.HeadTrade l t m bid ask bids asks)
    (given : Placed placed l) : 0 < t.quantity := by
  have buy := given.range_of (step.mem_before.mpr (Or.inl rfl))
  have sell := given.range_of (step.mem_before.mpr (Or.inr (Or.inl rfl)))
  rw [step.quantity]
  omega

omit [DecidableEq Id] in
theorem Placed.trade (given : Placed placed l) (head : l.matchHead = some (t, m)) :
    Placed placed m where
  distinct := given.distinct
  range := given.range
  ids := by
    obtain ⟨bid, ask, bids, asks, step⟩ := LiveBook.match_head_cases head
    refine List.Nodup.sublist ?_ given.ids
    have kept : ∀ (r : Resting Price Id) rest,
        ((settle (r.fill t.quantity) rest).map fun q => q.order.orderId).Sublist
          ((r :: rest).map fun q => q.order.orderId) := by
      intro r rest
      unfold settle
      split
      · exact (List.sublist_cons_self r rest).map _
      · exact List.Sublist.refl _
    simp only [LiveBook.ids, LiveBook.all, step.bidsAfter, step.asksAfter, step.bidHead,
      step.askHead, List.map_append]
    exact (kept bid bids).append (kept ask asks)
  came := by
    intro r member
    obtain ⟨q, before, stamp, terms⟩ := LiveBook.matches_came (.trade head (.done m)) member
    obtain ⟨p, listed, stamp', terms'⟩ := given.came q before
    exact ⟨p, listed, stamp'.trans stamp, terms.trans terms'⟩

omit [LinearOrder Price] [DecidableEq Id] in
theorem fill_accounted {r : Resting Price Id} {q : Int} (started : 0 ≤ r.order.filledQuantity)
    (positive : 0 < q) (fits : q ≤ r.order.remaining) (range : r.order.quantity ≤ intMax) :
    (r.order.updateFilled q).filledQuantity = r.order.filledQuantity + q ∧
      ((r.order.updateFilled q).status = .filled ↔
        r.order.filledQuantity + q = r.order.quantity) := by
  simp only [Order.remaining] at fits
  have filled := update_filled_status started positive (by omega)
  refine ⟨filled.1, ?_⟩
  rw [filled.2]
  omega

omit [LinearOrder Price] in
/-- A party that the trade fits is filled to the sum of its trades, and has left
    exactly when that sum is its quantity. -/
theorem Accounted.party (account : Accounted placed l ts) (given : Placed placed l)
    {r : Resting Price Id} (member : r ∈ l.all) (positive : 0 < t.quantity)
    (named : t.Names r.order.orderId) (left : t.quantity ≤ r.order.remaining) :
    (r.order.updateFilled t.quantity).filledQuantity = filledBy (ts ++ [t]) r.order.orderId ∧
      ((r.order.updateFilled t.quantity).status = .filled ↔
        filledBy (ts ++ [t]) r.order.orderId = r.order.quantity) := by
  have entry := account.resting r member
  have filled := fill_accounted entry.1 positive left (given.range_of member).2
  rw [filled_by_snoc, if_pos named, ← entry.2.2]
  exact filled

omit [LinearOrder Price] in
theorem Accounted.open_party (account : Accounted placed l ts) (given : Placed placed l)
    {r : Resting Price Id} (member : r ∈ l.all) (positive : 0 < t.quantity)
    (named : t.Names r.order.orderId) (left : t.quantity ≤ r.order.remaining)
    (unfilled : (r.order.updateFilled t.quantity).status ≠ .filled) :
    0 ≤ (r.fill t.quantity).order.filledQuantity ∧
      (r.fill t.quantity).order.filledQuantity < (r.fill t.quantity).order.quantity ∧
      (r.fill t.quantity).order.filledQuantity =
        filledBy (ts ++ [t]) (r.fill t.quantity).order.orderId := by
  have entry := account.resting r member
  have filled := account.party given member positive named left
  have sum := fill_accounted entry.1 positive left (given.range_of member).2
  have short := mt sum.2.mpr unfilled
  simp only [Order.remaining] at left
  refine ⟨?_, ?_, filled.1⟩
  · simp only [fill_order, sum.1]
    omega
  · simp only [fill_order, update_filled_quantity, sum.1]
    omega

omit [DecidableEq Id] in
theorem LiveBook.HeadTrade.unnamed (step : LiveBook.HeadTrade l t m bid ask bids asks)
    (ids : l.ids.Nodup) {r : Resting Price Id} (behind : r ∈ bids ++ asks) :
    ¬ t.Names r.order.orderId := by
  have apart := (step.apart ids).2 r behind
  rw [step.names]
  exact fun named => named.elim (fun same => apart.1 same.symm) fun same => apart.2 same.symm

theorem Accounted.trade_resting (account : Accounted placed l ts) (given : Placed placed l)
    (step : LiveBook.HeadTrade l t m bid ask bids asks) (fits : l.Fits) :
    ∀ r ∈ m.all, 0 ≤ r.order.filledQuantity ∧ r.order.filledQuantity < r.order.quantity ∧
      r.order.filledQuantity = filledBy (ts ++ [t]) r.order.orderId := by
  have positive := step.positive given
  have room := fits bid ask bids asks step.bidHead step.askHead step.crosses
  rw [← step.quantity] at room
  intro r member
  rcases step.mem_after.mp member with ⟨same, unfilled⟩ | ⟨same, unfilled⟩ | other
  · subst r
    exact account.open_party given (step.mem_before.mpr (Or.inl rfl)) positive
      (step.names.mpr (Or.inl rfl)) room.1 unfilled
  · subst r
    exact account.open_party given (step.mem_before.mpr (Or.inr (Or.inl rfl))) positive
      (step.names.mpr (Or.inr rfl)) room.2 unfilled
  · rw [filled_by_snoc, if_neg (step.unnamed given.ids other), add_zero]
    exact account.resting r (step.mem_before.mpr (Or.inr (Or.inr other)))

theorem Accounted.trade_leaves (account : Accounted placed l ts) (given : Placed placed l)
    (step : LiveBook.HeadTrade l t m bid ask bids asks) (fits : l.Fits) {r : Resting Price Id}
    (member : r ∈ l.all) (gone : ¬ m.Rests r.order.orderId) :
    filledBy (ts ++ [t]) r.order.orderId = r.order.quantity := by
  have positive := step.positive given
  have room := fits bid ask bids asks step.bidHead step.askHead step.crosses
  rw [← step.quantity] at room
  rcases step.mem_before.mp member with same | same | other
  · subst r
    have filled := account.party given member positive (step.names.mpr (Or.inl rfl)) room.1
    by_contra short
    have stays : bid.fill t.quantity ∈ m.all :=
      step.mem_after.mpr (Or.inl ⟨rfl, mt filled.2.mp short⟩)
    exact gone (LiveBook.rests_iff.mpr ⟨_, stays, rfl⟩)
  · subst r
    have filled := account.party given member positive (step.names.mpr (Or.inr rfl)) room.2
    by_contra short
    have stays : ask.fill t.quantity ∈ m.all :=
      step.mem_after.mpr (Or.inr (Or.inl ⟨rfl, mt filled.2.mp short⟩))
    exact gone (LiveBook.rests_iff.mpr ⟨_, stays, rfl⟩)
  · have stays : r ∈ m.all := step.mem_after.mpr (Or.inr (Or.inr other))
    exact absurd (LiveBook.rests_iff.mpr ⟨r, stays, rfl⟩) gone

theorem Accounted.trade (account : Accounted placed l ts) (given : Placed placed l)
    (step : LiveBook.HeadTrade l t m bid ask bids asks) (fits : l.Fits) :
    Accounted placed m (ts ++ [t]) := by
  refine ⟨account.trade_resting given step fits, ?_⟩
  intro p listed gone
  by_cases rested : l.Rests p.order.orderId
  · obtain ⟨r, member, named⟩ := LiveBook.rests_iff.mp rested
    have terms := given.terms_of member listed named
    rw [← terms.orderId] at gone
    rw [← terms.quantity, ← terms.orderId]
    exact account.trade_leaves given step fits member gone
  · have unnamed : ¬ t.Names p.order.orderId := by
      rw [step.names]
      exact fun named => rested (named.elim
        (fun same => LiveBook.rests_iff.mpr ⟨bid, step.mem_before.mpr (Or.inl rfl), same⟩)
        fun same => LiveBook.rests_iff.mpr ⟨ask, step.mem_before.mpr (Or.inr (Or.inl rfl)), same⟩)
    rw [filled_by_snoc, if_neg unnamed, add_zero]
    exact account.left p listed rested

theorem Accounted.overfill (account : Accounted placed l ts) (given : Placed placed l)
    (step : LiveBook.HeadTrade l t m bid ask bids asks) (misfit : ¬ l.Fits) :
    Overfilled placed (ts ++ [t]) := by
  have beyond : ∀ r ∈ l.all, t.Names r.order.orderId → r.order.remaining < t.quantity →
      Overfilled placed (ts ++ [t]) := by
    intro r member named short
    obtain ⟨p, listed, _, terms⟩ := given.came r member
    have entry := account.resting r member
    refine ⟨p, listed, ?_⟩
    rw [← terms.quantity, ← terms.orderId, filled_by_snoc, if_pos named, ← entry.2.2]
    simp only [Order.remaining] at short
    omega
  by_contra exact_so_far
  refine misfit ?_
  intro bid' ask' bids' asks' hb ha _
  rw [step.bidHead] at hb
  rw [step.askHead] at ha
  cases hb
  cases ha
  rw [← step.quantity]
  constructor
  · by_contra short
    exact exact_so_far (beyond bid (step.mem_before.mpr (Or.inl rfl))
      (step.names.mpr (Or.inl rfl)) (not_le.mp short))
  · by_contra short
    exact exact_so_far (beyond ask (step.mem_before.mpr (Or.inr (Or.inl rfl)))
      (step.names.mpr (Or.inr rfl)) (not_le.mp short))

end OneTrade

section Loop
variable {placed : List (Resting Price Id)} {l k : LiveBook Price Id}
  {ts us : List (Trade Price Id)}

omit [DecidableEq Id] in
theorem matches_placed (run : LiveBook.Matches l us k) (given : Placed placed l) :
    Placed placed k ∧ ∀ t ∈ us, 0 < t.quantity := by
  induction run with
  | done => exact ⟨given, by simp⟩
  | trade head tail ih =>
    obtain ⟨bid, ask, bids, asks, step⟩ := LiveBook.match_head_cases head
    obtain ⟨given', positive⟩ := ih (given.trade head)
    refine ⟨given', ?_⟩
    intro t member
    rcases List.mem_cons.mp member with same | later
    · exact same ▸ step.positive given
    · exact positive t later

omit [LinearOrder Price] in
theorem Overfilled.grow (overfilled : Overfilled placed ts) (positive : ∀ t ∈ us, 0 < t.quantity) :
    Overfilled placed (ts ++ us) := by
  obtain ⟨p, listed, beyond⟩ := overfilled
  have more := filled_by_nonneg positive p.order.orderId
  refine ⟨p, listed, ?_⟩
  rw [filled_by_append]
  omega

/-- A whole loop either fits throughout and keeps the account, or overfills. -/
theorem loop_accounted (run : LiveBook.Matches l us k) (stopped : k.matchHead = none)
    (given : Placed placed l) (account : Accounted placed l ts) :
    (l.AllFit ∧ Accounted placed k (ts ++ us)) ∨ (¬ l.AllFit ∧ Overfilled placed (ts ++ us)) := by
  induction run generalizing ts with
  | done => exact Or.inl ⟨LiveBook.all_fit_stopped stopped, by simpa using account⟩
  | @trade l m k t us head tail ih =>
    obtain ⟨bid, ask, bids, asks, step⟩ := LiveBook.match_head_cases head
    rw [LiveBook.all_fit_step head, List.append_cons]
    by_cases fits : l.Fits
    · rcases ih stopped (given.trade head) (account.trade given step fits) with good | bad
      · exact Or.inl ⟨⟨fits, good.1⟩, good.2⟩
      · exact Or.inr ⟨fun all => bad.1 all.2, bad.2⟩
    · have positive := (matches_placed tail (given.trade head)).2
      exact Or.inr ⟨fun all => fits all.1, (account.overfill given step fits).grow positive⟩

end Loop

def Filling (s : Session Price Id) : Call Price Id → Prop
  | .removeOrder _ => False
  | call => Fresh intMax s call

instance (s : Session Price Id) (call : Call Price Id) : Decidable (Filling s call) :=
  match call with
  | .addOrder id symbol price quantity isBuy =>
    inferInstanceAs (Decidable (Fresh intMax s (.addOrder id symbol price quantity isBuy)))
  | .removeOrder _ => inferInstanceAs (Decidable False)
  | .matchOrders => inferInstanceAs (Decidable (Fresh intMax s .matchOrders))

def TradesFit (s : Session Price Id) : Call Price Id → Prop
  | .matchOrders => s.book.live.AllFit
  | _ => True

/-- No order is filled beyond its quantity, and it is filled to it exactly when the
    book no longer holds it. A refused order never trades. -/
def FillsExactly (s : Session Price Id) : Prop :=
  (∀ p ∈ s.placed, filledBy s.trades p.order.orderId ≤ p.order.quantity ∧
    (filledBy s.trades p.order.orderId = p.order.quantity ↔
      ¬ s.book.live.Rests p.order.orderId) ∧
    (s.book.live.Rests p.order.orderId →
      filledBy s.trades p.order.orderId < p.order.quantity)) ∧
  ∀ o ∈ s.refused, filledBy s.trades o.orderId = 0

/-- A history whose trades are positive and name only orders that were placed. -/
structure Ledger (s : Session Price Id) : Prop extends History intMax s where
  positive : ∀ t ∈ s.trades, 0 < t.quantity
  named : ∀ t ∈ s.trades, ∀ id, t.Names id → id ∈ s.placed.map fun p => p.order.orderId

omit [LinearOrder Price] [DecidableEq Id] in
theorem Filling.fresh {s : Session Price Id} {call : Call Price Id} (allowed : Filling s call) :
    Fresh intMax s call := by
  cases call with
  | removeOrder => trivial
  | addOrder => exact allowed
  | matchOrders => trivial

omit [DecidableEq Id] in
theorem History.placed {s : Session Price Id} (history : History intMax s) :
    Placed s.placed s.book.live where
  distinct := (List.nodup_append.mp history.distinct).1
  range := history.range
  ids := history.recorded.well.ids_nodup
  came := history.recorded.came

section Sessions
variable {s t : Session Price Id} {call : Call Price Id}

omit [DecidableEq Id] in
theorem matches_named {l k : LiveBook Price Id} {ts : List (Trade Price Id)}
    (run : LiveBook.Matches l ts k) {u : Trade Price Id} (member : u ∈ ts) {id : Id}
    (named : u.Names id) : l.Rests id := by
  induction run with
  | done => simp at member
  | @trade l m k t ts head tail ih =>
    obtain ⟨bid, ask, bids, asks, step⟩ := LiveBook.match_head_cases head
    rcases List.mem_cons.mp member with same | later
    · subst u
      rcases step.names.mp named with buy | sell
      · exact LiveBook.rests_iff.mpr ⟨bid, step.mem_before.mpr (Or.inl rfl), buy⟩
      · exact LiveBook.rests_iff.mpr ⟨ask, step.mem_before.mpr (Or.inr (Or.inl rfl)), sell⟩
    · obtain ⟨r, inside, same⟩ := LiveBook.rests_iff.mp (ih later)
      obtain ⟨q, before, _, terms⟩ := LiveBook.matches_came (.trade head (.done m)) inside
      exact LiveBook.rests_iff.mpr ⟨q, before, terms.orderId ▸ same⟩

theorem step_ledger (step : Step s call t) (allowed : Filling s call) (ledger : Ledger s) :
    Ledger t := by
  have history := step_history step allowed.fresh ledger.toHistory
  cases step with
  | accepted =>
    refine ⟨history, ledger.positive, ?_⟩
    intro u traded id named
    have old := ledger.named u traded id named
    simp only [List.map_append, List.mem_append]
    exact Or.inl old
  | refused => exact ⟨history, ledger.positive, ledger.named⟩
  | removeOrder => exact allowed.elim
  | matchOrders done =>
    obtain ⟨_, run, _, _⟩ := OrderBook.match_orders_sound ledger.recorded.well done
    refine ⟨history, ?_, ?_⟩
    · intro u traded
      rcases List.mem_append.mp traded with old | new
      · exact ledger.positive u old
      · exact (matches_placed run ledger.placed).2 u new
    · intro u traded id named
      rcases List.mem_append.mp traded with old | new
      · exact ledger.named u old id named
      · obtain ⟨r, member, same⟩ := LiveBook.rests_iff.mp (matches_named run new named)
        obtain ⟨p, listed, _, terms⟩ := ledger.recorded.came r member
        exact List.mem_map.mpr ⟨p, listed, terms.orderId.symm.trans same⟩

theorem step_accounted (step : Step s call t) (allowed : Filling s call) (ledger : Ledger s)
    (account : Accounted s.placed s.book.live s.trades) :
    (TradesFit s call ∧ Accounted t.placed t.book.live t.trades) ∨
      (¬ TradesFit s call ∧ Overfilled t.placed t.trades) := by
  cases step with
  | accepted free id symbol price quantity isBuy =>
    obtain ⟨unused, range⟩ := allowed
    refine Or.inl ⟨trivial, ?_⟩
    have live := OrderBook.place_live ledger.recorded.well.toSound free
      (o := .create id symbol price quantity isBuy)
    rw [OrderBook.add_order_free free, live]
    refine ⟨?_, ?_⟩
    · intro r member
      rcases LiveBook.mem_add.mp member with new | old
      · subst r
        refine ⟨le_rfl, range.1, (filled_by_unnamed ?_).symm⟩
        intro u traded named
        exact unused (List.mem_append_left _ (ledger.named u traded id named))
      · exact account.resting r old
    · intro p listed gone
      have still : ∀ q, LiveBook.Rests s.book.live q →
          (s.book.live.add ⟨s.book.nextNode, .create id symbol price quantity isBuy⟩).Rests q := by
        intro q rests
        obtain ⟨r, member, same⟩ := LiveBook.rests_iff.mp rests
        exact LiveBook.rests_iff.mpr ⟨r, LiveBook.mem_add.mpr (Or.inr member), same⟩
      rcases List.mem_append.mp listed with old | new
      · exact account.left p old fun rests => gone (still _ rests)
      · rw [List.mem_singleton.mp new] at gone
        exact absurd (LiveBook.rests_iff.mpr ⟨_, LiveBook.mem_add.mpr (Or.inl rfl), rfl⟩) gone
  | refused full id symbol price quantity isBuy =>
    rw [OrderBook.add_order_full full]
    exact Or.inl ⟨trivial, account⟩
  | removeOrder done => exact allowed.elim
  | matchOrders done =>
    obtain ⟨_, run, stopped, _⟩ := OrderBook.match_orders_sound ledger.recorded.well done
    exact loop_accounted run stopped ledger.placed account

theorem step_overfilled (step : Step s call t) (allowed : Filling s call) (ledger : Ledger s)
    (overfilled : Overfilled s.placed s.trades) : Overfilled t.placed t.trades := by
  cases step with
  | accepted =>
    obtain ⟨p, listed, beyond⟩ := overfilled
    exact ⟨p, List.mem_append_left _ listed, beyond⟩
  | refused => exact overfilled
  | removeOrder => exact allowed.elim
  | matchOrders done =>
    obtain ⟨_, run, _, _⟩ := OrderBook.match_orders_sound ledger.recorded.well done
    exact overfilled.grow (matches_placed run ledger.placed).2

theorem Accounted.exact_fills (ledger : Ledger s)
    (account : Accounted s.placed s.book.live s.trades) : FillsExactly s := by
  refine ⟨?_, ?_⟩
  · intro p listed
    by_cases rests : s.book.live.Rests p.order.orderId
    · obtain ⟨r, member, named⟩ := LiveBook.rests_iff.mp rests
      have terms := ledger.placed.terms_of member listed named
      have entry := account.resting r member
      rw [terms.quantity, terms.orderId] at entry
      refine ⟨by omega, ?_, fun _ => by omega⟩
      simp only [rests, not_true_eq_false, iff_false]
      omega
    · have sum := account.left p listed rests
      exact ⟨sum.le, by simp [sum, rests], fun contra => absurd contra rests⟩
  · intro o listed
    apply filled_by_unnamed
    intro u traded named
    have parts := List.nodup_append.mp ledger.distinct
    exact parts.2.2 _ (ledger.named u traded _ named) _ (List.mem_map.mpr ⟨o, listed, rfl⟩) rfl

end Sessions

section Runs
variable {layout : Layout} {poolSize : Nat} {calls : List (Call Price Id)} {s : Session Price Id}

theorem filling_run_ledger
    (run : Run (Guarded Step Filling) (.create layout poolSize) calls s) : Ledger s :=
  run_invariant Ledger (fun step ledger => step_ledger step.1 step.2 ledger) run
    ⟨create_history intMax layout poolSize, by simp [Session.create], by simp [Session.create]⟩

omit [LinearOrder Price] in
theorem create_accounted : Accounted (Session.create layout poolSize : Session Price Id).placed
    (Session.create layout poolSize : Session Price Id).book.live [] :=
  ⟨by simp [Session.create, OrderBook.create, OrderBook.live, LiveBook.all],
   by simp [Session.create]⟩

theorem fitting_run_accounted (run : Run (Guarded (Guarded Step Filling) TradesFit)
    (.create layout poolSize) calls s) : Accounted s.placed s.book.live s.trades := by
  induction run with
  | nil => exact create_accounted
  | snoc before last account =>
    have ledger := filling_run_ledger (guarded_run_is_run before)
    rcases step_accounted last.1.1 last.1.2 ledger account with good | bad
    · exact good.2
    · exact absurd last.2 bad.1

theorem run_fits_or_overfills
    (run : Run (Guarded Step Filling) (.create layout poolSize) calls s) :
    Run (Guarded (Guarded Step Filling) TradesFit) (.create layout poolSize) calls s ∨
      Overfilled s.placed s.trades := by
  induction run with
  | nil => exact Or.inl (Run.nil _)
  | snoc before last ih =>
    have ledger := filling_run_ledger before
    rcases ih with fitting | overfilled
    · rcases step_accounted last.1 last.2 ledger (fitting_run_accounted fitting) with good | bad
      · exact Or.inl (fitting.snoc ⟨last, good.1⟩)
      · exact Or.inr bad.2
    · exact Or.inr (step_overfilled last.1 last.2 ledger overfilled)

/-- Fills are exact in a run if and only if every trade of the run fitted what was
    left of both of its orders. -/
theorem fills_exactly_iff
    (run : Run (Guarded Step Filling) (.create layout poolSize) calls s) :
    FillsExactly s ↔
      Run (Guarded (Guarded Step Filling) TradesFit) (.create layout poolSize) calls s := by
  constructor
  · intro fills
    rcases run_fits_or_overfills run with fitting | ⟨p, listed, beyond⟩
    · exact fitting
    · exact absurd (fills.1 p listed).1 (not_le.mpr beyond)
  · intro fitting
    exact (fitting_run_accounted fitting).exact_fills (filling_run_ledger run)

/-- A bid of 10 meets an ask of 5 and then an ask of 10: it buys 15. -/
theorem fills_exactly_fails : ∃ s : Session Int Nat,
    Run (Guarded Step Filling) (.create ⟨4096, 64, by decide⟩ 4)
      [.addOrder 1 "AAPL" 100 10 true, .addOrder 2 "AAPL" 100 5 false, .matchOrders,
       .addOrder 3 "AAPL" 100 10 false, .matchOrders] s ∧
      filledBy s.trades 1 = 15 ∧ ¬ FillsExactly s := by
  have replayed : ∃ s, replay (Session.attempt Filling 4)
      (.create ⟨4096, 64, by decide⟩ 4 : Session Int Nat)
      [.addOrder 1 "AAPL" 100 10 true, .addOrder 2 "AAPL" 100 5 false, .matchOrders,
       .addOrder 3 "AAPL" 100 10 false, .matchOrders] = some s ∧
      filledBy s.trades 1 = 15 ∧
      ∃ p ∈ s.placed, p.order.orderId = 1 ∧ p.order.quantity = 10 :=
    ⟨_, rfl, by decide, by decide⟩
  obtain ⟨s, done, sum, p, listed, named, quantity⟩ := replayed
  refine ⟨s, run_of_replay attempt_step done, sum, fun fills => ?_⟩
  have bound := (fills.1 p listed).1
  rw [named, quantity, sum] at bound
  omega

theorem fills_exactly_iff_partial : ∃ s : Session Int Nat,
    Run (Guarded Step Filling) (.create ⟨4096, 64, by decide⟩ 4)
      [.addOrder 1 "AAPL" 100 10 true, .addOrder 2 "AAPL" 100 5 false, .matchOrders] s ∧
      (FillsExactly s ↔ Run (Guarded (Guarded Step Filling) TradesFit)
        (.create ⟨4096, 64, by decide⟩ 4)
        [.addOrder 1 "AAPL" 100 10 true, .addOrder 2 "AAPL" 100 5 false, .matchOrders] s) := by
  have replayed : ∃ s, replay (Session.attempt Filling 4)
      (.create ⟨4096, 64, by decide⟩ 4 : Session Int Nat)
      [.addOrder 1 "AAPL" 100 10 true, .addOrder 2 "AAPL" 100 5 false, .matchOrders] = some s :=
    ⟨_, rfl⟩
  obtain ⟨s, done⟩ := replayed
  have run := run_of_replay attempt_step done
  exact ⟨s, run, fills_exactly_iff run⟩

end Runs
end Phase4
