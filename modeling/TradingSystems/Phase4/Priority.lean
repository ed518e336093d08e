import TradingSystems.Phase4.OpenBook
import TradingSystems.Phase4.FillAccounting
import TradingSystems.Library.Before

/- Price-time priority. A trade names the heads of both queues, and each queue only
   ever loses its head, so an order is served before everything behind it. -/
namespace Phase4
open Runs Before
variable {Price Id : Type}

def Trade.party (t : Trade Price Id) : Bool → Id
  | true => t.buyOrderId
  | false => t.sellOrderId

namespace LiveBook

def idQueue (l : LiveBook Price Id) (s : Bool) : List Id :=
  (l.side s).map fun r => r.order.orderId

theorem ids_queues (l : LiveBook Price Id) : l.ids = l.idQueue true ++ l.idQueue false := by
  simp [ids, all, idQueue]

theorem rests_of_queue {l : LiveBook Price Id} {s : Bool} {id : Id} (member : id ∈ l.idQueue s) :
    l.Rests id := by
  rw [Rests, ids_queues]
  cases s
  · exact List.mem_append_right _ member
  · exact List.mem_append_left _ member

theorem settle_ids (r : Resting Price Id) (q : Int) (rest : List (Resting Price Id)) :
    (settle (r.fill q) rest).map (fun x => x.order.orderId) =
        r.order.orderId :: rest.map (fun x => x.order.orderId) ∨
      (settle (r.fill q) rest).map (fun x => x.order.orderId) =
        rest.map fun x => x.order.orderId := by
  unfold settle
  split
  · exact Or.inr rfl
  · exact Or.inl rfl

theorem queue_nodup {l : LiveBook Price Id} (distinct : l.ids.Nodup) (s : Bool) :
    (l.idQueue s).Nodup := by
  have parts := List.nodup_append.mp (ids_queues l ▸ distinct)
  cases s
  · exact parts.2.1
  · exact parts.1

theorem queue_side {l : LiveBook Price Id} (distinct : l.ids.Nodup) {s u : Bool} {id : Id}
    (hs : id ∈ l.idQueue s) (hu : id ∈ l.idQueue u) : s = u := by
  have parts := List.nodup_append.mp (ids_queues l ▸ distinct)
  cases s <;> cases u
  · rfl
  · exact absurd rfl (parts.2.2 _ hu _ hs)
  · exact absurd rfl (parts.2.2 _ hs _ hu)
  · rfl

variable [LinearOrder Price]

/-- Somewhere in these trades the order is filled and leaves the book. -/
def LeavesFilled (l : LiveBook Price Id) (ts : List (Trade Price Id)) (id : Id) : Prop :=
  ∃ before t after m n, ts = before ++ t :: after ∧ Matches l before m ∧
    m.matchHead = some (t, n) ∧ t.Names id ∧
    (∃ r ∈ m.all, r.order.orderId = id ∧ (r.order.updateFilled t.quantity).status = .filled) ∧
    ¬ n.Rests id

section Queues
variable {l m k : LiveBook Price Id} {t : Trade Price Id} {ts us : List (Trade Price Id)} {id : Id}

theorem trade_takes_heads (head : l.matchHead = some (t, m)) (s : Bool) :
    ∃ rest, l.idQueue s = t.party s :: rest ∧
      (m.idQueue s = t.party s :: rest ∨ m.idQueue s = rest) := by
  obtain ⟨bid, ask, bids, asks, step⟩ := match_head_cases head
  cases s
  · refine ⟨asks.map fun r => r.order.orderId, ?_, ?_⟩
    · simp [idQueue, step.askHead, Trade.party, step.trade]
    · have after := settle_ids ask t.quantity asks
      simpa [idQueue, step.asksAfter, Trade.party, step.trade] using after
  · refine ⟨bids.map fun r => r.order.orderId, ?_, ?_⟩
    · simp [idQueue, step.bidHead, Trade.party, step.trade]
    · have after := settle_ids bid t.quantity bids
      simpa [idQueue, step.bidsAfter, Trade.party, step.trade] using after

theorem matches_suffix (run : Matches l ts k) (s : Bool) : k.idQueue s <:+ l.idQueue s := by
  induction run with
  | done => exact List.suffix_refl _
  | trade head tail ih =>
    obtain ⟨rest, before, after⟩ := trade_takes_heads head s
    refine ih.trans ?_
    rw [before]
    rcases after with same | shorter
    · exact same ▸ List.suffix_refl _
    · exact shorter ▸ List.suffix_cons _ _

theorem leaves_filled (run : Matches l ts k) (rests : l.Rests id) (gone : ¬ k.Rests id) :
    l.LeavesFilled ts id := by
  induction run with
  | done => exact absurd rests gone
  | @trade l m k t ts head tail ih =>
    by_cases still : m.Rests id
    · obtain ⟨before, u, after, m', n, split, first, last, rest⟩ := ih still gone
      exact ⟨t :: before, u, after, m', n, by rw [split]; rfl, .trade head first, last, rest⟩
    · obtain ⟨r, member, named⟩ := rests_iff.mp rests
      obtain ⟨bid, ask, bids, asks, step⟩ := match_head_cases head
      have left : ∀ x ∈ l.all, x.order.orderId = id → x.fill t.quantity ∉ m.all :=
        fun x _ same inside => still (rests_iff.mpr ⟨_, inside, same⟩)
      refine ⟨[], t, ts, l, m, rfl, .done l, head, ?_, ⟨r, member, named, ?_⟩, still⟩
      · rcases step.mem_before.mp member with same | same | other
        · exact step.names.mpr (Or.inl (same ▸ named))
        · exact step.names.mpr (Or.inr (same ▸ named))
        · exact absurd (rests_iff.mpr ⟨r, step.mem_after.mpr (Or.inr (Or.inr other)), named⟩) still
      · by_contra unfilled
        rcases step.mem_before.mp member with same | same | other
        · exact left r member named (step.mem_after.mpr (Or.inl (same ▸ ⟨rfl, unfilled⟩)))
        · exact left r member named (step.mem_after.mpr (Or.inr (Or.inl (same ▸ ⟨rfl, unfilled⟩))))
        · exact still (rests_iff.mpr ⟨r, step.mem_after.mpr (Or.inr (Or.inr other)), named⟩)

theorem party_of_named (distinct : l.ids.Nodup) (run : Matches l ts k)
    (head : k.matchHead = some (t, m)) {s : Bool} (member : id ∈ l.idQueue s)
    (named : t.Names id) : t.party s = id := by
  have on : ∀ u, t.party u = id → u = s := by
    intro u party
    obtain ⟨rest, front, _⟩ := trade_takes_heads head u
    have inside : id ∈ k.idQueue u := by rw [front, party]; simp
    exact queue_side distinct ((matches_suffix run u).subset inside) member
  rcases named with buy | sell
  · have side := on true buy
    exact side ▸ buy
  · have side := on false sell
    exact side ▸ sell

end Queues

section Served
variable {l k : LiveBook Price Id} {s : Bool} {a b : Id}

theorem gone_at_later_trade (distinct : l.ids.Nodup) (ahead : [a, b].Sublist (l.idQueue s))
    {before after : List (Trade Price Id)} {t : Trade Price Id}
    (run : Matches l (before ++ t :: after) k) (named : t.Names b) :
    ∃ m, Matches l before m ∧ Matches m (t :: after) k ∧ ¬ m.Rests a := by
  obtain ⟨m, first, second⟩ := matches_split run
  refine ⟨m, first, second, fun rests => ?_⟩
  cases second with
  | trade head tail =>
    have party := party_of_named distinct first head (ahead.subset (by simp)) named
    obtain ⟨rest, front, _⟩ := trade_takes_heads head s
    rw [party] at front
    have gone := gone_when_next (queue_nodup distinct s) ahead (front ▸ matches_suffix first s)
    obtain ⟨r, member, same⟩ := rests_iff.mp rests
    obtain ⟨u, inside⟩ := mem_all.mp member
    have queued : a ∈ m.idQueue u := List.mem_map.mpr ⟨r, inside, same⟩
    have side := queue_side distinct ((matches_suffix first u).subset queued)
      (ahead.subset (by simp) : a ∈ l.idQueue s)
    rw [side, front] at queued
    exact gone queued

theorem earlier_trades_first (distinct : l.ids.Nodup) (ahead : [a, b].Sublist (l.idQueue s))
    {ts : List (Trade Price Id)} (run : Matches l ts k) {i j : Nat} {t u : Trade Price Id}
    (at_i : ts[i]? = some t) (at_j : ts[j]? = some u) (first : t.Names a) (second : u.Names b) :
    i < j := by
  by_contra late
  obtain ⟨inside, value⟩ := List.getElem?_eq_some_iff.mp at_j
  have split : ts = ts.take j ++ u :: ts.drop (j + 1) := by
    rw [← value, List.getElem_cons_drop, List.take_append_drop]
  rw [split] at run
  obtain ⟨m, _, rest, gone⟩ := gone_at_later_trade distinct ahead run second
  refine gone (matches_named rest (u := t) ?_ first)
  rw [← value, List.getElem_cons_drop]
  have found : (ts.drop j)[i - j]? = some t := by
    rw [List.getElem?_drop, Nat.add_sub_cancel' (not_lt.mp late)]
    exact at_i
  exact List.mem_of_getElem? found

end Served
end LiveBook

variable [LinearOrder Price]

theorem LiveBook.ahead_asymm {side : Bool} {r q : Resting Price Id} (ahead : Ahead side r q) :
    ¬ Ahead side q r := by
  rcases ahead with wins | tie
  · rintro (loses | later)
    · exact better_asymm wins loses
    · rw [later.1] at wins
      exact better_asymm wins wins
  · rintro (loses | later)
    · rw [tie.1] at loses
      exact better_asymm loses loses
    · exact absurd tie.2 (not_lt.mpr later.2.le)

theorem placed_stamps {s : Session Price Id} {bound : Int} (history : History bound s)
    {p q : Resting Price Id} (hp : p ∈ s.placed) (hq : q ∈ s.placed)
    (earlier : [p.order.orderId, q.order.orderId].Sublist
      (s.placed.map fun p => p.order.orderId)) : p.stamp < q.stamp := by
  have distinct := (List.nodup_append.mp history.distinct).1
  have named : (s.placed.map fun p => p.order.orderId).Pairwise fun x y =>
      ∀ v ∈ s.placed, ∀ w ∈ s.placed, v.order.orderId = x → w.order.orderId = y →
        v.stamp < w.stamp := by
    rw [List.pairwise_map]
    refine history.recorded.stamps.imp_of_mem ?_
    intro v w hv hw older v' hv' w' hw' sameV sameW
    rw [List.inj_on_of_nodup_map distinct hv' hv sameV,
      List.inj_on_of_nodup_map distinct hw' hw sameW]
    exact older
  exact pairwise_of_pair named earlier p hp q hq rfl rfl

theorem ahead_in_queue {s : Session Price Id} {bound : Int} (history : History bound s)
    {side : Bool} {r q : Resting Price Id} (hr : r ∈ s.book.live.side side)
    (hq : q ∈ s.book.live.side side)
    (better : Better side r.order.price q.order.price ∨
      (r.order.price = q.order.price ∧ [r.order.orderId, q.order.orderId].Sublist
        (s.placed.map fun p => p.order.orderId))) :
    [r.order.orderId, q.order.orderId].Sublist (s.book.live.idQueue side) := by
  have ahead : LiveBook.Ahead side r q := by
    refine better.imp id fun tie => ⟨tie.1, ?_⟩
    obtain ⟨p, hp, stamp, terms⟩ := history.recorded.came r (LiveBook.mem_all.mpr ⟨side, hr⟩)
    obtain ⟨p', hp', stamp', terms'⟩ := history.recorded.came q (LiveBook.mem_all.mpr ⟨side, hq⟩)
    rw [terms.orderId, terms'.orderId] at tie
    rw [← stamp, ← stamp']
    exact placed_stamps history hp hp' tie.2
  have behind := LiveBook.ahead_asymm ahead
  have differ : r ≠ q := fun same => behind (same ▸ same ▸ ahead)
  have sound := history.recorded.well.toSound
  exact (pair_of_pairwise (sound.queue_ahead side) hr hq behind differ).map
    fun x => x.order.orderId

variable [DecidableEq Id]

/-- How one match_orders call from book `b` treats `first`, which is ahead of
    `second` on the same side. -/
structure ServedFirst (b c : OrderBook Price Id) (ts : List (Trade Price Id)) (side : Bool)
    (first second : Id) : Prop where
  leaves : ∀ before t after, ts = before ++ t :: after → t.Names second →
    b.live.LeavesFilled before first
  precedes : ∀ (i j : Nat) (t u : Trade Price Id), ts[i]? = some t → ts[j]? = some u →
    t.Names first → u.Names second → i < j
  stays : c.live.Rests first → c.live.Rests second → [first, second].Sublist (c.live.idQueue side)

/-- match_orders returns, and between two orders of one side it serves the better
    price first and, at one price, the order that was added earlier. -/
theorem price_time_priority {layout : Layout} {poolSize : Nat} {calls : List (Call Price Id)}
    {s : Session Price Id}
    (run : Run (Guarded Step (Fresh quantityBound)) (.create layout poolSize) calls s) :
    (∃ fuel ts c, s.book.matchOrders fuel = .ok (ts, c)) ∧
    ∀ fuel ts c, s.book.matchOrders fuel = .ok (ts, c) →
      ∀ side, ∀ r ∈ s.book.live.side side, ∀ q ∈ s.book.live.side side,
        (Better side r.order.price q.order.price ∨
          (r.order.price = q.order.price ∧ [r.order.orderId, q.order.orderId].Sublist
            (s.placed.map fun p => p.order.orderId))) →
        ServedFirst s.book c ts side r.order.orderId q.order.orderId := by
  refine ⟨⟨_, match_orders_returns (fresh_run_admissible run)⟩, ?_⟩
  intro fuel ts c done side r hr q hq better
  have history := fresh_run_history run
  have distinct := history.recorded.well.ids_nodup
  have ahead := ahead_in_queue history hr hq better
  obtain ⟨_, trades, _, _⟩ := OrderBook.match_orders_sound history.recorded.well done
  refine ⟨?_, fun i j t u => LiveBook.earlier_trades_first distinct ahead trades, ?_⟩
  · intro before t after split named
    subst split
    obtain ⟨m, first, _, gone⟩ := LiveBook.gone_at_later_trade distinct ahead trades named
    exact LiveBook.leaves_filled first (LiveBook.rests_of_queue (ahead.subset (by simp))) gone
  · intro rests _
    obtain ⟨x, member, same⟩ := LiveBook.rests_iff.mp rests
    obtain ⟨u, inside⟩ := LiveBook.mem_all.mp member
    have queued : r.order.orderId ∈ c.live.idQueue u := List.mem_map.mpr ⟨x, inside, same⟩
    have at_side := LiveBook.queue_side distinct
      ((LiveBook.matches_suffix trades u).subset queued)
      (ahead.subset (by simp) : r.order.orderId ∈ s.book.live.idQueue side)
    subst at_side
    exact pair_in_suffix (LiveBook.queue_nodup distinct u) ahead
      (LiveBook.matches_suffix trades u) queued

theorem price_time_priority_two_bids : ∃ (s : Session Int Nat) (c : OrderBook Int Nat)
    (ts : List (Trade Int Nat)),
    Run (Guarded Step (Fresh quantityBound)) (.create ⟨4096, 64, by decide⟩ 4)
      [.addOrder 1 "AAPL" 101 40 true, .addOrder 2 "AAPL" 101 60 true,
       .addOrder 3 "AAPL" 100 90 false] s ∧
      s.book.matchOrders 4 = .ok (ts, c) ∧ ts.map Trade.buyOrderId = [1, 2] ∧
      ServedFirst s.book c ts true 1 2 := by
  have done : ∃ s c ts r q, replay (Session.attempt (Fresh quantityBound) 4)
      (.create ⟨4096, 64, by decide⟩ 4 : Session Int Nat)
      [.addOrder 1 "AAPL" 101 40 true, .addOrder 2 "AAPL" 101 60 true,
       .addOrder 3 "AAPL" 100 90 false] = some s ∧
      s.book.matchOrders 4 = .ok (ts, c) ∧ ts.map Trade.buyOrderId = [1, 2] ∧
      s.book.live.bids = [r, q] ∧ r.order.orderId = 1 ∧ q.order.orderId = 2 ∧
      r.order.price = q.order.price ∧ s.placed.map (fun p => p.order.orderId) = [1, 2, 3] :=
    ⟨_, _, _, _, _, rfl, rfl, rfl, rfl, rfl, rfl, rfl, rfl⟩
  obtain ⟨s, c, ts, r, q, done, matched, names, bids, one, two, price, order⟩ := done
  have run := run_of_replay attempt_step done
  have served := (price_time_priority run).2 4 ts c matched true r (by simp [bids]) q
    (by simp [bids]) (Or.inr ⟨price, by rw [one, two, order]; decide⟩)
  exact ⟨s, c, ts, run, matched, names, one ▸ two ▸ served⟩

end Phase4
