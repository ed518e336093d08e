import TradingSystems.Phase4.Priority
import Mathlib.Data.List.Destutter

/- One call of match_orders as a sweep. Both queues are taken from their heads: the orders
   that leave are served completely, one after the other, and at most one more of each side
   is served in part and stays at the head. The asks get worse on the way. -/
namespace Phase4
open Runs
variable {Price Id : Type}

section Repeats
variable [DecidableEq Id] {p q : Id} {xs : List Id}

theorem destutter_again : (p :: p :: xs).destutter (· ≠ ·) = (p :: xs).destutter (· ≠ ·) := by
  rw [List.destutter_cons_cons, if_neg (by simp), List.destutter_cons']

theorem destutter_other (differ : p ≠ q) :
    (p :: q :: xs).destutter (· ≠ ·) = p :: (q :: xs).destutter (· ≠ ·) := by
  rw [List.destutter_cons_cons, if_pos differ, List.destutter_cons']

end Repeats

namespace LiveBook
variable [LinearOrder Price]

section Keys
variable {Key : Type} (key : Resting Price Id → Key) {l m k : LiveBook Price Id}
  {t : Trade Price Id} {ts : List (Trade Price Id)}

theorem trade_takes_head_key (kept : ∀ r n, key (r.fill n) = key r)
    (head : l.matchHead = some (t, m)) (s : Bool) : (m.side s).map key <:+ (l.side s).map key := by
  have settled : ∀ (r : Resting Price Id) rest,
      (settle (r.fill t.quantity) rest).map key <:+ key r :: rest.map key := by
    intro r rest
    unfold settle
    split
    · exact List.suffix_cons _ _
    · exact ⟨[], by rw [List.nil_append, List.map_cons, kept]⟩
  obtain ⟨bid, ask, bids, asks, step⟩ := match_head_cases head
  cases s
  · simpa [step.asksAfter, step.askHead] using settled ask asks
  · simpa [step.bidsAfter, step.bidHead] using settled bid bids

end Keys

section Prices
variable {l k : LiveBook Price Id} {ts : List (Trade Price Id)}

def askPrices (l : LiveBook Price Id) : List Price := l.asks.map fun r => r.order.price

theorem trade_price_listed (run : Matches l ts k) : ∀ t ∈ ts, t.price ∈ l.askPrices := by
  induction run with
  | done => simp
  | @trade l m k t ts head tail ih =>
    have suffix : m.askPrices <:+ l.askPrices :=
      trade_takes_head_key (fun r => r.order.price) (fun _ _ => rfl) head false
    intro u member
    rcases List.mem_cons.mp member with first | later
    · obtain ⟨bid, ask, bids, asks, step⟩ := match_head_cases head
      rw [first, askPrices, step.askHead, step.trade]
      exact List.mem_cons_self
    · exact suffix.subset (ih u later)

theorem trade_prices_rise (run : Matches l ts k) (sorted : l.askPrices.Pairwise (· ≤ ·)) :
    (ts.map Trade.price).Pairwise (· ≤ ·) := by
  induction run with
  | done => exact List.Pairwise.nil
  | @trade l m k t ts head tail ih =>
    have suffix : m.askPrices <:+ l.askPrices :=
      trade_takes_head_key (fun r => r.order.price) (fun _ _ => rfl) head false
    obtain ⟨bid, ask, bids, asks, step⟩ := match_head_cases head
    have price : t.price = ask.order.price := by rw [step.trade]
    rw [List.map_cons, List.pairwise_cons]
    refine ⟨?_, ih (sorted.sublist suffix.sublist)⟩
    intro later member
    obtain ⟨u, inside, same⟩ := List.mem_map.mp member
    have listed := suffix.subset (trade_price_listed tail u inside)
    rw [askPrices, step.askHead, List.map_cons] at sorted listed
    rw [same] at listed
    rw [price]
    rcases List.mem_cons.mp listed with first | behind
    · exact first.ge
    · exact (List.pairwise_cons.mp sorted).1 later behind

end Prices

section Swept
variable [DecidableEq Id] {l k : LiveBook Price Id} {ts : List (Trade Price Id)}

def served (ts : List (Trade Price Id)) (s : Bool) : List Id :=
  (ts.map fun t => t.party s).destutter (· ≠ ·)

/-- `gone` was served and left; at most the order that is now at the head was served too. -/
def Sweeps (before served after : List Id) : Prop :=
  ∃ gone, before = gone ++ after ∧
    (served = gone ∨ ∃ id rest, after = id :: rest ∧ served = gone ++ [id])

theorem matches_sweep (run : Matches l ts k) (s : Bool) (distinct : (l.idQueue s).Nodup) :
    Sweeps (l.idQueue s) (served ts s) (k.idQueue s) := by
  induction run with
  | done => exact ⟨[], rfl, Or.inl rfl⟩
  | @trade l m k t ts head tail ih =>
    obtain ⟨rest, before, after⟩ := trade_takes_heads head s
    cases tail with
    | done =>
      rcases after with stays | leaves
      · exact ⟨[], by rw [before, stays]; rfl, Or.inr ⟨_, rest, stays, rfl⟩⟩
      · exact ⟨[t.party s], by rw [before, leaves]; rfl, Or.inl rfl⟩
    | @trade m n k u ts next tail =>
      obtain ⟨behind, first, _⟩ := trade_takes_heads next s
      have shorter : (m.idQueue s).Nodup :=
        distinct.sublist (matches_suffix (.trade head (.done m)) s).sublist
      obtain ⟨gone, split, parties⟩ := ih shorter
      rcases after with stays | leaves
      · -- The same order is served again.
        have same : t.party s = u.party s := (List.cons.inj (stays.symm.trans first)).1
        have again : served (t :: u :: ts) s = served (u :: ts) s := by
          simp only [served, List.map_cons, same, destutter_again]
        rw [again, before, ← stays]
        exact ⟨gone, split, parties⟩
      · rw [before, ← leaves, first] at distinct
        have differ : t.party s ≠ u.party s := by
          intro same
          exact (List.nodup_cons.mp distinct).1 (same ▸ List.mem_cons_self)
        have another : served (t :: u :: ts) s = t.party s :: served (u :: ts) s := by
          simp only [served, List.map_cons, destutter_other differ]
        rw [another, before, ← leaves, split]
        refine ⟨t.party s :: gone, rfl, ?_⟩
        rcases parties with all | ⟨id, left, queue, partly⟩
        · exact Or.inl (by rw [all])
        · exact Or.inr ⟨id, left, queue, by rw [partly]; rfl⟩

end Swept
end LiveBook

variable [LinearOrder Price] [DecidableEq Id]

omit [DecidableEq Id] in
theorem ask_prices_sorted {b : OrderBook Price Id} (sound : b.Sound) :
    b.live.askPrices.Pairwise (· ≤ ·) := by
  rw [LiveBook.askPrices, List.pairwise_map]
  refine (sound.queue_ahead false).imp ?_
  rintro r q (better | ⟨tie, _⟩)
  · exact le_of_lt (by simpa [Better] using better)
  · exact tie.le

/-- In one call on a reachable book the trade prices never fall, and each side is swept
    from its head: the orders that are served are served one after the other, and all of
    them leave but for the last, which may stay at the head of the queue. -/
theorem call_sweeps {layout : Layout} {poolSize : Nat} {calls : List (Call Price Id)}
    {s : Session Price Id}
    (run : Run (Guarded Step Unshared) (.create layout poolSize) calls s) {fuel : Nat}
    {ts : List (Trade Price Id)} {c : OrderBook Price Id}
    (done : s.book.matchOrders fuel = .ok (ts, c)) :
    (ts.map Trade.price).Pairwise (· ≤ ·) ∧
      ∀ side, LiveBook.Sweeps (s.book.live.idQueue side) (LiveBook.served ts side)
        (c.live.idQueue side) := by
  have well := (run_recorded (fun _ allowed => allowed) run).well
  obtain ⟨_, trades, _, _⟩ := OrderBook.match_orders_sound well done
  refine ⟨LiveBook.trade_prices_rise trades (ask_prices_sorted well.toSound), fun side => ?_⟩
  exact LiveBook.matches_sweep trades side (LiveBook.queue_nodup well.ids_nodup side)

theorem call_sweeps_two_asks : ∃ (s : Session Int Nat) (c : OrderBook Int Nat)
    (ts : List (Trade Int Nat)),
    Run (Guarded Step Unshared) (.create ⟨4096, 64, by decide⟩ 4)
      [.addOrder 1 "AAPL" 100 60 false, .addOrder 2 "AAPL" 99 20 false,
       .addOrder 3 "AAPL" 101 50 true] s ∧
      s.book.matchOrders 4 = .ok (ts, c) ∧ ts.map Trade.price = [99, 100] ∧
      c.live.idQueue false = [1] ∧
      LiveBook.Sweeps (s.book.live.idQueue false) (LiveBook.served ts false) [1] := by
  have done : ∃ s c ts, replay (Session.attempt Unshared 4)
      (.create ⟨4096, 64, by decide⟩ 4 : Session Int Nat)
      [.addOrder 1 "AAPL" 100 60 false, .addOrder 2 "AAPL" 99 20 false,
       .addOrder 3 "AAPL" 101 50 true] = some s ∧
      s.book.matchOrders 4 = .ok (ts, c) ∧ ts.map Trade.price = [99, 100] ∧
      c.live.idQueue false = [1] := ⟨_, _, _, rfl, rfl, rfl, rfl⟩
  obtain ⟨s, c, ts, done, matched, prices, after⟩ := done
  have run := run_of_replay attempt_step done
  have sweeps := (call_sweeps run matched).2 false
  rw [after] at sweeps
  exact ⟨s, c, ts, run, matched, prices, after, sweeps⟩

end Phase4
