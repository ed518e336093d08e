import TradingSystems.Phase4.MatchingEngine
import TradingSystems.Library.Runs

/- Runs of calls on one book, with their history: the orders the book accepted, in
   the order in which it accepted them, those it refused, and the trades returned. -/
namespace Phase4
open Runs
variable {Price Id : Type}

inductive Call (Price Id : Type) where
  | addOrder (id : Id) (symbol : String) (price : Price) (quantity : Int) (isBuy : Bool)
  | removeOrder (id : Id)
  | matchOrders

structure Session (Price Id : Type) where
  book : OrderBook Price Id
  placed : List (Resting Price Id)
  refused : List (Order Price Id)
  trades : List (Trade Price Id)

namespace Session

def create (layout : Layout) (poolSize : Nat) : Session Price Id :=
  ⟨.create layout poolSize, [], [], []⟩

def issued (s : Session Price Id) : List Id :=
  s.placed.map (fun p => p.order.orderId) ++ s.refused.map Order.orderId

end Session

section Steps
variable [LinearOrder Price] [DecidableEq Id]

/-- One call. A matching loop that does not end has no step. -/
inductive Step : Session Price Id → Call Price Id → Session Price Id → Prop where
  | accepted {s : Session Price Id} {i : Nat} (free : s.book.pool.firstFree = some i)
      (id : Id) (symbol : String) (price : Price) (quantity : Int) (isBuy : Bool) :
      Step s (.addOrder id symbol price quantity isBuy)
        { s with
          book := s.book.addOrder id symbol price quantity isBuy
          placed := s.placed ++ [⟨s.book.nextNode, .create id symbol price quantity isBuy⟩] }
  | refused {s : Session Price Id} (full : s.book.pool.firstFree = none)
      (id : Id) (symbol : String) (price : Price) (quantity : Int) (isBuy : Bool) :
      Step s (.addOrder id symbol price quantity isBuy)
        { s with
          book := s.book.addOrder id symbol price quantity isBuy
          refused := s.refused ++ [.create id symbol price quantity isBuy] }
  | removeOrder {s : Session Price Id} {id : Id} {c : OrderBook Price Id}
      (done : s.book.removeOrder id = .ok c) : Step s (.removeOrder id) { s with book := c }
  | matchOrders {s : Session Price Id} {fuel : Nat} {ts : List (Trade Price Id)}
      {c : OrderBook Price Id} (done : s.book.matchOrders fuel = .ok (ts, c)) :
      Step s .matchOrders { s with book := c, trades := s.trades ++ ts }

end Steps

def Unshared (s : Session Price Id) : Call Price Id → Prop
  | .addOrder id _ _ _ _ => ¬ s.book.live.Rests id
  | _ => True

/-- An identifier that does not rest, and a quantity whose fills stay in range. -/
def Admissible (s : Session Price Id) : Call Price Id → Prop
  | .addOrder id _ _ quantity _ => ¬ s.book.live.Rests id ∧ 1 ≤ quantity ∧ quantity ≤ 2 ^ 30
  | _ => True

def Fresh (bound : Int) (s : Session Price Id) : Call Price Id → Prop
  | .addOrder id _ _ quantity _ => id ∉ s.issued ∧ 0 < quantity ∧ quantity ≤ bound
  | _ => True

instance [DecidableEq Id] (s : Session Price Id) (call : Call Price Id) :
    Decidable (Unshared s call) :=
  match call with
  | .addOrder .. => inferInstanceAs (Decidable (¬ _))
  | .removeOrder _ => inferInstanceAs (Decidable True)
  | .matchOrders => inferInstanceAs (Decidable True)

instance [DecidableEq Id] (s : Session Price Id) (call : Call Price Id) :
    Decidable (Admissible s call) :=
  match call with
  | .addOrder .. => inferInstanceAs (Decidable (_ ∧ _ ∧ _))
  | .removeOrder _ => inferInstanceAs (Decidable True)
  | .matchOrders => inferInstanceAs (Decidable True)

instance [DecidableEq Id] (bound : Int) (s : Session Price Id) (call : Call Price Id) :
    Decidable (Fresh bound s call) :=
  match call with
  | .addOrder .. => inferInstanceAs (Decidable (_ ∧ _ ∧ _))
  | .removeOrder _ => inferInstanceAs (Decidable True)
  | .matchOrders => inferInstanceAs (Decidable True)

/-- What a history and its book have in common. -/
structure Recorded [LinearOrder Price] (s : Session Price Id) : Prop where
  well : s.book.WellFormed
  stamps : s.placed.Pairwise (fun p q => p.stamp < q.stamp)
  older : ∀ p ∈ s.placed, p.stamp < s.book.nextNode
  came : ∀ r ∈ s.book.live.all, ∃ p ∈ s.placed, p.stamp = r.stamp ∧ SameTerms r.order p.order

theorem create_recorded [LinearOrder Price] (layout : Layout) (poolSize : Nat) :
    Recorded (.create layout poolSize : Session Price Id) where
  well := OrderBook.create_well_formed layout poolSize
  stamps := List.Pairwise.nil
  older := by simp [Session.create]
  came := by simp [Session.create, OrderBook.create, OrderBook.live, LiveBook.all]

theorem Recorded.rests_issued [LinearOrder Price] {s : Session Price Id} (rec : Recorded s)
    {id : Id} (rests : s.book.live.Rests id) : id ∈ s.issued := by
  obtain ⟨r, member, named⟩ := LiveBook.rests_iff.mp rests
  obtain ⟨p, placed, _, terms⟩ := rec.came r member
  rw [← named, terms.orderId]
  exact List.mem_append_left _ (List.mem_map.mpr ⟨p, placed, rfl⟩)

theorem Fresh.unshared [LinearOrder Price] {bound : Int} {s : Session Price Id}
    {call : Call Price Id} (rec : Recorded s) (fresh : Fresh bound s call) : Unshared s call := by
  cases call with
  | addOrder => exact fun rests => fresh.1 (rec.rests_issued rests)
  | _ => trivial

theorem Admissible.unshared {s : Session Price Id} {call : Call Price Id}
    (allowed : Admissible s call) : Unshared s call := by
  cases call with
  | addOrder => exact allowed.1
  | _ => trivial

variable [LinearOrder Price] [DecidableEq Id]

theorem step_recorded {s t : Session Price Id} {call : Call Price Id} (step : Step s call t)
    (allowed : Unshared s call) (rec : Recorded s) : Recorded t := by
  cases step with
  | accepted free id symbol price quantity isBuy =>
    have added := OrderBook.add_order_free free id symbol price quantity isBuy
    have live := OrderBook.place_live rec.well.toSound free
      (o := .create id symbol price quantity isBuy)
    refine ⟨?_, ?_, ?_, ?_⟩
    · rw [added]
      exact OrderBook.place_well_formed rec.well free allowed
    · refine List.pairwise_append.mpr ⟨rec.stamps, List.pairwise_singleton _ _, ?_⟩
      intro p placed q new
      rw [List.mem_singleton.mp new]
      exact rec.older p placed
    · rw [added]
      exact all_snoc (fun p placed => Nat.lt_succ_of_lt (rec.older p placed)) (Nat.lt_succ_self _)
    · intro r member
      rw [added, live, LiveBook.mem_add] at member
      rcases member with new | old
      · subst r
        exact ⟨_, by simp, rfl, SameTerms.refl _⟩
      · obtain ⟨p, placed, rest⟩ := rec.came r old
        exact ⟨p, by simp [placed], rest⟩
  | refused full id symbol price quantity isBuy =>
    rw [OrderBook.add_order_full full]
    exact ⟨rec.well, rec.stamps, rec.older, rec.came⟩
  | @removeOrder id c done =>
    obtain ⟨c', done', well, live, frame⟩ := OrderBook.remove_order_spec rec.well id
    rw [done] at done'
    cases done'
    refine ⟨well, rec.stamps, ?_, ?_⟩
    · rw [frame.nextNode]
      exact rec.older
    · intro r member
      rw [live, LiveBook.mem_drop] at member
      exact rec.came r member.1
  | matchOrders done =>
    obtain ⟨well, run, _, frame⟩ := OrderBook.match_orders_sound rec.well done
    refine ⟨well, rec.stamps, ?_, ?_⟩
    · rw [frame.nextNode]
      exact rec.older
    · intro r member
      obtain ⟨q, before, stamp, terms⟩ := LiveBook.matches_came run member
      obtain ⟨p, placed, stamp', terms'⟩ := rec.came q before
      exact ⟨p, placed, stamp'.trans stamp, terms.trans terms'⟩

structure History (bound : Int) (s : Session Price Id) : Prop where
  recorded : Recorded s
  distinct : s.issued.Nodup
  range : ∀ p ∈ s.placed, 0 < p.order.quantity ∧ p.order.quantity ≤ bound

omit [DecidableEq Id] in
theorem create_history (bound : Int) (layout : Layout) (poolSize : Nat) :
    History bound (.create layout poolSize : Session Price Id) where
  recorded := create_recorded layout poolSize
  distinct := by simp [Session.issued, Session.create]
  range := by simp [Session.create]

theorem step_history {bound : Int} {s t : Session Price Id} {call : Call Price Id}
    (step : Step s call t) (allowed : Fresh bound s call) (history : History bound s) :
    History bound t := by
  have recorded := step_recorded step (allowed.unshared history.recorded) history.recorded
  cases step with
  | accepted free id symbol price quantity isBuy =>
    obtain ⟨unused, range⟩ := allowed
    refine ⟨recorded, ?_, ?_⟩
    · have old := history.distinct
      simp only [Session.issued, List.map_append, List.map_cons, List.map_nil, List.append_assoc,
        List.singleton_append] at old unused ⊢
      exact (List.perm_middle.nodup_iff).mpr (List.nodup_cons.mpr ⟨unused, old⟩)
    · exact all_snoc history.range range
  | refused full id symbol price quantity isBuy =>
    obtain ⟨unused, _⟩ := allowed
    refine ⟨recorded, ?_, history.range⟩
    have old := history.distinct
    simp only [Session.issued, List.map_append, List.map_cons, List.map_nil] at old unused ⊢
    rw [← List.append_assoc, List.nodup_append]
    refine ⟨old, List.nodup_singleton _, ?_⟩
    intro a listed b new same
    rw [List.mem_singleton.mp new] at same
    have issued : a = id := same
    exact unused (issued ▸ listed)
  | removeOrder => exact ⟨recorded, history.distinct, history.range⟩
  | matchOrders => exact ⟨recorded, history.distinct, history.range⟩

theorem step_resting {keep : Resting Price Id → Prop}
    (traded : ∀ {l m : LiveBook Price Id} {t : Trade Price Id}, l.matchHead = some (t, m) →
      (∀ r ∈ l.all, keep r) → ∀ r ∈ m.all, keep r)
    {s t : Session Price Id} {call : Call Price Id} (step : Step s call t) (rec : Recorded s)
    (added : ∀ stamp id symbol price quantity isBuy,
      call = .addOrder id symbol price quantity isBuy →
        keep ⟨stamp, .create id symbol price quantity isBuy⟩)
    (held : ∀ r ∈ s.book.live.all, keep r) : ∀ r ∈ t.book.live.all, keep r := by
  cases step with
  | accepted free id symbol price quantity isBuy =>
    have live := OrderBook.place_live rec.well.toSound free
      (o := .create id symbol price quantity isBuy)
    rw [OrderBook.add_order_free free, live]
    intro r member
    rcases LiveBook.mem_add.mp member with new | old
    · subst r
      exact added _ _ _ _ _ _ rfl
    · exact held r old
  | refused full =>
    rw [OrderBook.add_order_full full]
    exact held
  | @removeOrder id c done =>
    obtain ⟨c', done', _, live, _⟩ := OrderBook.remove_order_spec rec.well id
    rw [done] at done'
    cases done'
    rw [live]
    exact fun r member => held r (LiveBook.mem_drop.mp member).1
  | matchOrders done =>
    obtain ⟨_, run, _, _⟩ := OrderBook.match_orders_sound rec.well done
    exact LiveBook.matches_keep traded run held

section Reached
variable {layout : Layout} {poolSize : Nat} {calls : List (Call Price Id)} {s : Session Price Id}
  {allowed : Session Price Id → Call Price Id → Prop}

theorem run_recorded (apart : ∀ {s call}, Recorded s → allowed s call → Unshared s call)
    (run : Run (Guarded Step allowed) (.create layout poolSize) calls s) : Recorded s :=
  run_invariant Recorded (fun step rec => step_recorded step.1 (apart rec step.2) rec) run
    (create_recorded layout poolSize)

theorem run_resting {keep : Resting Price Id → Prop}
    (traded : ∀ {l m : LiveBook Price Id} {t : Trade Price Id}, l.matchHead = some (t, m) →
      (∀ r ∈ l.all, keep r) → ∀ r ∈ m.all, keep r)
    (apart : ∀ {s call}, Recorded s → allowed s call → Unshared s call)
    (added : ∀ s stamp id symbol price quantity isBuy,
      allowed s (.addOrder id symbol price quantity isBuy) →
        keep ⟨stamp, .create id symbol price quantity isBuy⟩)
    (run : Run (Guarded Step allowed) (.create layout poolSize) calls s) :
    ∀ r ∈ s.book.live.all, keep r := by
  induction run with
  | nil =>
    intro r member
    simp [Session.create, OrderBook.create, OrderBook.live, LiveBook.all] at member
  | @snoc t u calls call before last ih =>
    apply step_resting traded last.1 (run_recorded apart before) _ ih
    intro stamp id symbol price quantity isBuy same
    exact added t stamp id symbol price quantity isBuy (same ▸ last.2)

theorem fresh_run_history {bound : Int}
    (run : Run (Guarded Step (Fresh bound)) (.create layout poolSize) calls s) : History bound s :=
  run_invariant (History bound) (fun step history => step_history step.1 step.2 history) run
    (create_history bound layout poolSize)

end Reached

/-- The representation invariant in the words of the fields. The stamp of a node
    is its place in the history, so ties are compared by arrival. -/
structure Representation (s : Session Price Id) : Prop where
  entry : ∀ id it, s.book.idLookup id = some it ↔
    ∃ side, ∃ n ∈ s.book.side side, n.it = it ∧
      ∃ o, s.book.pool.deref n.order = some o ∧ o.orderId = id ∧ o.isBuy = side
  oneEntry : ∀ m ∈ s.book.nodes, ∀ n ∈ s.book.nodes, ∀ o p,
    s.book.pool.deref m.order = some o → s.book.pool.deref n.order = some p →
      o.orderId = p.orderId → m = n
  ownKey : ∀ n ∈ s.book.nodes, ∃ o, s.book.pool.deref n.order = some o ∧ o.price = n.key
  buyOrder : s.book.buyOrders.Pairwise fun m n =>
    n.key < m.key ∨ (m.key = n.key ∧ m.it < n.it)
  sellOrder : s.book.sellOrders.Pairwise fun m n =>
    m.key < n.key ∨ (m.key = n.key ∧ m.it < n.it)
  arrival : s.placed.Pairwise (fun p q => p.stamp < q.stamp) ∧
    ∀ n ∈ s.book.nodes, ∃ p ∈ s.placed, p.stamp = n.it ∧
      ∃ o, s.book.pool.deref n.order = some o ∧ SameTerms o p.order
  usedSlots : ∀ i, s.book.pool.inUse[i]? = some true ↔
    ∃ n ∈ s.book.nodes, n.order = s.book.pool.layout.addr i
  ownSlot : (s.book.nodes.map fun n => s.book.pool.layout.index n.order).Nodup

omit [DecidableEq Id] in
theorem Recorded.representation {s : Session Price Id} (rec : Recorded s) : Representation s where
  entry := by
    intro id it
    constructor
    · intro entry
      obtain ⟨n, member, same, o, held, named⟩ := rec.well.leads id it entry
      obtain ⟨side, inside⟩ := OrderBook.mem_nodes.mp member
      obtain ⟨p, held', _, flag⟩ := rec.well.holds side n inside
      rw [held] at held'
      cases held'
      exact ⟨side, n, inside, same, o, held, named, flag⟩
    · rintro ⟨side, n, inside, same, o, held, named, _⟩
      rw [← named, ← same]
      exact rec.well.indexed n (OrderBook.side_subset inside) o held
  oneEntry := by
    intro m hm n hn o p left right same
    have first := rec.well.indexed m hm o left
    rw [same, rec.well.indexed n hn p right] at first
    exact rec.well.node_eq hm hn (Option.some.inj first).symm
  ownKey := by
    intro n member
    obtain ⟨o, held, _, price⟩ := rec.well.resting_some member
    exact ⟨o, held, price⟩
  buyOrder := (rec.well.queued true).imp fun ahead => by simpa [NodeAhead, Better] using ahead
  sellOrder := (rec.well.queued false).imp fun ahead => by simpa [NodeAhead, Better] using ahead
  arrival := by
    refine ⟨rec.stamps, ?_⟩
    intro n member
    obtain ⟨o, held, _⟩ := rec.well.resting_some member
    obtain ⟨p, placed, stamp, terms⟩ :=
      rec.came ⟨n.it, o⟩ (rec.well.mem_live_all.mpr ⟨n, member, rfl, held⟩)
    exact ⟨p, placed, stamp, o, held, terms⟩
  usedSlots := by
    intro i
    rw [rec.well.owns.marked i, List.mem_map]
  ownSlot := by
    have pointers : (s.book.nodes.map Node.order).Nodup := rec.well.owns.distinct
    have indices : ((s.book.nodes.map Node.order).map s.book.pool.layout.index).Nodup := by
      refine List.Nodup.map_on ?_ pointers
      intro p hp q hq same
      by_contra differ
      exact rec.well.owns.index_ne hp hq differ same
    rw [List.map_map] at indices
    exact indices

def Session.attempt (allowed : Session Price Id → Call Price Id → Prop)
    [∀ s call, Decidable (allowed s call)] (fuel : Nat) (s : Session Price Id)
    (call : Call Price Id) : Option (Session Price Id) :=
  if allowed s call then
    match call with
    | .addOrder id symbol price quantity isBuy =>
      let book := s.book.addOrder id symbol price quantity isBuy
      let order : Order Price Id := .create id symbol price quantity isBuy
      match s.book.pool.firstFree with
      | some _ => some { s with book, placed := s.placed ++ [⟨s.book.nextNode, order⟩] }
      | none => some { s with book, refused := s.refused ++ [order] }
    | .removeOrder id => (s.book.removeOrder id).toOption.map fun book => { s with book }
    | .matchOrders => (s.book.matchOrders fuel).toOption.map fun (ts, book) =>
        { s with book, trades := s.trades ++ ts }
  else none

theorem attempt_step {allowed : Session Price Id → Call Price Id → Prop}
    [∀ s call, Decidable (allowed s call)] {fuel : Nat} {s t : Session Price Id}
    {call : Call Price Id} (done : s.attempt allowed fuel call = some t) :
    Guarded Step allowed s call t := by
  unfold Session.attempt at done
  split at done
  · rename_i permitted
    refine ⟨?_, permitted⟩
    split at done
    · split at done
      · rename_i free
        cases done
        exact .accepted free _ _ _ _ _
      · rename_i full
        cases done
        exact .refused full _ _ _ _ _
    · rename_i id
      cases removed : s.book.removeOrder id with
      | error e => simp [removed, Except.toOption] at done
      | ok c =>
        simp only [removed, Except.toOption, Option.map_some, Option.some.injEq] at done
        exact done ▸ .removeOrder removed
    · cases matched : s.book.matchOrders fuel with
      | error e => simp [matched, Except.toOption] at done
      | ok result =>
        obtain ⟨ts, c⟩ := result
        simp only [matched, Except.toOption, Option.map_some, Option.some.injEq] at done
        exact done ▸ .matchOrders matched
  · cases done

/-- Whatever is called, the four structures of the book agree in every state. -/
theorem representation_invariant {layout : Layout} {poolSize : Nat}
    {calls : List (Call Price Id)} {s : Session Price Id}
    (run : Run (Guarded Step Admissible) (.create layout poolSize) calls s) : Representation s :=
  (run_recorded (fun _ allowed => allowed.unshared) run).representation

theorem representation_invariant_crossing : ∃ s : Session Int Nat,
    Run (Guarded Step Admissible) (.create ⟨4096, 64, by decide⟩ 3)
      [.addOrder 1 "AAPL" 101 40 false, .addOrder 2 "AAPL" 101 60 false,
       .addOrder 3 "AAPL" 102 50 true, .matchOrders, .removeOrder 1] s ∧
      s.book.pool.inUse = [false, true, false] ∧ Representation s := by
  have done : ∃ s, replay (Session.attempt Admissible 4)
      (.create ⟨4096, 64, by decide⟩ 3 : Session Int Nat)
      [.addOrder 1 "AAPL" 101 40 false, .addOrder 2 "AAPL" 101 60 false,
       .addOrder 3 "AAPL" 102 50 true, .matchOrders, .removeOrder 1] = some s ∧
      s.book.pool.inUse = [false, true, false] := ⟨_, rfl, rfl⟩
  obtain ⟨s, done, slots⟩ := done
  have run := run_of_replay attempt_step done
  exact ⟨s, run, slots, representation_invariant run⟩

end Phase4
