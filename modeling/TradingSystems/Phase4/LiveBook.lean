import TradingSystems.Phase4.OrderBook
import TradingSystems.Library.StableInsert

/- What the book is for: two queues of orders in price-time priority. There are no
   slots, pointers or iterators here. An order is added behind its equals, taken
   out by identifier, or filled at the head of its queue. -/
namespace Phase4

/-- An order at rest, with the moment of its arrival. -/
structure Resting (Price Id : Type) where
  stamp : Nat
  order : Order Price Id

structure LiveBook (Price Id : Type) where
  bids : List (Resting Price Id)
  asks : List (Resting Price Id)

variable {Price Id : Type}

def Resting.fill (r : Resting Price Id) (n : Int) : Resting Price Id :=
  { r with order := r.order.updateFilled n }

@[simp] theorem fill_stamp (r : Resting Price Id) (n : Int) : (r.fill n).stamp = r.stamp := rfl
@[simp] theorem fill_order (r : Resting Price Id) (n : Int) :
    (r.fill n).order = r.order.updateFilled n := rfl

/-- A filled head leaves its queue; any other head stays in place. -/
def settle (r : Resting Price Id) (rest : List (Resting Price Id)) : List (Resting Price Id) :=
  if r.order.status = .filled then rest else r :: rest

theorem mem_settle {r x : Resting Price Id} {rest : List (Resting Price Id)}
    (member : x ∈ settle r rest) : x = r ∨ x ∈ rest := by
  unfold settle at member
  split at member
  · exact Or.inr member
  · exact List.mem_cons.mp member

theorem settle_of_open {r : Resting Price Id} {rest : List (Resting Price Id)}
    (unfilled : r.order.status ≠ .filled) : settle r rest = r :: rest := if_neg unfilled

theorem settle_of_filled {r : Resting Price Id} {rest : List (Resting Price Id)}
    (filled : r.order.status = .filled) : settle r rest = rest := if_pos filled

theorem settle_length (r : Resting Price Id) (rest : List (Resting Price Id)) :
    (settle r rest).length ≤ rest.length + 1 := by
  unfold settle
  split <;> simp

namespace LiveBook

def all (l : LiveBook Price Id) : List (Resting Price Id) := l.bids ++ l.asks

def side (l : LiveBook Price Id) : Bool → List (Resting Price Id)
  | true => l.bids
  | false => l.asks

def ids (l : LiveBook Price Id) : List Id := l.all.map (fun r => r.order.orderId)

/-- The order with this identifier is at rest. -/
def Rests (l : LiveBook Price Id) (id : Id) : Prop := id ∈ l.ids

instance [DecidableEq Id] (l : LiveBook Price Id) (id : Id) : Decidable (l.Rests id) :=
  inferInstanceAs (Decidable (id ∈ l.ids))

@[simp] theorem side_true (l : LiveBook Price Id) : l.side true = l.bids := rfl
@[simp] theorem side_false (l : LiveBook Price Id) : l.side false = l.asks := rfl

theorem mem_all {l : LiveBook Price Id} {r : Resting Price Id} :
    r ∈ l.all ↔ ∃ s, r ∈ l.side s := by
  simp [all, or_comm]

theorem rests_iff {l : LiveBook Price Id} {id : Id} :
    l.Rests id ↔ ∃ r ∈ l.all, r.order.orderId = id := by
  simp [Rests, ids]

def drop [DecidableEq Id] (l : LiveBook Price Id) (id : Id) : LiveBook Price Id :=
  ⟨l.bids.filter (fun r => r.order.orderId ≠ id), l.asks.filter (fun r => r.order.orderId ≠ id)⟩

theorem mem_drop [DecidableEq Id] {l : LiveBook Price Id} {id : Id} {r : Resting Price Id} :
    r ∈ (l.drop id).all ↔ r ∈ l.all ∧ r.order.orderId ≠ id := by
  simp only [drop, all, List.mem_append, List.mem_filter, decide_eq_true_eq]
  tauto

/-- The book without the order that came at this moment. -/
def without (l : LiveBook Price Id) (stamp : Nat) : LiveBook Price Id :=
  ⟨l.bids.filter (fun r => r.stamp ≠ stamp), l.asks.filter (fun r => r.stamp ≠ stamp)⟩

variable [LinearOrder Price]

/-- Strictly ahead in the queue: better price, or the same price and earlier. -/
def Ahead (isBuy : Bool) (r q : Resting Price Id) : Prop :=
  Better isBuy r.order.price q.order.price ∨
    (r.order.price = q.order.price ∧ r.stamp < q.stamp)

def queueIn (r : Resting Price Id) (queue : List (Resting Price Id)) : List (Resting Price Id) :=
  queue.orderedInsert (fun x y => Better r.order.isBuy x.order.price y.order.price) r

def add (l : LiveBook Price Id) (r : Resting Price Id) : LiveBook Price Id :=
  if r.order.isBuy then { l with bids := queueIn r l.bids }
  else { l with asks := queueIn r l.asks }

/-- The trade that two heads make, and the book it leaves. -/
def matchHead (l : LiveBook Price Id) : Option (Trade Price Id × LiveBook Price Id) :=
  match l.bids, l.asks with
  | bid :: bids, ask :: asks =>
    if bid.order.price < ask.order.price then none
    else
      let q := min bid.order.quantity ask.order.quantity
      some (⟨bid.order.orderId, ask.order.orderId, ask.order.price, q⟩,
            ⟨settle (bid.fill q) bids, settle (ask.fill q) asks⟩)
  | _, _ => none

/-- A sequence of trades at the heads. -/
inductive Matches : LiveBook Price Id → List (Trade Price Id) → LiveBook Price Id → Prop where
  | done (l : LiveBook Price Id) : Matches l [] l
  | trade {l m k : LiveBook Price Id} {t : Trade Price Id} {ts : List (Trade Price Id)}
      (head : l.matchHead = some (t, m)) (tail : Matches m ts k) : Matches l (t :: ts) k

/-- What one trade at the heads does, as data. -/
structure HeadTrade (l : LiveBook Price Id) (t : Trade Price Id) (m : LiveBook Price Id)
    (bid ask : Resting Price Id) (bids asks : List (Resting Price Id)) : Prop where
  bidHead : l.bids = bid :: bids
  askHead : l.asks = ask :: asks
  crosses : ask.order.price ≤ bid.order.price
  trade : t = ⟨bid.order.orderId, ask.order.orderId, ask.order.price,
    min bid.order.quantity ask.order.quantity⟩
  bidsAfter : m.bids = settle (bid.fill t.quantity) bids
  asksAfter : m.asks = settle (ask.fill t.quantity) asks

theorem match_head_cases {l m : LiveBook Price Id} {t : Trade Price Id}
    (head : l.matchHead = some (t, m)) :
    ∃ bid ask bids asks, HeadTrade l t m bid ask bids asks := by
  unfold matchHead at head
  split at head
  · rename_i bid bids ask asks hb ha
    split at head
    · cases head
    · rename_i crosses
      cases head
      exact ⟨bid, ask, bids, asks, hb, ha, not_lt.mp crosses, rfl, rfl, rfl⟩
  · cases head

section OneTrade
variable {l m : LiveBook Price Id} {t : Trade Price Id} {bid ask : Resting Price Id}
  {bids asks : List (Resting Price Id)}

theorem HeadTrade.mem_before (step : HeadTrade l t m bid ask bids asks)
    {r : Resting Price Id} : r ∈ l.all ↔ r = bid ∨ r = ask ∨ r ∈ bids ++ asks := by
  simp only [all, step.bidHead, step.askHead, List.mem_append, List.mem_cons]
  tauto

theorem HeadTrade.mem_after (step : HeadTrade l t m bid ask bids asks)
    {r : Resting Price Id} : r ∈ m.all ↔
      (r = bid.fill t.quantity ∧ (bid.order.updateFilled t.quantity).status ≠ .filled) ∨
      (r = ask.fill t.quantity ∧ (ask.order.updateFilled t.quantity).status ≠ .filled) ∨
      r ∈ bids ++ asks := by
  simp only [all, step.bidsAfter, step.asksAfter, settle, List.mem_append, fill_order]
  by_cases first : (bid.order.updateFilled t.quantity).status = .filled <;>
    by_cases second : (ask.order.updateFilled t.quantity).status = .filled <;>
    simp [first, second] <;> tauto

theorem HeadTrade.apart_by {Key : Type} (key : Resting Price Id → Key)
    (step : HeadTrade l t m bid ask bids asks) (distinct : (l.all.map key).Nodup) :
    key bid ≠ key ask ∧ ∀ r ∈ bids ++ asks, key r ≠ key bid ∧ key r ≠ key ask := by
  simp only [all, step.bidHead, step.askHead, List.map_append,
    List.map_cons, List.cons_append, List.nodup_cons, List.nodup_append, List.mem_append,
    List.mem_cons, List.mem_map] at distinct
  obtain ⟨fresh, _, ⟨notAsk, _⟩, across⟩ := distinct
  refine ⟨fun same => fresh (Or.inr (Or.inl same)), ?_⟩
  intro r member
  rcases List.mem_append.mp member with buy | sell
  · exact ⟨fun same => fresh (Or.inl ⟨r, buy, same⟩),
      fun same => across _ ⟨r, buy, rfl⟩ _ (Or.inl rfl) same⟩
  · exact ⟨fun same => fresh (Or.inr (Or.inr ⟨r, sell, same⟩)), fun same => notAsk ⟨r, sell, same⟩⟩

theorem HeadTrade.apart (step : HeadTrade l t m bid ask bids asks) (distinct : l.ids.Nodup) :
    bid.order.orderId ≠ ask.order.orderId ∧
    ∀ r ∈ bids ++ asks, r.order.orderId ≠ bid.order.orderId ∧
      r.order.orderId ≠ ask.order.orderId :=
  step.apart_by (fun r => r.order.orderId) distinct

section Gone
variable {Key : Type} {key : Resting Price Id → Key} (kept : ∀ r n, key (r.fill n) = key r)
  (step : HeadTrade l t m bid ask bids asks) (distinct : (l.all.map key).Nodup)
include kept step distinct

theorem HeadTrade.bid_gone (filled : (bid.order.updateFilled t.quantity).status = .filled) :
    ∀ r ∈ m.all, key r ≠ key bid := by
  obtain ⟨differ, others⟩ := step.apart_by key distinct
  intro r member same
  rcases step.mem_after.mp member with ⟨_, unfilled⟩ | ⟨ask_left, _⟩ | other
  · exact unfilled filled
  · subst ask_left
    exact differ (same.symm.trans (kept ask _))
  · exact (others r other).1 same

theorem HeadTrade.ask_gone (filled : (ask.order.updateFilled t.quantity).status = .filled) :
    ∀ r ∈ m.all, key r ≠ key ask := by
  obtain ⟨differ, others⟩ := step.apart_by key distinct
  intro r member same
  rcases step.mem_after.mp member with ⟨bid_left, _⟩ | ⟨_, unfilled⟩ | other
  · subst bid_left
    exact differ ((kept bid _).symm.trans same)
  · exact unfilled filled
  · exact (others r other).2 same

end Gone

theorem HeadTrade.stays (step : HeadTrade l t m bid ask bids asks) {r : Resting Price Id}
    (member : r ∈ l.all) :
    (∃ q ∈ m.all, q.stamp = r.stamp ∧ q.order.orderId = r.order.orderId) ∨
      (r = bid ∧ (bid.order.updateFilled t.quantity).status = .filled) ∨
      (r = ask ∧ (ask.order.updateFilled t.quantity).status = .filled) := by
  rcases step.mem_before.mp member with same | same | other
  · by_cases filled : (bid.order.updateFilled t.quantity).status = .filled
    · exact Or.inr (Or.inl ⟨same, filled⟩)
    · subst same
      exact Or.inl ⟨_, step.mem_after.mpr (Or.inl ⟨rfl, filled⟩), rfl, rfl⟩
  · by_cases filled : (ask.order.updateFilled t.quantity).status = .filled
    · exact Or.inr (Or.inr ⟨same, filled⟩)
    · subst same
      exact Or.inl ⟨_, step.mem_after.mpr (Or.inr (Or.inl ⟨rfl, filled⟩)), rfl, rfl⟩
  · exact Or.inl ⟨r, step.mem_after.mpr (Or.inr (Or.inr other)), rfl, rfl⟩

theorem HeadTrade.quantity (step : HeadTrade l t m bid ask bids asks) :
    t.quantity = min bid.order.quantity ask.order.quantity := by rw [step.trade]

theorem HeadTrade.shrinks (step : HeadTrade l t m bid ask bids asks)
    (someone : (bid.order.updateFilled t.quantity).status = .filled ∨
      (ask.order.updateFilled t.quantity).status = .filled) : m.all.length < l.all.length := by
  have bidsLeft := settle_length (bid.fill t.quantity) bids
  have asksLeft := settle_length (ask.fill t.quantity) asks
  simp only [all, step.bidsAfter, step.asksAfter, step.bidHead, step.askHead,
    List.length_append, List.length_cons]
  rcases someone with filled | filled
  · rw [settle_of_filled filled]
    omega
  · rw [settle_of_filled (r := ask.fill t.quantity) filled]
    omega

end OneTrade

theorem match_head_none_iff {l : LiveBook Price Id} :
    l.matchHead = none ↔ ∀ bid ask bids asks, l.bids = bid :: bids → l.asks = ask :: asks →
      bid.order.price < ask.order.price := by
  constructor
  · intro stopped bid ask bids asks hb ha
    by_contra crosses
    simp [matchHead, hb, ha, crosses] at stopped
  · intro uncrossed
    unfold matchHead
    split
    · rename_i bid bids ask asks hb ha
      simp [uncrossed bid ask bids asks hb ha]
    · rfl

theorem apart_of_stopped {l : LiveBook Price Id} (queued : ∀ s, (l.side s).Pairwise (Ahead s))
    (stopped : l.matchHead = none) {r q : Resting Price Id} (hr : r ∈ l.bids) (hq : q ∈ l.asks) :
    r.order.price < q.order.price := by
  obtain ⟨bid, bids, hb⟩ := List.exists_cons_of_ne_nil (List.ne_nil_of_mem hr)
  obtain ⟨ask, asks, ha⟩ := List.exists_cons_of_ne_nil (List.ne_nil_of_mem hq)
  have heads := match_head_none_iff.mp stopped bid ask bids asks hb ha
  have bidFirst := queued true
  have askFirst := queued false
  rw [side_true, hb] at bidFirst
  rw [side_false, ha] at askFirst
  have below : r.order.price ≤ bid.order.price := by
    rcases List.mem_cons.mp (hb ▸ hr) with same | behind
    · rw [same]
    · rcases (List.pairwise_cons.mp bidFirst).1 r behind with better | tie
      · exact le_of_lt (by simpa [Better] using better)
      · exact tie.1.ge
  have above : ask.order.price ≤ q.order.price := by
    rcases List.mem_cons.mp (ha ▸ hq) with same | behind
    · rw [same]
    · rcases (List.pairwise_cons.mp askFirst).1 q behind with better | tie
      · exact le_of_lt (by simpa [Better] using better)
      · exact tie.1.le
  exact (below.trans_lt heads).trans_le above

theorem matches_nil {l k : LiveBook Price Id} (run : Matches l [] k) : k = l := by
  cases run
  rfl

theorem matches_stopped {l k : LiveBook Price Id} {ts : List (Trade Price Id)}
    (run : Matches l ts k) (stopped : l.matchHead = none) : ts = [] := by
  cases run with
  | done => rfl
  | trade head => rw [stopped] at head; cases head

theorem mem_add {l : LiveBook Price Id} {r q : Resting Price Id} :
    q ∈ (l.add r).all ↔ q = r ∨ q ∈ l.all := by
  simp only [add, all, queueIn]
  split <;> simp only [List.mem_append, List.mem_orderedInsert] <;> tauto

theorem head_trade_came {l m : LiveBook Price Id} {t : Trade Price Id}
    (head : l.matchHead = some (t, m)) {s : Bool} {r : Resting Price Id} (member : r ∈ m.side s) :
    ∃ q ∈ l.side s, q.stamp = r.stamp ∧ SameTerms r.order q.order := by
  obtain ⟨bid, ask, bids, asks, step⟩ := match_head_cases head
  cases s
  · simp only [side_false, step.asksAfter] at member
    simp only [side_false, step.askHead, List.mem_cons]
    rcases mem_settle member with same | rest
    · exact ⟨ask, Or.inl rfl, by rw [same]; rfl, by rw [same]; exact update_filled_same_terms _ _⟩
    · exact ⟨r, Or.inr rest, rfl, SameTerms.refl _⟩
  · simp only [side_true, step.bidsAfter] at member
    simp only [side_true, step.bidHead, List.mem_cons]
    rcases mem_settle member with same | rest
    · exact ⟨bid, Or.inl rfl, by rw [same]; rfl, by rw [same]; exact update_filled_same_terms _ _⟩
    · exact ⟨r, Or.inr rest, rfl, SameTerms.refl _⟩

theorem matches_side_came {l k : LiveBook Price Id} {ts : List (Trade Price Id)}
    (run : Matches l ts k) {s : Bool} {r : Resting Price Id} (member : r ∈ k.side s) :
    ∃ q ∈ l.side s, q.stamp = r.stamp ∧ SameTerms r.order q.order := by
  induction run with
  | done => exact ⟨r, member, rfl, SameTerms.refl _⟩
  | trade head tail ih =>
    obtain ⟨q, inside, stamp, terms⟩ := ih member
    obtain ⟨p, before, stamp', terms'⟩ := head_trade_came head inside
    exact ⟨p, before, stamp'.trans stamp, terms.trans terms'⟩

theorem matches_came {l k : LiveBook Price Id} {ts : List (Trade Price Id)}
    (run : Matches l ts k) {r : Resting Price Id} (member : r ∈ k.all) :
    ∃ q ∈ l.all, q.stamp = r.stamp ∧ SameTerms r.order q.order := by
  obtain ⟨s, inside⟩ := mem_all.mp member
  obtain ⟨q, before, rest⟩ := matches_side_came run inside
  exact ⟨q, mem_all.mpr ⟨s, before⟩, rest⟩

theorem matches_keep {keep : Resting Price Id → Prop}
    (one : ∀ {l m : LiveBook Price Id} {t : Trade Price Id}, l.matchHead = some (t, m) →
      (∀ r ∈ l.all, keep r) → ∀ r ∈ m.all, keep r)
    {l k : LiveBook Price Id} {ts : List (Trade Price Id)} (run : Matches l ts k)
    (start : ∀ r ∈ l.all, keep r) : ∀ r ∈ k.all, keep r := by
  induction run with
  | done => exact start
  | trade head tail ih => exact ih (one head start)

theorem matches_split {l k : LiveBook Price Id} {ts us : List (Trade Price Id)}
    (run : Matches l (ts ++ us) k) : ∃ m, Matches l ts m ∧ Matches m us k := by
  induction ts generalizing l with
  | nil => exact ⟨l, .done l, run⟩
  | cons t ts ih =>
    cases run with
    | trade head tail =>
      obtain ⟨m, first, second⟩ := ih tail
      exact ⟨m, .trade head first, second⟩

theorem matches_append {l m k : LiveBook Price Id} {ts us : List (Trade Price Id)}
    (first : Matches l ts m) (second : Matches m us k) : Matches l (ts ++ us) k := by
  induction first with
  | done => exact second
  | trade head tail ih => exact .trade head (ih second)

/-- The loop ends if some trades make the book smaller whenever there is one to make. -/
theorem shrinking_terminates (good : LiveBook Price Id → Prop)
    (shrinks : ∀ l t m, good l → l.matchHead = some (t, m) →
      ∃ ts k, Matches l ts k ∧ k.all.length < l.all.length ∧ good k)
    {l : LiveBook Price Id} (start : good l) : ∃ ts k, Matches l ts k ∧ k.matchHead = none := by
  induction size : l.all.length using Nat.strongRecOn generalizing l with
  | ind n ih =>
    cases head : l.matchHead with
    | none => exact ⟨[], l, .done l, head⟩
    | some result =>
      obtain ⟨t, m⟩ := result
      obtain ⟨ts, k, run, smaller, next⟩ := shrinks l t m start head
      obtain ⟨us, j, rest, stopped⟩ := ih k.all.length (size ▸ smaller) next rfl
      exact ⟨ts ++ us, j, matches_append run rest, stopped⟩

theorem matches_extend {l m k : LiveBook Price Id} {ts us : List (Trade Price Id)}
    (first : Matches l ts m) (second : Matches l us k) (stopped : k.matchHead = none) :
    ∃ rest, Matches m rest k := by
  induction first generalizing us with
  | done => exact ⟨us, second⟩
  | trade head tail ih =>
    cases second with
    | done =>
      rw [stopped] at head
      cases head
    | trade head' tail' =>
      rw [head] at head'
      cases head'
      exact ih tail'

end LiveBook
end Phase4
