import TradingSystems.Library.Extraction
import TradingSystems.Library.Newest
import TradingSystems.Phase5.OrderBook

/- The optimised order book: a pool of fixed size that is filled once and then overwritten
   from its oldest order on. Counters are signed, and going past the largest int is
   undefined; for a comparison with a size they are converted to unsigned numbers. -/
namespace Phase5
open Newest
open Extraction (intMax)

structure OptimizedOrderBook (Price Id : Type) where
  orderPool : List (Order Price Id)
  orderCounter : Int
  oldestOrder : Int
  size : Nat

inductive Fault where
  | outOfBounds
  | signedOverflow
  deriving DecidableEq, Repr

def toSize (n : Int) : Nat := (n % 2 ^ 64).toNat

def increment (n : Int) : Except Fault Int :=
  if n < intMax then .ok (n + 1) else .error .signedOverflow

variable {Price Id : Type}

namespace OptimizedOrderBook

def create (size : Option Nat) : OptimizedOrderBook Price Id := ⟨[], 0, 0, size.getD 0⟩

/-- There is no room left, so the next order takes the place of the oldest. -/
def Full (b : OptimizedOrderBook Price Id) : Prop := ¬ toSize b.orderCounter < b.size

instance (b : OptimizedOrderBook Price Id) : Decidable b.Full := inferInstanceAs (Decidable (¬ _))

def handleOrder (b : OptimizedOrderBook Price Id) (o : Order Price Id) :
    Except Fault (OptimizedOrderBook Price Id) :=
  if toSize b.orderCounter < b.size then do
    let orderCounter ← increment b.orderCounter
    return { b with orderCounter, orderPool := b.orderPool ++ [o] }
  else if toSize b.oldestOrder < b.orderPool.length then do
    let orderPool := b.orderPool.set (toSize b.oldestOrder) o
    let oldestOrder ← increment b.oldestOrder
    return { b with
      orderPool, oldestOrder := if toSize oldestOrder = b.size then 0 else oldestOrder }
  else .error .outOfBounds

def handleOrders (b : OptimizedOrderBook Price Id) (orders : List (Order Price Id)) :
    Except Fault (OptimizedOrderBook Price Id) :=
  orders.foldlM handleOrder b

def processFrom (b : OptimizedOrderBook Price Id) (orders : List (Order Price Id)) (i : Nat) :
    Except Fault (OptimizedOrderBook Price Id) :=
  if first : i < orders.length then do
    let b ← b.handleOrder orders[i]
    let b ← if second : i + 1 < orders.length then b.handleOrder orders[i + 1] else pure b
    b.processFrom orders (i + 2)
  else return b
termination_by orders.length - i

def processOrders (b : OptimizedOrderBook Price Id) (orders : List (Order Price Id)) :
    Except Fault (OptimizedOrderBook Price Id) := b.processFrom orders 0

end OptimizedOrderBook

structure KeepsNewest (poolSize : Nat) (received : List (Order Price Id))
    (b : OptimizedOrderBook Price Id) : Prop where
  held : b.orderPool.length = min received.length poolSize
  counter : b.orderCounter = min received.length poolSize
  inside : 0 ≤ b.oldestOrder ∧ b.oldestOrder < poolSize
  window : b.orderPool.rotate b.oldestOrder.toNat = newest poolSize received

structure Ring (poolSize : Nat) (received : List (Order Price Id))
    (b : OptimizedOrderBook Price Id) : Prop extends KeepsNewest poolSize received b where
  size : b.size = poolSize
  filling : received.length < poolSize → b.oldestOrder = 0

section Calls
variable {b : OptimizedOrderBook Price Id} {poolSize : Nat}
  {received orders : List (Order Price Id)}

theorem process_from_eq (b : OptimizedOrderBook Price Id) (orders : List (Order Price Id))
    (i : Nat) : b.processFrom orders i = b.handleOrders (orders.drop i) := by
  fun_induction OptimizedOrderBook.processFrom b orders i with
  | case1 b i first ih =>
    rw [List.drop_eq_getElem_cons first, OptimizedOrderBook.handleOrders, List.foldlM_cons]
    apply bind_congr
    intro c
    by_cases second : i + 1 < orders.length
    · rw [dif_pos second, List.drop_eq_getElem_cons second, List.foldlM_cons]
      exact bind_congr ih
    · rw [dif_neg second, List.drop_eq_nil_of_le (not_lt.mp second), pure_bind]
      dsimp only
      rw [ih, List.drop_eq_nil_of_le (by omega)]
      rfl
  | case2 b i last =>
    rw [List.drop_eq_nil_of_le (not_lt.mp last)]
    rfl

theorem process_orders_eq (b : OptimizedOrderBook Price Id) (orders : List (Order Price Id)) :
    b.processOrders orders = b.handleOrders orders := process_from_eq b orders 0

theorem process_batches_eq (b : OptimizedOrderBook Price Id)
    (batches : List (List (Order Price Id))) :
    batches.foldlM OptimizedOrderBook.processOrders b = b.handleOrders batches.flatten := by
  induction batches generalizing b with
  | nil => rfl
  | cons batch batches ih =>
    rw [List.foldlM_cons, List.flatten_cons, OptimizedOrderBook.handleOrders, List.foldlM_append,
      process_orders_eq]
    exact bind_congr ih

theorem to_size_of_range {n : Int} (nonneg : 0 ≤ n) (small : n ≤ intMax) :
    toSize n = n.toNat := by
  have low : n < 2 ^ 64 := by
    have limit : intMax < 2 ^ 64 := by decide
    omega
  rw [toSize, Int.emod_eq_of_lt nonneg low]

theorem increment_ok {n : Int} (small : n < intMax) : increment n = .ok (n + 1) := if_pos small

theorem increment_most : increment intMax = .error .signedOverflow := rfl

theorem create_ring (positive : 0 < poolSize) :
    Ring poolSize [] (.create (some poolSize) : OptimizedOrderBook Price Id) where
  held := by simp [OptimizedOrderBook.create]
  counter := by simp [OptimizedOrderBook.create]
  inside := ⟨le_rfl, Int.natCast_pos.mpr positive⟩
  window := by simp [OptimizedOrderBook.create, newest]
  size := rfl
  filling := fun _ => rfl

theorem handle_order_filling (ring : Ring poolSize received b)
    (room : received.length < poolSize) (small : received.length < intMax) (o : Order Price Id) :
    b.handleOrder o = .ok { b with
      orderCounter := b.orderCounter + 1, orderPool := b.orderPool ++ [o] } := by
  have counter : b.orderCounter = received.length := by
    rw [ring.counter, min_eq_left (by exact_mod_cast room.le)]
  have fits : toSize b.orderCounter < b.size := by
    rw [to_size_of_range (by omega) (by omega), ring.size]
    omega
  rw [OptimizedOrderBook.handleOrder, if_pos fits, increment_ok (by omega)]
  rfl

theorem handle_order_full (ring : Ring poolSize received b) (full : poolSize ≤ received.length)
    (small : poolSize ≤ intMax) (o : Order Price Id) :
    b.handleOrder o = .ok { b with
      orderPool := b.orderPool.set b.oldestOrder.toNat o
      oldestOrder := if b.oldestOrder + 1 = poolSize then 0 else b.oldestOrder + 1 } := by
  have counter : b.orderCounter = poolSize := by
    rw [ring.counter, min_eq_right (by exact_mod_cast full)]
  have stuffed : ¬ toSize b.orderCounter < b.size := by
    rw [to_size_of_range (by omega) (by omega), ring.size]
    omega
  obtain ⟨low, high⟩ := ring.inside
  have held : b.orderPool.length = poolSize := by
    rw [ring.held, min_eq_right full]
  have inside : toSize b.oldestOrder = b.oldestOrder.toNat := to_size_of_range low (by omega)
  have within : b.oldestOrder.toNat < b.orderPool.length := by omega
  have wraps : toSize (b.oldestOrder + 1) = b.size ↔ b.oldestOrder + 1 = poolSize := by
    rw [to_size_of_range (by omega) (by omega), ring.size]
    omega
  simp only [OptimizedOrderBook.handleOrder, if_neg stuffed, inside, if_pos within,
    increment_ok (show b.oldestOrder < intMax by omega), bind, Except.bind, wraps]
  rfl

theorem handle_order_ring (ring : Ring poolSize received b)
    (small : poolSize ≤ intMax ∨ received.length < intMax) (o : Order Price Id) :
    ∃ c, b.handleOrder o = .ok c ∧ Ring poolSize (received ++ [o]) c := by
  obtain ⟨low, high⟩ := ring.inside
  have length : (received ++ [o]).length = received.length + 1 := by simp
  by_cases room : received.length < poolSize
  · refine ⟨_, handle_order_filling ring room (by omega) o, ?_⟩
    have start := ring.filling room
    have window := ring.window
    rw [start, Int.toNat_zero, List.rotate_zero] at window
    refine ⟨⟨?_, ?_, ring.inside, ?_⟩, ring.size, fun _ => start⟩
    · rw [List.length_append, ring.held, length, List.length_singleton]
      omega
    · dsimp only
      rw [ring.counter, length]
      omega
    · dsimp only
      rw [start, Int.toNat_zero, List.rotate_zero, newest_filling room, window]
  · have full := not_lt.mp room
    have bounded : (poolSize : Int) ≤ intMax := by omega
    have held : b.orderPool.length = poolSize := by
      rw [ring.held, min_eq_right full]
    refine ⟨_, handle_order_full ring full bounded o, ?_⟩
    have overwritten := overwrite_oldest (show b.oldestOrder.toNat < b.orderPool.length by omega) o
    rw [ring.window, ← newest_sliding (by omega) full] at overwritten
    refine ⟨⟨?_, ?_, ?_, ?_⟩, ring.size, fun more => ?_⟩
    · rw [List.length_set, ring.held, length]
      omega
    · dsimp only
      rw [ring.counter, length]
      omega
    · dsimp only
      split <;> omega
    · rw [← overwritten]
      dsimp only
      split
      · rename_i last
        have wrapped : b.oldestOrder.toNat + 1 =
            (b.orderPool.set b.oldestOrder.toNat o).length := by
          rw [List.length_set]
          omega
        rw [wrapped, rotate_wrapped]
        rfl
      · rw [Int.toNat_add low (by decide)]
        rfl
    · omega

theorem handle_orders_ring (orders : List (Order Price Id)) (ring : Ring poolSize received b)
    (small : poolSize ≤ intMax ∨ received.length + orders.length ≤ intMax) :
    ∃ c, b.handleOrders orders = .ok c ∧ Ring poolSize (received ++ orders) c := by
  induction orders generalizing received b with
  | nil => exact ⟨b, rfl, by simpa using ring⟩
  | cons o orders ih =>
    rw [List.length_cons] at small
    obtain ⟨c, handled, next⟩ := handle_order_ring ring (by omega) o
    have length : (received ++ [o]).length = received.length + 1 := by simp
    obtain ⟨d, rest, last⟩ := ih next (by omega)
    refine ⟨d, ?_, by simpa using last⟩
    rw [OptimizedOrderBook.handleOrders, List.foldlM_cons, handled]
    exact rest

/-- However the orders come in batches, they are handled one by one, the pool holds the
    newest of them in a ring, and a full ring is overwritten from its oldest on. -/
theorem keeps_newest (positive : 1 ≤ poolSize) (small : poolSize ≤ intMax)
    (batches : List (List (Order Price Id))) :
    ∃ b, batches.foldlM OptimizedOrderBook.processOrders (.create (some poolSize)) = .ok b ∧
      (OptimizedOrderBook.create (some poolSize)).handleOrders batches.flatten = .ok b ∧
      KeepsNewest poolSize batches.flatten b ∧
      (poolSize ≤ batches.flatten.length → ∀ o, ∃ c, b.handleOrder o = .ok c ∧
        c.orderPool = b.orderPool.set b.oldestOrder.toNat o) := by
  obtain ⟨b, handled, ring⟩ := handle_orders_ring batches.flatten (create_ring positive)
    (Or.inl small)
  rw [List.nil_append] at ring
  refine ⟨b, ?_, handled, ring.toKeepsNewest, fun full o => ?_⟩
  · rw [process_batches_eq, handled]
  · exact ⟨_, handle_order_full ring full small o, rfl⟩

theorem keeps_newest_three : ∃ b : OptimizedOrderBook Int Nat,
    [[⟨1, 50, 10, true⟩], [], [⟨2, 51, 10, true⟩, ⟨3, 52, 10, true⟩, ⟨4, 53, 10, true⟩,
      ⟨5, 54, 10, true⟩]].foldlM OptimizedOrderBook.processOrders (.create (some 3)) = .ok b ∧
      b.orderPool.map Order.id = [4, 5, 3] ∧ KeepsNewest 3 [⟨1, 50, 10, true⟩,
        ⟨2, 51, 10, true⟩, ⟨3, 52, 10, true⟩, ⟨4, 53, 10, true⟩, ⟨5, 54, 10, true⟩] b := by
  obtain ⟨b, processed, handled, newest, _⟩ := keeps_newest (show 1 ≤ 3 by decide) (by decide)
    [[(⟨1, 50, 10, true⟩ : Order Int Nat)], [], [⟨2, 51, 10, true⟩, ⟨3, 52, 10, true⟩,
      ⟨4, 53, 10, true⟩, ⟨5, 54, 10, true⟩]]
  refine ⟨b, processed, ?_, newest⟩
  cases handled
  rfl

/-- Each call is made in a state that is defined, and where it overwrites an order the
    index is within the pool. -/
def NeverOutside (b : OptimizedOrderBook Price Id) (orders : List (Order Price Id)) : Prop :=
  ∀ before o after, orders = before ++ o :: after → ∃ c, b.handleOrders before = .ok c ∧
    (c.Full → toSize c.oldestOrder < c.orderPool.length)

theorem ring_inside (ring : Ring poolSize received b)
    (small : poolSize ≤ intMax ∨ received.length ≤ intMax) (full : b.Full) :
    toSize b.oldestOrder < b.orderPool.length := by
  obtain ⟨low, high⟩ := ring.inside
  have counter := ring.counter
  have stuffed : poolSize ≤ received.length := by
    by_contra room
    apply full
    rw [to_size_of_range (by omega) (by omega), ring.size]
    omega
  rw [to_size_of_range low (by omega), ring.held]
  omega

theorem handle_order_overflow (ring : Ring poolSize received b) (large : intMax < poolSize)
    (most : received.length = intMax) (o : Order Price Id) :
    b.handleOrder o = .error .signedOverflow := by
  have counter : b.orderCounter = intMax := by
    rw [ring.counter]
    omega
  have fits : toSize b.orderCounter < b.size := by
    rw [to_size_of_range (by rw [counter]; decide) counter.le, ring.size, counter]
    omega
  rw [OptimizedOrderBook.handleOrder, if_pos fits, counter, increment_most]
  rfl

theorem handle_orders_overflow (ring : Ring poolSize [] b) (large : intMax < poolSize)
    (most : orders.length = intMax) (o : Order Price Id) (c : OptimizedOrderBook Price Id) :
    b.handleOrders (orders ++ [o]) ≠ .ok c := by
  obtain ⟨d, handled, next⟩ := handle_orders_ring orders ring
    (Or.inr (by rw [List.length_nil]; omega))
  rw [List.nil_append] at next
  intro done
  rw [OptimizedOrderBook.handleOrders, List.foldlM_append] at done
  rw [OptimizedOrderBook.handleOrders] at handled
  simp only [handled, bind, Except.bind, List.foldlM_cons,
    handle_order_overflow next large most o] at done
  cases done

/-- The pool is never indexed outside exactly when no order comes, or when the size is
    positive and no call follows one that takes the counter past the largest int. -/
theorem never_outside_iff (size : Option Nat) (orders : List (Order Price Id)) :
    NeverOutside (.create size) orders ↔ orders = [] ∨
      (0 < size.getD 0 ∧ (size.getD 0 ≤ intMax ∨ orders.length ≤ intMax + 1)) := by
  constructor
  · intro never
    cases orders with
    | nil => exact Or.inl rfl
    | cons o orders =>
      have positive : 0 < size.getD 0 := by
        obtain ⟨c, done, inside⟩ := never [] o orders rfl
        cases done
        by_contra empty
        exact Nat.not_lt_zero _ (inside fun room => empty (Nat.zero_lt_of_lt room))
      refine Or.inr ⟨positive, ?_⟩
      by_contra large
      obtain ⟨large, long⟩ := not_or.mp large
      obtain ⟨most, same⟩ := Int.eq_ofNat_of_zero_le (show 0 ≤ intMax by decide)
      generalize o :: orders = orders at never long
      have split := List.take_append_drop most orders
      have front : (orders.take most).length = most := List.length_take_of_le (by omega)
      have back : 2 ≤ (orders.drop most).length := by
        rw [List.length_drop]
        omega
      match behind : orders.drop most, back with
      | x :: y :: after, _ =>
        rw [behind] at split
        obtain ⟨c, done, _⟩ := never (orders.take most ++ [x]) y after (by simp [split])
        exact handle_orders_overflow (create_ring positive) (not_le.mp large)
          (by rw [front, same]) x c done
  · rintro (none | ⟨positive, small⟩) before o after split
    · rw [none] at split
      simp at split
    · have length := congrArg List.length split
      rw [List.length_append, List.length_cons] at length
      obtain ⟨c, handled, ring⟩ := handle_orders_ring before (create_ring positive)
        (by rw [List.length_nil]; omega)
      rw [List.nil_append] at ring
      exact ⟨c, handled, ring_inside ring (by omega)⟩

/-- The default book has no room at all, and its first order is written nowhere. -/
theorem default_outside : ¬ NeverOutside (.create none) [(⟨1, 50, 10, true⟩ : Order Int Nat)] ∧
    (OptimizedOrderBook.create none).handleOrder (⟨1, 50, 10, true⟩ : Order Int Nat) =
      .error .outOfBounds := by
  refine ⟨fun never => ?_, rfl⟩
  obtain ⟨c, done, inside⟩ := never [] _ [] rfl
  cases done
  exact absurd (inside (by decide)) (by decide)

end Calls
end Phase5
