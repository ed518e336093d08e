import Mathlib.Algebra.Order.Ring.Int

/- Orders of the limit order book. Prices and identifiers stay generic as in the
   source; prices are taken as totally ordered. An `int` is an unbounded `Int`
   that is wrapped to 32 bits where the source adds. Signed overflow is undefined in
   the source: what is said of a sum out of range is said of the wrapped value. -/
namespace Phase4

inductive OrderStatus where
  | new
  | partiallyFilled
  | filled
  | cancelled
  deriving DecidableEq, Repr

structure Order (Price Id : Type) where
  orderId : Id
  symbol : String
  price : Price
  quantity : Int
  filledQuantity : Int
  isBuy : Bool
  status : OrderStatus
  deriving DecidableEq, Repr

def intMax : Int := 2 ^ 31 - 1

def int32 (n : Int) : Int := n.bmod (2 ^ 32)

theorem int32_of_range {n : Int} (low : -2 ^ 31 ≤ n) (high : n ≤ intMax) : int32 n = n := by
  simp only [intMax] at high
  unfold int32
  exact Int.bmod_eq_of_le (by omega) (by omega)

variable {Price Id : Type}

/-- The five-argument constructor. -/
def Order.create (id : Id) (symbol : String) (price : Price) (quantity : Int) (isBuy : Bool) :
    Order Price Id :=
  ⟨id, symbol, price, quantity, 0, isBuy, .new⟩

def Order.updateFilled (o : Order Price Id) (fillQuantity : Int) : Order Price Id :=
  let filled := int32 (o.filledQuantity + fillQuantity)
  { o with
    filledQuantity := filled
    status := if filled = 0 then .new else if filled ≥ o.quantity then .filled
      else .partiallyFilled }

def Order.cancel (o : Order Price Id) : Order Price Id := { o with status := .cancelled }

/-- The part of an order that no method changes. -/
structure SameTerms (o p : Order Price Id) : Prop where
  orderId : o.orderId = p.orderId
  symbol : o.symbol = p.symbol
  price : o.price = p.price
  quantity : o.quantity = p.quantity
  isBuy : o.isBuy = p.isBuy

section Terms
variable (o : Order Price Id) (n : Int)

@[simp] theorem update_filled_order_id : (o.updateFilled n).orderId = o.orderId := rfl
@[simp] theorem update_filled_symbol : (o.updateFilled n).symbol = o.symbol := rfl
@[simp] theorem update_filled_price : (o.updateFilled n).price = o.price := rfl
@[simp] theorem update_filled_quantity : (o.updateFilled n).quantity = o.quantity := rfl
@[simp] theorem update_filled_is_buy : (o.updateFilled n).isBuy = o.isBuy := rfl

theorem update_filled_same_terms : SameTerms (o.updateFilled n) o := ⟨rfl, rfl, rfl, rfl, rfl⟩

end Terms

theorem SameTerms.refl (o : Order Price Id) : SameTerms o o := ⟨rfl, rfl, rfl, rfl, rfl⟩

theorem SameTerms.trans {o p q : Order Price Id} (first : SameTerms o p)
    (second : SameTerms p q) : SameTerms o q :=
  ⟨first.orderId.trans second.orderId, first.symbol.trans second.symbol,
   first.price.trans second.price, first.quantity.trans second.quantity,
   first.isBuy.trans second.isBuy⟩

/-- Without overflow a positive fill removes the order exactly when it reaches
    the quantity. -/
theorem update_filled_status {o : Order Price Id} {n : Int} (started : 0 ≤ o.filledQuantity)
    (positive : 0 < n) (fits : o.filledQuantity + n ≤ intMax) :
    (o.updateFilled n).filledQuantity = o.filledQuantity + n ∧
      ((o.updateFilled n).status = .filled ↔ o.quantity ≤ o.filledQuantity + n) := by
  have exact_sum := int32_of_range (n := o.filledQuantity + n) (by omega) fits
  have moved : o.filledQuantity + n ≠ 0 := by omega
  simp only [Order.updateFilled, exact_sum, moved, ↓reduceIte]
  refine ⟨trivial, ?_⟩
  split <;> simp_all

end Phase4
