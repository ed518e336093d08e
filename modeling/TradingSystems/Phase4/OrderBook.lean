import TradingSystems.Phase4.MemoryPool
import TradingSystems.Phase4.Order
import Mathlib.Data.List.Sort

/- The order book and its matching loop. Each side is a multimap whose nodes own
   a pool pointer; an iterator is the identity of the node it denotes, and node
   identities are handed out in increasing order, so they also record arrival.
   Reading through an iterator or a pointer that denotes nothing is an error. -/
namespace Phase4

inductive Stuck where
  | danglingIterator
  | danglingPointer
  | wrongSide
  | outOfFuel
  deriving DecidableEq, Repr

structure Node (Price : Type) where
  it : Nat
  key : Price
  order : Nat
  deriving DecidableEq, Repr

structure OrderBook (Price Id : Type) where
  pool : MemoryPool (Order Price Id)
  buyOrders : List (Node Price)
  sellOrders : List (Node Price)
  idLookup : Id → Option Nat
  nextNode : Nat

structure Trade (Price Id : Type) where
  buyOrderId : Id
  sellOrderId : Id
  price : Price
  quantity : Int
  deriving DecidableEq, Repr

variable {Price Id : Type} [LinearOrder Price] [DecidableEq Id]

/-- The key comparison of a side: `std::greater` for bids, `std::less` for asks. -/
def Better (isBuy : Bool) (p q : Price) : Prop := if isBuy then q < p else p < q

instance (isBuy : Bool) (p q : Price) : Decidable (Better isBuy p q) :=
  inferInstanceAs (Decidable (if isBuy then q < p else p < q))

def emplace (isBuy : Bool) (node : Node Price) (side : List (Node Price)) : List (Node Price) :=
  side.orderedInsert (fun m n => Better isBuy m.key n.key) node

def eraseNode (it : Nat) (side : List (Node Price)) : Except Stuck (List (Node Price)) :=
  if it ∈ side.map Node.it then .ok (side.filter (fun n => n.it ≠ it)) else .error .wrongSide

namespace OrderBook

def create (layout : Layout) (poolSize : Nat) : OrderBook Price Id :=
  ⟨.create layout poolSize, [], [], fun _ => none, 0⟩

def nodes (b : OrderBook Price Id) : List (Node Price) := b.buyOrders ++ b.sellOrders

def addOrder (b : OrderBook Price Id) (id : Id) (symbol : String) (price : Price)
    (quantity : Int) (isBuy : Bool) : OrderBook Price Id :=
  match b.pool.allocate
      (.ok (.create id symbol price quantity isBuy) : Except Empty (Order Price Id)) with
  | (.ok (some ptr), pool) =>
    let node : Node Price := ⟨b.nextNode, price, ptr⟩
    let idLookup := Function.update b.idLookup id (some node.it)
    if isBuy then
      { b with pool, idLookup, buyOrders := emplace true node b.buyOrders,
               nextNode := b.nextNode + 1 }
    else
      { b with pool, idLookup, sellOrders := emplace false node b.sellOrders,
               nextNode := b.nextNode + 1 }
  | (.ok none, _) => b -- "OrderBook memory pool exhausted"
  | (.error impossible, _) => impossible.elim

def getBestBid (b : OrderBook Price Id) : Option Nat := b.buyOrders.head?.map Node.order
def getBestAsk (b : OrderBook Price Id) : Option Nat := b.sellOrders.head?.map Node.order

def order (b : OrderBook Price Id) (ptr : Nat) : Except Stuck (Order Price Id) :=
  match b.pool.deref ptr with
  | some o => .ok o
  | none => .error .danglingPointer

def node (b : OrderBook Price Id) (it : Nat) : Except Stuck (Node Price) :=
  match b.nodes.find? (fun n => n.it = it) with
  | some n => .ok n
  | none => .error .danglingIterator

/-- Erasing the node destroys its owning pointer, which gives the slot back. -/
def removeOrder (b : OrderBook Price Id) (id : Id) : Except Stuck (OrderBook Price Id) :=
  match b.idLookup id with
  | none => .ok b
  | some it => do
    let node ← b.node it
    let order ← b.order node.order
    let pool := b.pool.deallocate (some node.order)
    let idLookup := Function.update b.idLookup id none
    if order.isBuy then
      let buyOrders ← eraseNode it b.buyOrders
      return { b with pool, idLookup, buyOrders }
    else
      let sellOrders ← eraseNode it b.sellOrders
      return { b with pool, idLookup, sellOrders }

def updateFilled (b : OrderBook Price Id) (ptr : Nat) (fillQuantity : Int) :
    Except Stuck (OrderBook Price Id) := do
  let o ← b.order ptr
  return { b with pool := b.pool.store ptr (o.updateFilled fillQuantity) }

def removeIfFilled (b : OrderBook Price Id) (ptr : Nat) : Except Stuck (OrderBook Price Id) := do
  let o ← b.order ptr
  if o.status = .filled then b.removeOrder o.orderId else return b

/-- One iteration of the loop of `match_orders`; `none` when it breaks. -/
def matchOnce (b : OrderBook Price Id) :
    Except Stuck (Option (Trade Price Id × OrderBook Price Id)) :=
  match b.getBestBid, b.getBestAsk with
  | some bestBid, some bestAsk => do
    let bid ← b.order bestBid
    let ask ← b.order bestAsk
    if bid.price < ask.price then
      return none
    else
      let tradeQty := min bid.quantity ask.quantity
      let trade : Trade Price Id := ⟨bid.orderId, ask.orderId, ask.price, tradeQty⟩
      let b ← b.updateFilled bestBid tradeQty
      let b ← b.updateFilled bestAsk tradeQty
      let b ← b.removeIfFilled bestBid
      let b ← b.removeIfFilled bestAsk
      return some (trade, b)
  | _, _ => .ok none

def matchOrders : Nat → OrderBook Price Id →
    Except Stuck (List (Trade Price Id) × OrderBook Price Id)
  | 0, _ => .error .outOfFuel
  | fuel + 1, b => do
    match ← b.matchOnce with
    | none => return ([], b)
    | some (trade, b) =>
      let (trades, b) ← matchOrders fuel b
      return (trade :: trades, b)

end OrderBook
end Phase4
