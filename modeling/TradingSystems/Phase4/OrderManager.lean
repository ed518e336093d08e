import TradingSystems.Phase4.OrderBook

/- The order manager and the trade logger. The manager keeps its own object for
   each order, apart from the one that the book builds in its pool. -/
namespace Phase4

structure OrderManager (Price Id : Type) where
  orders : Id → Option (Order Price Id)

structure TradeLogger (Price Id : Type) where
  trades : List (Trade Price Id)

variable {Price Id : Type}

def TradeLogger.create : TradeLogger Price Id := ⟨[]⟩

def TradeLogger.logTrade (l : TradeLogger Price Id) (trade : Trade Price Id) :
    TradeLogger Price Id := ⟨l.trades ++ [trade]⟩

theorem log_trades (l : TradeLogger Price Id) (ts : List (Trade Price Id)) :
    ts.foldl TradeLogger.logTrade l = ⟨l.trades ++ ts⟩ := by
  induction ts generalizing l with
  | nil => simp
  | cons t ts ih => simp [ih, TradeLogger.logTrade]

namespace OrderManager

def create : OrderManager Price Id := ⟨fun _ => none⟩

/-- `get_order`; a null pointer is `none`. -/
def getOrder (m : OrderManager Price Id) (id : Id) : Option (Order Price Id) := m.orders id

variable [DecidableEq Id]

def createOrder (m : OrderManager Price Id) (id : Id) (symbol : String) (price : Price)
    (quantity : Int) (isBuy : Bool) : OrderManager Price Id :=
  ⟨Function.update m.orders id (some (.create id symbol price quantity isBuy))⟩

def fillOrder (m : OrderManager Price Id) (id : Id) (fillQuantity : Int) :
    OrderManager Price Id :=
  match m.orders id with
  | some order => ⟨Function.update m.orders id (some (order.updateFilled fillQuantity))⟩
  | none => m

def cancelOrder (m : OrderManager Price Id) (id : Id) : OrderManager Price Id :=
  match m.orders id with
  | some order => ⟨Function.update m.orders id (some order.cancel)⟩
  | none => m

theorem get_created (m : OrderManager Price Id) (id : Id) (symbol : String) (price : Price)
    (quantity : Int) (isBuy : Bool) :
    (m.createOrder id symbol price quantity isBuy).getOrder id =
      some (.create id symbol price quantity isBuy) := Function.update_self ..

theorem get_created_other (m : OrderManager Price Id) {id other : Id} (differ : other ≠ id)
    (symbol : String) (price : Price) (quantity : Int) (isBuy : Bool) :
    (m.createOrder id symbol price quantity isBuy).getOrder other = m.getOrder other :=
  Function.update_of_ne differ _ _

end OrderManager
end Phase4
