import TradingSystems.Library.Lifecycle
import TradingSystems.Library.Prefixes
import TradingSystems.Library.Wrapping

/- The order manager of the trade simulator, driven by the strategy and by the execution
   events of the feed. Identifiers are handed out in increasing order and are left
   unbounded, where the source has an `int`, which is enough for 2 ^ 31 - 1 orders; the
   filled counter is an `int`. A fill never asks for the status of its order, and it never
   leaves the status New. -/
namespace Phase3
open Lifecycle Prefixes Wrapping

inductive Side where
  | buy
  | sell
  deriving DecidableEq, Repr

inductive OrderStatus where
  | new
  | filled
  | partiallyFilled
  | cancelled
  deriving DecidableEq, Repr

structure MyOrder (Price : Type) where
  id : Nat
  side : Side
  price : Price
  quantity : Int
  filled : Int
  status : OrderStatus
  deriving DecidableEq, Repr

variable {Price : Type}

def MyOrder.create (id : Nat) (side : Side) (price : Price) (quantity : Int) : MyOrder Price :=
  ⟨id, side, price, quantity, 0, .new⟩

def MyOrder.cancel (order : MyOrder Price) : MyOrder Price := { order with status := .cancelled }

structure OrderManager (Price : Type) where
  orders : Int → Option (MyOrder Price)
  nextId : Nat

namespace OrderManager

def create : OrderManager Price := ⟨fun _ => none, 1⟩

def placeOrder (m : OrderManager Price) (side : Side) (price : Price) (qty : Int) :
    Nat × OrderManager Price :=
  let id := m.nextId
  (id, ⟨Function.update m.orders id (some (.create id side price qty)), m.nextId + 1⟩)

def cancel (m : OrderManager Price) (id : Int) : OrderManager Price :=
  match m.orders id with
  | some order => { m with orders := Function.update m.orders id (some order.cancel) }
  | none => m

end OrderManager

def MyOrder.fill (order : MyOrder Price) (filledQty : Int) : MyOrder Price :=
  let filled := wrapped 32 (order.filled + filledQty)
  { order with filled, status := if order.quantity ≤ filled then .filled else .partiallyFilled }

def OrderManager.handleFill (m : OrderManager Price) (id filledQty : Int) : OrderManager Price :=
  match m.orders id with
  | some order => { m with orders := Function.update m.orders id (some (order.fill filledQty)) }
  | none => m

inductive ManagerCall (Price : Type) where
  | placeOrder (side : Side) (price : Price) (qty : Int)
  | cancel (id : Int)
  | handleFill (id filledQty : Int)

def OrderManager.call (m : OrderManager Price) : ManagerCall Price → OrderManager Price
  | .placeOrder side price qty => (m.placeOrder side price qty).2
  | .cancel id => m.cancel id
  | .handleFill id filledQty => m.handleFill id filledQty

def OrderStatus.stage : OrderStatus → Stage
  | .new => .new
  | .filled => .filled
  | .partiallyFilled => .partiallyFilled
  | .cancelled => .cancelled

def MyOrder.progress (o : MyOrder Price) : Progress := ⟨o.quantity, o.filled, o.status.stage⟩

/-- A positive quantity for a placed order, and any `int` for an execution. -/
def Issued (_ : OrderManager Price) : ManagerCall Price → Prop
  | .placeOrder _ _ qty => 0 < qty ∧ qty < 2 ^ 31
  | .cancel _ => True
  | .handleFill _ filledQty => -2 ^ 31 ≤ filledQty ∧ filledQty < 2 ^ 31

/-- A fill of an order that is not cancelled which leaves something filled and no more
    than the quantity, and which is zero when the order is filled already; or a cancel of
    an order that is not filled. -/
def Respects (m : OrderManager Price) : ManagerCall Price → Prop
  | .placeOrder .. => True
  | .cancel id => ∀ o, m.orders id = some o → o.status ≠ .filled
  | .handleFill id filledQty => ∀ o, m.orders id = some o →
      o.status ≠ .cancelled ∧ (o.status = .filled → filledQty = 0) ∧
        0 < o.filled + filledQty ∧ o.filled + filledQty ≤ o.quantity

def Listed (next : Nat) (id : Int) (o : MyOrder Price) : Prop :=
  id < next ∧ 0 < o.quantity ∧ o.quantity < 2 ^ 31

def Placed (m : OrderManager Price) : Prop :=
  ∀ id o, m.orders id = some o → Listed m.nextId id o

section Orders
variable {o : MyOrder Price} {n : Int}

theorem stage_cancelled_iff : o.progress.stage = .cancelled ↔ o.status = .cancelled := by
  unfold MyOrder.progress
  cases o.status <;> simp [OrderStatus.stage]

theorem stage_filled_iff : o.progress.stage = .filled ↔ o.status = .filled := by
  unfold MyOrder.progress
  cases o.status <;> simp [OrderStatus.stage]

theorem fill_stage (o : MyOrder Price) (n : Int) : (o.fill n).status.stage =
    if o.quantity ≤ wrapped 32 (o.filled + n) then .filled else .partiallyFilled := by
  simp only [MyOrder.fill]
  split_ifs <;> rfl

theorem fill_stage_live (o : MyOrder Price) (n : Int) : (o.fill n).status.stage ≠ .cancelled := by
  rw [fill_stage]
  split_ifs <;> simp

/-- The counter stays within the quantity exactly when the unbounded sum does. -/
theorem filled_sum_iff (consistent : o.progress.Consistent) (size : o.quantity < 2 ^ 31)
    (amount : -2 ^ 31 ≤ n ∧ n < 2 ^ 31) :
    (o.fill n).progress.Consistent ↔ 0 < o.filled + n ∧ o.filled + n ≤ o.quantity := by
  have started : 0 ≤ o.filled := consistent.started
  have within : o.filled ≤ o.quantity := consistent.within
  have sum := wrapped_sum_within started within size amount.1 amount.2
  have told := begun_consistent_iff (fill_stage o n)
  refine told.trans ?_
  constructor
  · rintro ⟨positive, bounded⟩
    have range := sum.mp ⟨positive.le, bounded⟩
    rw [wrapped_of_range (by omega) (by omega)] at positive
    exact ⟨positive, range.2⟩
  · rintro ⟨positive, bounded⟩
    rw [wrapped_of_range (by omega) (by omega)]
    exact ⟨positive, bounded⟩

theorem same_iff {counter : Int} {status : OrderStatus} :
    { o with filled := counter, status } = o ↔
      o.progress.Same ⟨o.quantity, counter, status.stage⟩ := by
  constructor
  · intro same
    exact ⟨congrArg (fun p => p.status.stage) same, congrArg MyOrder.filled same⟩
  · rintro ⟨stage, filled⟩
    have kept : status = o.status := by
      simp only [MyOrder.progress] at stage
      cases first : status <;> cases second : o.status <;>
        simp [first, second, OrderStatus.stage] at stage ⊢
    simp only [MyOrder.progress] at filled
    rw [kept, filled]

theorem fill_iff_kept (consistent : o.progress.Consistent) (size : o.quantity < 2 ^ 31)
    (amount : -2 ^ 31 ≤ n ∧ n < 2 ^ 31) :
    (o.fill n).progress.Consistent ∧ (o.progress.Over → o.fill n = o) ↔
      o.status ≠ .cancelled ∧ (o.status = .filled → n = 0) ∧
        0 < o.filled + n ∧ o.filled + n ≤ o.quantity := by
  have change : _ ↔ _ := live_change_iff consistent (q := (o.fill n).progress) rfl
    (fill_stage_live o n)
  have same : o.fill n = o ↔ o.progress.Same (o.fill n).progress := same_iff
  rw [same, change, filled_sum_iff consistent size amount, Ne, stage_cancelled_iff,
    stage_filled_iff]
  have counter : 0 < o.filled + n ∧ o.filled + n ≤ o.quantity →
      (o.fill n).progress.filled = o.progress.filled + n := fun range =>
    wrapped_of_range (by omega) (by omega)
  constructor
  · rintro ⟨range, live, same⟩
    refine ⟨live, fun full => ?_, range⟩
    have kept := same full
    rw [counter range] at kept
    omega
  · rintro ⟨live, nothing, range⟩
    refine ⟨range, live, fun full => ?_⟩
    rw [counter range, nothing full, Int.add_zero]

theorem cancel_iff_kept (consistent : o.progress.Consistent) :
    o.cancel.progress.Consistent ∧ (o.progress.Over → o.cancel = o) ↔ o.status ≠ .filled := by
  have same : o.cancel = o ↔ o.progress.Same o.cancel.progress := same_iff
  rw [same, Ne, ← stage_filled_iff]
  exact cancel_iff consistent

end Orders

section Calls
variable {m : OrderManager Price} {call : ManagerCall Price}

theorem placed_update (placed : Placed m) {id : Int} {o : MyOrder Price} {next : Nat}
    (later : m.nextId ≤ next) (listed : Listed next id o) :
    Placed ⟨Function.update m.orders id (some o), next⟩ := by
  have earlier : ∀ other p, m.orders other = some p → Listed next other p := by
    intro other p held
    obtain ⟨older, size⟩ := placed other p held
    exact ⟨by omega, size⟩
  exact held_update earlier listed

theorem cancel_changes (m : OrderManager Price) (id : Int) :
    Changes m.orders (m.cancel id).orders id MyOrder.cancel ∧ (m.cancel id).nextId = m.nextId := by
  unfold OrderManager.cancel
  split
  · rename_i o held
    exact ⟨⟨by simp [held], by simp [held]⟩, rfl⟩
  · rename_i held
    exact ⟨⟨fun _ => rfl, by simp [held]⟩, rfl⟩

theorem handle_fill_changes (m : OrderManager Price) (id n : Int) :
    Changes m.orders (m.handleFill id n).orders id (fun o => o.fill n) ∧
      (m.handleFill id n).nextId = m.nextId := by
  unfold OrderManager.handleFill
  split
  · rename_i o held
    exact ⟨⟨by simp [held], by simp [held]⟩, rfl⟩
  · rename_i held
    exact ⟨⟨fun _ => rfl, by simp [held]⟩, rfl⟩

theorem place_order_orders (m : OrderManager Price) (side : Side) (price : Price) (qty id : Int) :
    (m.placeOrder side price qty).2.orders id =
      if id = m.nextId then some (.create m.nextId side price qty) else m.orders id :=
  Function.update_apply _ _ _ _

theorem handle_fill_orders (m : OrderManager Price) (id n other : Int) :
    (m.handleFill id n).orders other =
      (m.orders other).map fun o => if other = id then o.fill n else o := by
  unfold OrderManager.handleFill
  by_cases same : other = id
  · subst same
    cases held : m.orders other <;> simp [held]
  · cases m.orders id <;> simp [same]

theorem call_placed (placed : Placed m) (issued : Issued m call) : Placed (m.call call) := by
  cases call with
  | placeOrder side price qty =>
    exact placed_update placed (o := .create m.nextId side price qty) (Nat.le_succ _)
      ⟨by omega, issued⟩
  | cancel id =>
    obtain ⟨changes, next⟩ := cancel_changes m id
    unfold Placed
    rw [OrderManager.call, next]
    exact changes_keep changes placed fun o listed => listed
  | handleFill id filledQty =>
    obtain ⟨changes, next⟩ := handle_fill_changes m id filledQty
    unfold Placed
    rw [OrderManager.call, next]
    exact changes_keep changes placed fun o listed => listed

theorem call_iff_respects (placed : Placed m) (sound : Sound MyOrder.progress m.orders)
    (issued : Issued m call) :
    Sound MyOrder.progress (m.call call).orders ∧
        Frozen MyOrder.progress m.orders (m.call call).orders ↔ Respects m call := by
  cases call with
  | placeOrder side price qty =>
    have unused : m.orders m.nextId = none := by
      cases held : m.orders m.nextId with
      | none => rfl
      | some o => exact absurd (placed _ o held).1 (lt_irrefl _)
    simp only [Respects, iff_true]
    exact insert_new sound unused (fresh_consistent issued.1)
  | cancel id =>
    apply changes_iff (cancel_changes m id).1 sound
    intro o held
    exact cancel_iff_kept (sound id o held)
  | handleFill id filledQty =>
    apply changes_iff (handle_fill_changes m id filledQty).1 sound
    intro o held
    exact fill_iff_kept (sound id o held) (placed id o held).2.2 issued

end Calls

/-- The life cycle is kept throughout a history of calls exactly when every fill moves
    an order that is not over to something filled and at most the quantity (or moves a
    filled order by zero) and every cancel finds an order that is not filled. -/
theorem simulator_lifecycle_iff {calls : List (ManagerCall Price)}
    (issued : Each OrderManager.call Issued .create calls) :
    Always OrderManager.call (fun m => Sound MyOrder.progress m.orders) .create calls ∧
        Throughout OrderManager.call
          (fun m m' => Frozen MyOrder.progress m.orders m'.orders) .create calls ↔
      Each OrderManager.call Respects .create calls := by
  apply lawful_iff_each (fun m m' => Frozen MyOrder.progress m.orders m'.orders) Placed Issued
  · exact fun m => frozen_refl _
  · exact fun m m' m'' => frozen_trans _ _ _
  · exact fun m call => call_placed
  · exact fun m call => call_iff_respects
  · intro id o held
    cases held
  · intro id o held
    cases held
  · exact issued

/-- The feed executes an order for 50 twice: it is filled by 100. -/
theorem simulator_lifecycle_fails : ∃ calls : List (ManagerCall Int),
    Each OrderManager.call Issued .create calls ∧
      ¬ (Always OrderManager.call (fun m => Sound MyOrder.progress m.orders) .create calls ∧
        Throughout OrderManager.call
          (fun m m' => Frozen MyOrder.progress m.orders m'.orders) .create calls) := by
  refine ⟨[.placeOrder .sell 10015 50, .placeOrder .sell 10017 50, .handleFill 2 50,
    .handleFill 2 50], ?_, ?_⟩
  · refine each_cons.mpr ⟨⟨by decide, by decide⟩, each_cons.mpr ⟨⟨by decide, by decide⟩, ?_⟩⟩
    exact each_cons.mpr ⟨⟨by decide, by decide⟩, each_cons.mpr ⟨⟨by decide, by decide⟩, each_nil⟩⟩
  · rintro ⟨always, _⟩
    have sound := always _ [] (List.append_nil _).symm
    have entry := sound 2 ⟨2, .sell, 10017, 50, 100, .filled⟩ rfl
    exact absurd entry.within (by decide)

theorem simulator_lifecycle_iff_kept : ∃ calls : List (ManagerCall Int),
    Each OrderManager.call Issued .create calls ∧ calls.length = 4 ∧
      (Always OrderManager.call (fun m => Sound MyOrder.progress m.orders) .create calls ∧
          Throughout OrderManager.call
            (fun m m' => Frozen MyOrder.progress m.orders m'.orders) .create calls ↔
        Each OrderManager.call Respects .create calls) := by
  have issued : Each OrderManager.call Issued .create
      [.placeOrder .sell (10015 : Int) 50, .handleFill 1 20, .handleFill 1 30, .cancel 2] :=
    each_cons.mpr ⟨⟨by decide, by decide⟩, each_cons.mpr ⟨⟨by decide, by decide⟩,
      each_cons.mpr ⟨⟨by decide, by decide⟩, each_cons.mpr ⟨trivial, each_nil⟩⟩⟩⟩
  exact ⟨_, issued, rfl, simulator_lifecycle_iff issued⟩

end Phase3
