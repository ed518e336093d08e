import TradingSystems.Phase4.OrderManager
import TradingSystems.Library.Lifecycle
import TradingSystems.Library.Prefixes
import TradingSystems.Library.Wrapping

/- The life of an order in the order manager. update_filled takes the status from the
   counter alone, so a fill can pass the quantity and can bring a cancelled order back,
   and cancel looks at nothing; the life cycle is kept in precisely those histories in
   which no call does so. -/
namespace Phase4
open Lifecycle Prefixes Wrapping
variable {Price Id : Type}

def OrderStatus.stage : OrderStatus → Stage
  | .new => .new
  | .partiallyFilled => .partiallyFilled
  | .filled => .filled
  | .cancelled => .cancelled

def Order.progress (o : Order Price Id) : Progress :=
  ⟨o.quantity, o.filledQuantity, o.status.stage⟩

inductive ManagerCall (Price Id : Type) where
  | createOrder (id : Id) (symbol : String) (price : Price) (quantity : Int) (isBuy : Bool)
  | fillOrder (id : Id) (fillQuantity : Int)
  | cancelOrder (id : Id)

def Issued (m : OrderManager Price Id) : ManagerCall Price Id → Prop
  | .createOrder id _ _ quantity _ => m.getOrder id = none ∧ 0 < quantity ∧ quantity ≤ intMax
  | .fillOrder _ fillQuantity => 0 ≤ fillQuantity ∧ fillQuantity ≤ intMax
  | .cancelOrder _ => True

/-- A fill of an order that is not cancelled, by no more than what is left of it, or a
    cancel of an order that is not filled. -/
def Respects (m : OrderManager Price Id) : ManagerCall Price Id → Prop
  | .createOrder .. => True
  | .fillOrder id fillQuantity => ∀ o, m.getOrder id = some o →
      o.status ≠ .cancelled ∧ fillQuantity ≤ o.quantity - o.filledQuantity
  | .cancelOrder id => ∀ o, m.getOrder id = some o → o.status ≠ .filled

def Sized (m : OrderManager Price Id) : Prop :=
  ∀ id o, m.getOrder id = some o → 0 < o.quantity ∧ o.quantity ≤ intMax

theorem stage_cancelled_iff {o : Order Price Id} :
    o.progress.stage = .cancelled ↔ o.status = .cancelled := by
  unfold Order.progress
  cases o.status <;> simp [OrderStatus.stage]

theorem stage_filled_iff {o : Order Price Id} :
    o.progress.stage = .filled ↔ o.status = .filled := by
  unfold Order.progress
  cases o.status <;> simp [OrderStatus.stage]

theorem filled_sum_iff {o : Order Price Id} {n : Int} (consistent : o.progress.Consistent)
    (size : 0 < o.quantity ∧ o.quantity ≤ intMax) (amount : 0 ≤ n ∧ n ≤ intMax) :
    (o.updateFilled n).progress.Consistent ↔ n ≤ o.quantity - o.filledQuantity := by
  simp only [intMax] at size amount
  have started : 0 ≤ o.filledQuantity := consistent.started
  have within : o.filledQuantity ≤ o.quantity := consistent.within
  have stage : (o.updateFilled n).status.stage =
      if int32 (o.filledQuantity + n) = 0 then .new
      else if o.quantity ≤ int32 (o.filledQuantity + n) then .filled else .partiallyFilled := by
    simp only [Order.updateFilled]
    split_ifs <;> rfl
  have sum : 0 ≤ int32 (o.filledQuantity + n) ∧ int32 (o.filledQuantity + n) ≤ o.quantity ↔
      0 ≤ o.filledQuantity + n ∧ o.filledQuantity + n ≤ o.quantity :=
    wrapped_sum_within started within (by omega) (by omega) (by omega)
  have told := told_consistent_iff size.1 stage
  unfold Order.progress
  rw [update_filled_quantity]
  refine told.trans (sum.trans ?_)
  omega

theorem update_filled_stage (o : Order Price Id) (n : Int) :
    (o.updateFilled n).status.stage ≠ .cancelled := by
  simp only [Order.updateFilled]
  split_ifs <;> simp [OrderStatus.stage]

theorem same_iff {o p : Order Price Id} (terms : SameTerms p o) :
    p = o ↔ o.progress.Same p.progress := by
  constructor
  · intro same
    subst same
    exact ⟨rfl, rfl⟩
  · rintro ⟨stage, counter⟩
    obtain ⟨orderId, symbol, price, quantity, isBuy⟩ := terms
    have status : p.status = o.status := by
      simp only [Order.progress] at stage
      cases first : p.status <;> cases second : o.status <;>
        simp [first, second, OrderStatus.stage] at stage ⊢
    obtain ⟨_, _, _, _, filled, _, _⟩ := p
    simp only [Order.progress] at *
    subst orderId symbol price quantity isBuy counter status
    rfl

theorem update_filled_iff_kept {o : Order Price Id} {n : Int} (consistent : o.progress.Consistent)
    (size : 0 < o.quantity ∧ o.quantity ≤ intMax) (amount : 0 ≤ n ∧ n ≤ intMax) :
    (o.updateFilled n).progress.Consistent ∧ (o.progress.Over → o.updateFilled n = o) ↔
      o.status ≠ .cancelled ∧ n ≤ o.quantity - o.filledQuantity := by
  have change : _ ↔ _ := live_change_iff consistent (q := (o.updateFilled n).progress) rfl
    (update_filled_stage o n)
  rw [same_iff (update_filled_same_terms o n), change, filled_sum_iff consistent size amount, Ne,
    stage_cancelled_iff, stage_filled_iff]
  constructor
  · rintro ⟨fits, live, _⟩
    exact ⟨live, fits⟩
  · rintro ⟨live, fits⟩
    refine ⟨fits, live, fun full => ?_⟩
    have started : 0 ≤ o.filledQuantity := consistent.started
    have reached : o.filledQuantity = o.quantity :=
      (consistent.filled_iff (mt stage_cancelled_iff.mp live)).mp (stage_filled_iff.mpr full)
    have nothing : n = 0 := by omega
    subst nothing
    change int32 (o.filledQuantity + 0) = o.filledQuantity
    rw [Int.add_zero]
    exact int32_of_range (by omega) (by omega)

theorem cancel_iff_kept {o : Order Price Id} (consistent : o.progress.Consistent) :
    o.cancel.progress.Consistent ∧ (o.progress.Over → o.cancel = o) ↔ o.status ≠ .filled := by
  have same : o.cancel = o ↔ o.progress.Same o.cancel.progress :=
    same_iff ⟨rfl, rfl, rfl, rfl, rfl⟩
  rw [same, Ne, ← stage_filled_iff]
  exact cancel_iff consistent

def OrderManager.call [DecidableEq Id] (m : OrderManager Price Id) :
    ManagerCall Price Id → OrderManager Price Id
  | .createOrder id symbol price quantity isBuy => m.createOrder id symbol price quantity isBuy
  | .fillOrder id fillQuantity => m.fillOrder id fillQuantity
  | .cancelOrder id => m.cancelOrder id

section Calls
variable [DecidableEq Id] {m : OrderManager Price Id} {call : ManagerCall Price Id}

theorem fill_order_changes (m : OrderManager Price Id) (id : Id) (n : Int) :
    Changes m.getOrder (m.fillOrder id n).getOrder id (fun o => o.updateFilled n) := by
  unfold OrderManager.fillOrder OrderManager.getOrder
  split
  · rename_i o held
    exact ⟨by simp [held], by simp [held]⟩
  · rename_i held
    exact ⟨fun _ => rfl, by simp [held]⟩

theorem cancel_order_changes (m : OrderManager Price Id) (id : Id) :
    Changes m.getOrder (m.cancelOrder id).getOrder id Order.cancel := by
  unfold OrderManager.cancelOrder OrderManager.getOrder
  split
  · rename_i o held
    exact ⟨by simp [held], by simp [held]⟩
  · rename_i held
    exact ⟨fun _ => rfl, by simp [held]⟩

theorem call_sized (sized : Sized m) (issued : Issued m call) : Sized (m.call call) := by
  cases call with
  | createOrder id symbol price quantity isBuy =>
    exact held_update (p := Order.create id symbol price quantity isBuy) sized issued.2
  | fillOrder id fillQuantity =>
    exact changes_keep (fill_order_changes m id fillQuantity) sized fun o size => size
  | cancelOrder id => exact changes_keep (cancel_order_changes m id) sized fun o size => size

theorem call_iff_respects (sized : Sized m) (sound : Sound Order.progress m.getOrder)
    (issued : Issued m call) :
    Sound Order.progress (m.call call).getOrder ∧
        Frozen Order.progress m.getOrder (m.call call).getOrder ↔ Respects m call := by
  cases call with
  | createOrder id symbol price quantity isBuy =>
    simp only [Respects, iff_true]
    exact insert_new sound issued.1 (fresh_consistent issued.2.1)
  | fillOrder id fillQuantity =>
    apply changes_iff (fill_order_changes m id fillQuantity) sound
    intro o held
    exact update_filled_iff_kept (sound id o held) (sized id o held) issued
  | cancelOrder id =>
    apply changes_iff (cancel_order_changes m id) sound
    intro o held
    exact cancel_iff_kept (sound id o held)

/-- The life cycle is kept throughout a history of calls exactly when every fill fits
    what is left of an order that is not cancelled and every cancel finds an order that
    is not filled. -/
theorem order_lifecycle_iff {calls : List (ManagerCall Price Id)}
    (issued : Each OrderManager.call Issued .create calls) :
    Always OrderManager.call (fun m => Sound Order.progress m.getOrder) .create calls ∧
        Throughout OrderManager.call
          (fun m m' => Frozen Order.progress m.getOrder m'.getOrder) .create calls ↔
      Each OrderManager.call Respects .create calls := by
  apply lawful_iff_each (fun m m' => Frozen Order.progress m.getOrder m'.getOrder) Sized Issued
  · exact fun m => frozen_refl _
  · exact fun m m' m'' => frozen_trans _ _ _
  · exact fun m call => call_sized
  · exact fun m call => call_iff_respects
  · intro id o held
    cases held
  · intro id p held
    cases held
  · exact issued

end Calls

/-- An order for 10 is filled by 15, and stays filled by 15. -/
theorem order_lifecycle_fails : ∃ calls : List (ManagerCall Int Nat),
    Each OrderManager.call Issued .create calls ∧
      ¬ (Always OrderManager.call (fun m => Sound Order.progress m.getOrder) .create calls ∧
        Throughout OrderManager.call
          (fun m m' => Frozen Order.progress m.getOrder m'.getOrder) .create calls) := by
  refine ⟨[.createOrder 1 "AAPL" 100 10 true, .fillOrder 1 15], ?_, ?_⟩
  · refine each_cons.mpr ⟨⟨rfl, by decide, by decide⟩, each_cons.mpr ⟨?_, each_nil⟩⟩
    exact ⟨by decide, by decide⟩
  · rintro ⟨always, _⟩
    have sound := always _ [] (List.append_nil _).symm
    have entry := sound 1 ⟨1, "AAPL", 100, 10, 15, true, .filled⟩ rfl
    exact absurd entry.within (by decide)

theorem order_lifecycle_iff_kept : ∃ calls : List (ManagerCall Int Nat),
    Each OrderManager.call Issued .create calls ∧ calls.length = 5 ∧
      (Always OrderManager.call (fun m => Sound Order.progress m.getOrder) .create calls ∧
          Throughout OrderManager.call
            (fun m m' => Frozen Order.progress m.getOrder m'.getOrder) .create calls ↔
        Each OrderManager.call Respects .create calls) := by
  have issued : Each OrderManager.call Issued .create
      [.createOrder 1 "AAPL" (100 : Int) 10 true, .createOrder 2 "AAPL" 100 5 true, .fillOrder 1 4,
       .cancelOrder 1, .fillOrder (2 : Nat) 5] :=
    each_cons.mpr ⟨⟨rfl, by decide, by decide⟩, each_cons.mpr ⟨⟨rfl, by decide, by decide⟩,
      each_cons.mpr ⟨⟨by decide, by decide⟩, each_cons.mpr ⟨trivial,
        each_cons.mpr ⟨⟨by decide, by decide⟩, each_nil⟩⟩⟩⟩⟩
  exact ⟨_, issued, rfl, order_lifecycle_iff issued⟩

end Phase4
