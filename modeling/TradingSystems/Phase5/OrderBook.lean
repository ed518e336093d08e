import TradingSystems.Library.Prefixes
import Mathlib.Logic.Function.Basic

/- The unoptimised order book, which keeps every order twice: under its price level and
   in a lookup by identifier. addOrder overwrites the entry of the lookup and leaves the
   copy at the old level behind, so the two agree in precisely those histories in which
   an identifier is added again only at the price at which it rests. -/
namespace Phase5
open Prefixes

structure Order (Price Id : Type) where
  id : Id
  price : Price
  quantity : Int
  isBuy : Bool
  deriving DecidableEq, Repr

structure OrderBook (Price Id : Type) where
  orderLevels : Price → Id → Option (Order Price Id)
  orderLookup : Id → Option (Order Price Id)

variable {Price Id : Type}

namespace OrderBook

def create : OrderBook Price Id := ⟨fun _ _ => none, fun _ => none⟩

variable [DecidableEq Price] [DecidableEq Id]

def setLevel (b : OrderBook Price Id) (price : Price) (id : Id)
    (entry : Option (Order Price Id)) : OrderBook Price Id :=
  { b with orderLevels :=
      Function.update b.orderLevels price (Function.update (b.orderLevels price) id entry) }

def setLookup (b : OrderBook Price Id) (id : Id) (entry : Option (Order Price Id)) :
    OrderBook Price Id := { b with orderLookup := Function.update b.orderLookup id entry }

def addOrder (b : OrderBook Price Id) (id : Id) (price : Price) (quantity : Int) (isBuy : Bool) :
    OrderBook Price Id :=
  let order : Order Price Id := ⟨id, price, quantity, isBuy⟩
  (b.setLevel price id (some order)).setLookup id (some order)

def modifyOrder (b : OrderBook Price Id) (id : Id) (newPrice : Price) (newQuantity : Int) :
    OrderBook Price Id :=
  match b.orderLookup id with
  | some oldOrder =>
    (b.setLevel oldOrder.price id none).addOrder id newPrice newQuantity oldOrder.isBuy
  | none => b

def deleteOrder (b : OrderBook Price Id) (id : Id) : OrderBook Price Id :=
  match b.orderLookup id with
  | some order => (b.setLevel order.price id none).setLookup id none
  | none => b

end OrderBook

inductive BookCall (Price Id : Type) where
  | addOrder (id : Id) (price : Price) (quantity : Int) (isBuy : Bool)
  | modifyOrder (id : Id) (newPrice : Price) (newQuantity : Int)
  | deleteOrder (id : Id)

def OrderBook.call [DecidableEq Price] [DecidableEq Id] (b : OrderBook Price Id) :
    BookCall Price Id → OrderBook Price Id
  | .addOrder id price quantity isBuy => b.addOrder id price quantity isBuy
  | .modifyOrder id newPrice newQuantity => b.modifyOrder id newPrice newQuantity
  | .deleteOrder id => b.deleteOrder id

/-- The levels and the lookup hold the same orders, each at one level. -/
structure Agrees (b : OrderBook Price Id) : Prop where
  listed : ∀ price id, (∃ o, b.orderLevels price id = some o) ↔
    ∃ o, b.orderLookup id = some o ∧ o.price = price
  copies : ∀ price id o p, b.orderLevels price id = some o → b.orderLookup id = some p → o = p
  oneLevel : ∀ id price price' o o', b.orderLevels price id = some o →
    b.orderLevels price' id = some o' → price = price'

/-- An order is added under a new identifier, or at the price at which it rests. -/
def KeepsPrice (b : OrderBook Price Id) : BookCall Price Id → Prop
  | .addOrder id price _ _ => ∀ o, b.orderLookup id = some o → o.price = price
  | .modifyOrder .. => True
  | .deleteOrder _ => True

theorem agrees_iff {b : OrderBook Price Id} : Agrees b ↔ ∀ price id o,
    b.orderLevels price id = some o ↔ b.orderLookup id = some o ∧ o.price = price := by
  constructor
  · intro agrees price id o
    constructor
    · intro level
      obtain ⟨p, looked, same⟩ := (agrees.listed price id).mp ⟨o, level⟩
      rw [agrees.copies price id o p level looked]
      exact ⟨looked, same⟩
    · intro looked
      obtain ⟨p, level⟩ := (agrees.listed price id).mpr ⟨o, looked⟩
      rw [← agrees.copies price id p o level looked.1]
      exact level
  · intro entries
    refine ⟨?_, ?_, ?_⟩
    · intro price id
      simp only [entries]
    · intro price id o p level looked
      have same := ((entries price id o).mp level).1
      rw [looked] at same
      exact (Option.some.inj same).symm
    · intro id price price' o o' level level'
      obtain ⟨looked, same⟩ := (entries price id o).mp level
      obtain ⟨looked', same'⟩ := (entries price' id o').mp level'
      rw [looked] at looked'
      cases looked'
      exact same.symm.trans same'

section Calls
variable [DecidableEq Price] [DecidableEq Id] {b : OrderBook Price Id} {id : Id}

@[simp] theorem level_set (price other : Price) (id i : Id) (entry : Option (Order Price Id)) :
    (b.setLevel price id entry).orderLevels other i =
      if other = price ∧ i = id then entry else b.orderLevels other i := by
  by_cases level : other = price
  · subst level
    by_cases same : i = id
    · subst same
      simp [OrderBook.setLevel]
    · simp [OrderBook.setLevel, same]
  · simp [OrderBook.setLevel, level]

omit [DecidableEq Price] in
@[simp] theorem level_lookup (price : Price) (id i : Id) (entry : Option (Order Price Id)) :
    (b.setLookup id entry).orderLevels price i = b.orderLevels price i := rfl

@[simp] theorem lookup_level (price : Price) (id i : Id) (entry : Option (Order Price Id)) :
    (b.setLevel price id entry).orderLookup i = b.orderLookup i := rfl

omit [DecidableEq Price] in
@[simp] theorem lookup_set (id i : Id) (entry : Option (Order Price Id)) :
    (b.setLookup id entry).orderLookup i = if i = id then entry else b.orderLookup i := by
  by_cases same : i = id
  · subst same
    simp [OrderBook.setLookup]
  · simp [OrderBook.setLookup, same]

def AgreesApart (b : OrderBook Price Id) (id : Id) : Prop :=
  ∀ price i o, i ≠ id →
    (b.orderLevels price i = some o ↔ b.orderLookup i = some o ∧ o.price = price)

omit [DecidableEq Price] [DecidableEq Id] in
theorem Agrees.apart (agrees : Agrees b) (id : Id) : AgreesApart b id :=
  fun price i o _ => agrees_iff.mp agrees price i o

theorem add_order_agrees_iff (apart : AgreesApart b id) (price : Price) (quantity : Int)
    (isBuy : Bool) : Agrees (b.addOrder id price quantity isBuy) ↔
      ∀ other o, b.orderLevels other id = some o → other = price := by
  simp only [agrees_iff, OrderBook.addOrder, level_lookup, level_set, lookup_set, lookup_level]
  constructor
  · intro entries other o level
    by_contra differ
    have entry := (entries other id o).mp (by simp [differ, level])
    simp only [↓reduceIte, Option.some.injEq] at entry
    obtain ⟨order, same⟩ := entry
    subst order
    exact differ same.symm
  · intro only other i o
    by_cases same : i = id
    · subst same
      by_cases level : other = price
      · subst level
        simp only [and_self, ↓reduceIte, Option.some.injEq]
        constructor
        · intro order
          subst order
          exact ⟨rfl, rfl⟩
        · exact And.left
      · simp only [level, false_and, ↓reduceIte, Option.some.injEq]
        constructor
        · intro held
          exact absurd (only other o held) level
        · rintro ⟨order, here⟩
          subst order
          exact absurd here.symm level
    · simp only [same, and_false, ↓reduceIte]
      exact apart other i o same

theorem erased_level {old : Order Price Id} (agrees : Agrees b)
    (looked : b.orderLookup id = some old) : AgreesApart (b.setLevel old.price id none) id ∧
      ∀ other o, (b.setLevel old.price id none).orderLevels other id ≠ some o := by
  constructor
  · intro price i o differ
    simp only [level_set, lookup_level, differ, and_false, ↓reduceIte]
    exact agrees.apart id price i o differ
  · intro other o
    simp only [level_set, and_true]
    split
    · exact Option.some_ne_none o ∘ Eq.symm
    · rename_i elsewhere
      intro level
      obtain ⟨looked', here⟩ := (agrees_iff.mp agrees other id o).mp level
      rw [looked] at looked'
      cases looked'
      exact elsewhere here.symm

theorem modify_order_agrees (agrees : Agrees b) (newPrice : Price) (newQuantity : Int) :
    Agrees (b.modifyOrder id newPrice newQuantity) := by
  unfold OrderBook.modifyOrder
  split
  · rename_i old looked
    obtain ⟨apart, erased⟩ := erased_level agrees looked
    rw [add_order_agrees_iff apart]
    intro other o level
    exact absurd level (erased other o)
  · exact agrees

theorem delete_order_agrees (agrees : Agrees b) : Agrees (b.deleteOrder id) := by
  unfold OrderBook.deleteOrder
  split
  · rename_i order looked
    obtain ⟨apart, erased⟩ := erased_level agrees looked
    rw [agrees_iff]
    intro price i o
    by_cases same : i = id
    · subst same
      have gone := erased price o
      simp only [level_lookup, lookup_set, ↓reduceIte, reduceCtorEq, false_and, iff_false]
      exact gone
    · simp only [level_lookup, lookup_set, same, ↓reduceIte]
      exact apart price i o same
  · exact agrees

theorem call_agrees_iff (call : BookCall Price Id) (agrees : Agrees b) :
    Agrees (b.call call) ↔ KeepsPrice b call := by
  cases call with
  | addOrder id price quantity isBuy =>
    simp only [OrderBook.call, add_order_agrees_iff (agrees.apart id), KeepsPrice]
    constructor
    · intro only o looked
      exact only o.price o ((agrees_iff.mp agrees o.price id o).mpr ⟨looked, rfl⟩)
    · intro keeps other o level
      obtain ⟨looked, here⟩ := (agrees_iff.mp agrees other id o).mp level
      exact here.symm.trans (keeps o looked)
  | modifyOrder id newPrice newQuantity =>
    simp only [KeepsPrice, iff_true]
    exact modify_order_agrees agrees newPrice newQuantity
  | deleteOrder id =>
    simp only [KeepsPrice, iff_true]
    exact delete_order_agrees agrees

omit [DecidableEq Price] [DecidableEq Id] in
theorem create_agrees : Agrees (.create : OrderBook Price Id) := by
  rw [agrees_iff]
  intro price id o
  simp [OrderBook.create]

/-- Levels and lookup agree throughout a history of calls exactly when every addOrder
    is under an identifier that does not rest or at the price at which it rests. -/
theorem indexes_agree_iff (calls : List (BookCall Price Id)) :
    Always OrderBook.call Agrees .create calls ↔ Each OrderBook.call KeepsPrice .create calls :=
  always_iff_each (fun _ call agrees => call_agrees_iff call agrees) create_agrees

end Calls

/-- One identifier added at two prices rests at both. -/
theorem indexes_disagree : ∃ calls : List (BookCall Int Nat),
    (exec OrderBook.call .create calls).orderLevels 50 7 = some ⟨7, 50, 100, true⟩ ∧
      (exec OrderBook.call .create calls).orderLookup 7 = some ⟨7, 51, 100, true⟩ ∧
      ¬ Always OrderBook.call Agrees .create calls := by
  refine ⟨[.addOrder 7 50 100 true, .addOrder 7 51 100 true], rfl, rfl, ?_⟩
  intro always
  have agrees := always _ [] (List.append_nil _).symm
  have same := agrees.copies 50 7 ⟨7, 50, 100, true⟩ ⟨7, 51, 100, true⟩ rfl rfl
  cases same

end Phase5
