import TradingSystems.Phase5.OrderBook
import Mathlib.Logic.Function.Conjugate

/- The unoptimised order book with its price levels as the nested maps have them. A level
   comes into being when it is accessed and stays when it is empty, so that even the
   erasure of an order may add one. -/
namespace Phase5
open Prefixes

structure LevelBook (Price Id : Type) where
  orderLevels : Price → Option (Id → Option (Order Price Id))
  orderLookup : Id → Option (Order Price Id)

variable {Price Id : Type}

namespace LevelBook

def create : LevelBook Price Id := ⟨fun _ => none, fun _ => none⟩

/-- `orderLevels[price]`, which is empty when it was absent. -/
def level (b : LevelBook Price Id) (price : Price) : Id → Option (Order Price Id) :=
  (b.orderLevels price).getD fun _ => none

variable [DecidableEq Price] [DecidableEq Id]

/-- `orderLevels[price]` with the entry of one identifier assigned or erased. -/
def setLevel (price : Price) (id : Id) (entry : Option (Order Price Id))
    (b : LevelBook Price Id) : LevelBook Price Id :=
  { b with orderLevels :=
      Function.update b.orderLevels price (some (Function.update (b.level price) id entry)) }

def setLookup (id : Id) (entry : Option (Order Price Id)) (b : LevelBook Price Id) :
    LevelBook Price Id := { b with orderLookup := Function.update b.orderLookup id entry }

def addOrder (b : LevelBook Price Id) (id : Id) (price : Price) (quantity : Int) (isBuy : Bool) :
    LevelBook Price Id :=
  let order : Order Price Id := ⟨id, price, quantity, isBuy⟩
  (b.setLevel price id (some order)).setLookup id (some order)

def modifyOrder (b : LevelBook Price Id) (id : Id) (newPrice : Price) (newQuantity : Int) :
    LevelBook Price Id :=
  match b.orderLookup id with
  | some oldOrder =>
    (b.setLevel oldOrder.price id none).addOrder id newPrice newQuantity oldOrder.isBuy
  | none => b

def deleteOrder (b : LevelBook Price Id) (id : Id) : LevelBook Price Id :=
  match b.orderLookup id with
  | some order => (b.setLevel order.price id none).setLookup id none
  | none => b

def call (b : LevelBook Price Id) : BookCall Price Id → LevelBook Price Id
  | .addOrder id price quantity isBuy => b.addOrder id price quantity isBuy
  | .modifyOrder id newPrice newQuantity => b.modifyOrder id newPrice newQuantity
  | .deleteOrder id => b.deleteOrder id

end LevelBook

def callId : BookCall Price Id → Id
  | .addOrder id .. => id
  | .modifyOrder id .. => id
  | .deleteOrder id => id

section Writes
open LevelBook Function
variable [DecidableEq Price] [DecidableEq Id] {i j : Id}

theorem set_levels_commute (differ : i ≠ j) (p q : Price) (e f : Option (Order Price Id)) :
    Function.Commute (setLevel p i e) (setLevel q j f) := by
  intro b
  by_cases same : p = q
  · subst same
    simp only [setLevel, level, update_self, Option.getD_some, update_idem]
    rw [update_comm differ]
  · simp only [setLevel, level, update_of_ne same, update_of_ne (Ne.symm same)]
    rw [update_comm same]

omit [DecidableEq Price] in
theorem set_lookups_commute (differ : i ≠ j) (e f : Option (Order Price Id)) :
    Function.Commute (setLookup i e : LevelBook Price Id → LevelBook Price Id)
      (setLookup j f) := by
  intro b
  simp only [setLookup]
  rw [update_comm differ]

theorem set_level_lookup_commute (p : Price) (e f : Option (Order Price Id)) :
    Function.Commute (setLevel p i e) (setLookup j f) := fun _ => rfl

/-- What a call writes, given the order that it finds in the lookup. -/
def effect : BookCall Price Id → Option (Order Price Id) → LevelBook Price Id → LevelBook Price Id
  | .addOrder id price quantity isBuy, _ =>
    setLookup id (some ⟨id, price, quantity, isBuy⟩) ∘
      setLevel price id (some ⟨id, price, quantity, isBuy⟩)
  | .modifyOrder id newPrice newQuantity, some old =>
    (setLookup id (some ⟨id, newPrice, newQuantity, old.isBuy⟩) ∘
      setLevel newPrice id (some ⟨id, newPrice, newQuantity, old.isBuy⟩)) ∘
        setLevel old.price id none
  | .deleteOrder id, some old => setLookup id none ∘ setLevel old.price id none
  | _, none => fun b => b

theorem call_effect (b : LevelBook Price Id) (c : BookCall Price Id) :
    b.call c = effect c (b.orderLookup (callId c)) b := by
  cases c with
  | addOrder id price quantity isBuy => rfl
  | modifyOrder id newPrice newQuantity =>
    simp only [call, modifyOrder, callId]
    cases b.orderLookup id <;> rfl
  | deleteOrder id =>
    simp only [call, deleteOrder, callId]
    cases b.orderLookup id <;> rfl

theorem effect_lookup {c : BookCall Price Id} (differ : i ≠ callId c)
    (old : Option (Order Price Id)) (b : LevelBook Price Id) :
    (effect c old b).orderLookup i = b.orderLookup i := by
  cases c with
  | addOrder id price quantity isBuy => exact update_of_ne differ ..
  | modifyOrder id newPrice newQuantity =>
    cases old with
    | none => rfl
    | some old => exact update_of_ne differ ..
  | deleteOrder id =>
    cases old with
    | none => rfl
    | some old => exact update_of_ne differ ..

theorem commute_effect {f : LevelBook Price Id → LevelBook Price Id} {c : BookCall Price Id}
    (levels : ∀ p e, Function.Commute f (setLevel p (callId c) e))
    (lookups : ∀ e, Function.Commute f (setLookup (callId c) e)) (old : Option (Order Price Id)) :
    Function.Commute f (effect c old) := by
  cases c with
  | addOrder id price quantity isBuy => exact (lookups _).comp_right (levels _ _)
  | modifyOrder id newPrice newQuantity =>
    cases old with
    | none => exact fun _ => rfl
    | some old => exact ((lookups _).comp_right (levels _ _)).comp_right (levels _ _)
  | deleteOrder id =>
    cases old with
    | none => exact fun _ => rfl
    | some old => exact (lookups _).comp_right (levels _ _)

theorem effects_commute {c d : BookCall Price Id} (differ : callId c ≠ callId d)
    (old old' : Option (Order Price Id)) : Function.Commute (effect c old) (effect d old') := by
  apply Function.Commute.symm
  apply commute_effect
  · intro p e
    refine (commute_effect (fun q f => ?_) (fun f => ?_) old').symm
    · exact set_levels_commute differ p q e f
    · exact set_level_lookup_commute p e f
  · intro e
    refine (commute_effect (fun q f => ?_) (fun f => ?_) old').symm
    · exact (set_level_lookup_commute q f e).symm
    · exact set_lookups_commute differ e f

theorem calls_commute {c d : BookCall Price Id} (differ : callId c ≠ callId d)
    (b : LevelBook Price Id) : (b.call c).call d = (b.call d).call c := by
  rw [call_effect (b.call c), call_effect (b.call d), call_effect b c, call_effect b d,
    effect_lookup differ.symm, effect_lookup differ]
  exact (effects_commute differ _ _).symm b

theorem modify_absent {b : LevelBook Price Id} (absent : b.orderLookup i = none) (newPrice : Price)
    (newQuantity : Int) : b.modifyOrder i newPrice newQuantity = b := by
  simp only [modifyOrder, absent]

theorem delete_absent {b : LevelBook Price Id} (absent : b.orderLookup i = none) :
    b.deleteOrder i = b := by
  simp only [deleteOrder, absent]

theorem modify_present {b : LevelBook Price Id} {old : Order Price Id}
    (present : b.orderLookup i = some old) (newPrice : Price) (newQuantity : Int) :
    b.modifyOrder i newPrice newQuantity =
      (b.deleteOrder i).addOrder i newPrice newQuantity old.isBuy := by
  simp only [modifyOrder, deleteOrder, present, addOrder, setLookup, setLevel, level, update_idem]

/-- On every book, reached or not: a modification is a deletion and an addition on the old
    side, an absent identifier is left alone, and calls about different identifiers commute,
    with the levels that they bring into being. -/
theorem operation_laws (b : LevelBook Price Id) :
    (∀ id old, b.orderLookup id = some old → ∀ newPrice newQuantity,
      b.modifyOrder id newPrice newQuantity =
        (b.deleteOrder id).addOrder id newPrice newQuantity old.isBuy) ∧
    (∀ id, b.orderLookup id = none → b.deleteOrder id = b ∧ ∀ newPrice newQuantity,
      b.modifyOrder id newPrice newQuantity = b) ∧
    ∀ c d : BookCall Price Id, callId c ≠ callId d → (b.call c).call d = (b.call d).call c :=
  ⟨fun _ _ present => modify_present present,
    fun _ absent => ⟨delete_absent absent, modify_absent absent⟩,
    fun _ _ differ => calls_commute differ b⟩

theorem operation_laws_moved :
    let b : LevelBook Int Nat := LevelBook.create.addOrder 1 100 10 true
    (b.modifyOrder 1 105 20).level 105 1 = some ⟨1, 105, 20, true⟩ ∧
      (b.modifyOrder 1 105 20).level 100 1 = none ∧
      ((b.addOrder 2 105 5 false).modifyOrder 1 105 20).level 105 2 = some ⟨2, 105, 5, false⟩ := by
  intro b
  obtain ⟨moves, _, commute⟩ := operation_laws b
  have added_later : (b.addOrder 2 105 5 false).modifyOrder 1 105 20 =
      (b.modifyOrder 1 105 20).addOrder 2 105 5 false :=
    commute (.addOrder 2 105 5 false) (.modifyOrder 1 105 20) (by decide)
  rw [added_later, moves 1 ⟨1, 100, 10, true⟩ rfl 105 20]
  exact ⟨rfl, rfl, rfl⟩

end Writes

/-- What the book says when empty levels count as absent. -/
def LevelBook.entries (b : LevelBook Price Id) : OrderBook Price Id := ⟨b.level, b.orderLookup⟩

section Reached
variable [DecidableEq Price] [DecidableEq Id] {b : LevelBook Price Id}

theorem entries_set_level (b : LevelBook Price Id) (price : Price) (id : Id)
    (entry : Option (Order Price Id)) :
    (b.setLevel price id entry).entries = b.entries.setLevel price id entry := by
  have levels : (b.setLevel price id entry).level =
      Function.update b.level price (Function.update (b.level price) id entry) := by
    funext p
    by_cases same : p = price
    · subst same
      simp [LevelBook.setLevel, LevelBook.level]
    · simp [LevelBook.setLevel, LevelBook.level, same]
  simp only [LevelBook.entries, levels]
  rfl

theorem entries_call (b : LevelBook Price Id) (c : BookCall Price Id) :
    (b.call c).entries = b.entries.call c := by
  have added (b : LevelBook Price Id) (id : Id) (price : Price) (quantity : Int) (isBuy : Bool) :
      (b.addOrder id price quantity isBuy).entries =
        b.entries.addOrder id price quantity isBuy := by
    rw [OrderBook.addOrder, ← entries_set_level]
    rfl
  have looked : b.entries.orderLookup = b.orderLookup := rfl
  cases c with
  | addOrder id price quantity isBuy => exact added b id price quantity isBuy
  | modifyOrder id newPrice newQuantity =>
    simp only [LevelBook.call, OrderBook.call, LevelBook.modifyOrder, OrderBook.modifyOrder, looked]
    cases b.orderLookup id with
    | none => rfl
    | some old =>
      dsimp only
      rw [added, entries_set_level]
  | deleteOrder id =>
    simp only [LevelBook.call, OrderBook.call, LevelBook.deleteOrder, OrderBook.deleteOrder, looked]
    cases b.orderLookup id with
    | none => rfl
    | some old =>
      dsimp only
      rw [← entries_set_level]
      rfl

theorem entries_exec (calls : List (BookCall Price Id)) (b : LevelBook Price Id) :
    (exec LevelBook.call b calls).entries = exec OrderBook.call b.entries calls := by
  induction calls generalizing b with
  | nil => rfl
  | cons c calls ih =>
    have rest := ih (b.call c)
    rw [entries_call] at rest
    exact rest

/-- The level of every order in the lookup is there. -/
def LevelsKnown (b : LevelBook Price Id) : Prop :=
  ∀ id o, b.orderLookup id = some o → b.orderLevels o.price ≠ none

theorem set_level_there (b : LevelBook Price Id) {p : Price} (price : Price) (id : Id)
    (entry : Option (Order Price Id)) (there : p = price ∨ b.orderLevels p ≠ none) :
    (b.setLevel price id entry).orderLevels p ≠ none := by
  by_cases same : p = price
  · subst same
    simp [LevelBook.setLevel]
  · simpa [LevelBook.setLevel, same] using there

theorem add_levels_known (known : LevelsKnown b) (id : Id) (price : Price) (quantity : Int)
    (isBuy : Bool) : LevelsKnown (b.addOrder id price quantity isBuy) := by
  intro i o looked
  apply set_level_there
  by_cases same : i = id
  · subst same
    have entry : o = ⟨i, price, quantity, isBuy⟩ := by
      simpa [LevelBook.addOrder, LevelBook.setLookup, eq_comm] using looked
    exact Or.inl (by rw [entry])
  · refine Or.inr (known i o ?_)
    simpa [LevelBook.addOrder, LevelBook.setLookup, LevelBook.setLevel, same] using looked

theorem erase_levels_known (known : LevelsKnown b) (price : Price) (id : Id) :
    LevelsKnown (b.setLevel price id none) :=
  fun i o looked => set_level_there b price id none (Or.inr (known i o looked))

theorem call_levels_known (c : BookCall Price Id) (known : LevelsKnown b) :
    LevelsKnown (b.call c) := by
  cases c with
  | addOrder id price quantity isBuy => exact add_levels_known known id price quantity isBuy
  | modifyOrder id newPrice newQuantity =>
    simp only [LevelBook.call, LevelBook.modifyOrder]
    split
    · exact add_levels_known (erase_levels_known known _ id) id newPrice newQuantity _
    · exact known
  | deleteOrder id =>
    simp only [LevelBook.call, LevelBook.deleteOrder]
    split
    · rename_i old present
      intro i o looked
      by_cases same : i = id
      · subst same
        simp [LevelBook.setLookup] at looked
      · refine erase_levels_known known old.price id i o ?_
        simpa [LevelBook.setLookup, same] using looked
    · exact known

theorem reached_levels_known (calls : List (BookCall Price Id)) :
    LevelsKnown (exec LevelBook.call (.create : LevelBook Price Id) calls) := by
  have free : Each LevelBook.call (fun _ _ => True) .create calls := fun _ _ _ _ => trivial
  refine exec_invariant LevelsKnown ?_ ?_ free
  · exact fun b c known _ => call_levels_known c known
  · simp [LevelsKnown, LevelBook.create]

end Reached
end Phase5
