import TradingSystems.Library.OrderedMap
import Mathlib.Data.List.Induction
import Mathlib.Order.Lattice

/- The market snapshot: two ordered maps of price levels, the best one first. An update
   writes a level, or erases it when the quantity is zero. -/
namespace Phase3
open OrderedMap

structure PriceLevel (Price : Type) where
  price : Price
  quantity : Int
  deriving DecidableEq, Repr

section Levels
variable {Price : Type} {before : Price → Price → Prop} [DecidableRel before]
  [IsStrictTotalOrder Price before]

def updateLevels (levels : Map Price (PriceLevel Price) before) (price : Price) (qty : Int) :
    Map Price (PriceLevel Price) before :=
  if qty = 0 then levels.erase price else levels.assign price ⟨price, qty⟩

def bestLevel (levels : Map Price (PriceLevel Price) before) : Option (PriceLevel Price) :=
  levels.first.map Prod.snd

end Levels

section Snapshot
variable {Price : Type} [LinearOrder Price]

structure MarketSnapshot (Price : Type) [LinearOrder Price] where
  bids : Map Price (PriceLevel Price) (· > ·)
  asks : Map Price (PriceLevel Price) (· < ·)

namespace MarketSnapshot

def create : MarketSnapshot Price := ⟨.empty, .empty⟩

def updateBid (s : MarketSnapshot Price) (price : Price) (qty : Int) : MarketSnapshot Price :=
  { s with bids := updateLevels s.bids price qty }

def updateAsk (s : MarketSnapshot Price) (price : Price) (qty : Int) : MarketSnapshot Price :=
  { s with asks := updateLevels s.asks price qty }

def getBestBid (s : MarketSnapshot Price) : Option (PriceLevel Price) := bestLevel s.bids

def getBestAsk (s : MarketSnapshot Price) : Option (PriceLevel Price) := bestLevel s.asks

end MarketSnapshot

inductive SnapshotCall (Price : Type) where
  | updateBid (price : Price) (qty : Int)
  | updateAsk (price : Price) (qty : Int)
  deriving DecidableEq, Repr

def MarketSnapshot.call (s : MarketSnapshot Price) : SnapshotCall Price → MarketSnapshot Price
  | .updateBid price qty => s.updateBid price qty
  | .updateAsk price qty => s.updateAsk price qty

def SnapshotCall.bid : SnapshotCall Price → Option (Price × Int)
  | .updateBid price qty => some (price, qty)
  | .updateAsk .. => none

def SnapshotCall.ask : SnapshotCall Price → Option (Price × Int)
  | .updateBid .. => none
  | .updateAsk price qty => some (price, qty)

/-- The quantity of the most recent write to a price. -/
def lastWrite (writes : List (Price × Int)) (price : Price) : Option Int :=
  (writes.filter fun w => w.1 = price).getLast?.map Prod.snd

def lastBid (calls : List (SnapshotCall Price)) : Price → Option Int :=
  lastWrite (calls.filterMap SnapshotCall.bid)

def lastAsk (calls : List (SnapshotCall Price)) : Price → Option Int :=
  lastWrite (calls.filterMap SnapshotCall.ask)

theorem last_write_snoc (writes : List (Price × Int)) (price : Price) (qty : Int) :
    lastWrite (writes ++ [(price, qty)]) =
      Function.update (lastWrite writes) price (some qty) := by
  funext other
  by_cases same : other = price
  · rw [same, Function.update_self]
    simp [lastWrite]
  · rw [Function.update_of_ne same]
    simp [lastWrite, Ne.symm same]

end Snapshot

section Refinement
variable {Price : Type} {before : Price → Price → Prop}
  {levels : Map Price (PriceLevel Price) before} {last : Price → Option Int}

/-- The map holds the levels whose last quantity is not zero. -/
def Shows (levels : Map Price (PriceLevel Price) before) (last : Price → Option Int) : Prop :=
  ∀ price level, levels.Holds price level ↔
    ∃ qty, last price = some qty ∧ qty ≠ 0 ∧ level = ⟨price, qty⟩

theorem shown_level (shown : Shows levels last) {level : PriceLevel Price} :
    levels.Holds level.price level ↔
      last level.price = some level.quantity ∧ level.quantity ≠ 0 := by
  rw [shown]
  constructor
  · rintro ⟨qty, latest, nonzero, same⟩
    have quantity : level.quantity = qty := congrArg PriceLevel.quantity same
    rw [quantity]
    exact ⟨latest, nonzero⟩
  · rintro ⟨latest, nonzero⟩
    exact ⟨level.quantity, latest, nonzero, rfl⟩

theorem best_level_none_iff (shown : Shows levels last) :
    bestLevel levels = none ↔ ∀ price qty, last price = some qty → qty = 0 := by
  rw [bestLevel, Option.map_eq_none_iff, first_none_iff]
  constructor
  · intro nothing price qty latest
    by_contra nonzero
    exact nothing price ⟨price, qty⟩ ((shown price _).mpr ⟨qty, latest, nonzero, rfl⟩)
  · intro zero price level held
    obtain ⟨qty, latest, nonzero, -⟩ := (shown price level).mp held
    exact nonzero (zero price qty latest)

variable [IsStrictTotalOrder Price before]

theorem best_level_iff (shown : Shows levels last) {level : PriceLevel Price} :
    bestLevel levels = some level ↔ (last level.price = some level.quantity ∧ level.quantity ≠ 0) ∧
      ∀ price qty, last price = some qty → qty ≠ 0 →
        price = level.price ∨ before level.price price := by
  have entry : bestLevel levels = some level ↔ levels.first = some (level.price, level) := by
    rw [bestLevel, Option.map_eq_some_iff]
    constructor
    · rintro ⟨⟨price, level⟩, first, rfl⟩
      obtain ⟨qty, -, -, rfl⟩ := (shown price level).mp (first_holds first)
      exact first
    · exact fun first => ⟨_, first, rfl⟩
  rw [entry, first_iff, shown_level shown]
  refine and_congr_right fun _ => ?_
  constructor
  · intro least price qty latest nonzero
    exact least price ⟨price, qty⟩ ((shown price _).mpr ⟨qty, latest, nonzero, rfl⟩)
  · intro least price other held
    obtain ⟨qty, latest, nonzero, -⟩ := (shown price other).mp held
    exact least price qty latest nonzero

theorem update_shows [DecidableRel before] [DecidableEq Price] (shown : Shows levels last)
    (price : Price) (qty : Int) :
    Shows (updateLevels levels price qty) (Function.update last price (some qty)) := by
  intro other level
  by_cases same : other = price
  · subst same
    rw [Function.update_self, updateLevels]
    split_ifs with zero
    · simp [holds_erase, zero]
    · simp [holds_assign, zero]
  · rw [Function.update_of_ne same, ← shown other level, updateLevels]
    split_ifs with zero
    · simp [holds_erase, same]
    · simp [holds_assign, same]

end Refinement

section Runs
variable {Price : Type} [LinearOrder Price]

def writeAll {before : Price → Price → Prop} [DecidableRel before] [IsStrictTotalOrder Price before]
    (writes : List (Price × Int)) : Map Price (PriceLevel Price) before :=
  writes.foldl (fun levels w => updateLevels levels w.1 w.2) .empty

theorem write_all_shows {before : Price → Price → Prop} [DecidableRel before]
    [IsStrictTotalOrder Price before] (writes : List (Price × Int)) :
    Shows (writeAll writes : Map Price (PriceLevel Price) before) (lastWrite writes) := by
  induction writes using List.reverseRecOn with
  | nil =>
    intro price level
    simp [writeAll, lastWrite, not_holds_empty]
  | append_singleton writes w ih =>
    rw [last_write_snoc, writeAll, List.foldl_append]
    exact update_shows ih w.1 w.2

theorem run_maps (calls : List (SnapshotCall Price)) :
    (calls.foldl MarketSnapshot.call .create).bids = writeAll (calls.filterMap SnapshotCall.bid) ∧
      (calls.foldl MarketSnapshot.call .create).asks =
        writeAll (calls.filterMap SnapshotCall.ask) := by
  induction calls using List.reverseRecOn with
  | nil => exact ⟨rfl, rfl⟩
  | append_singleton calls call ih =>
    simp only [List.foldl_append, List.filterMap_append, writeAll] at ih ⊢
    cases call with
    | updateBid price qty => exact ⟨congrArg (updateLevels · price qty) ih.1, ih.2⟩
    | updateAsk price qty => exact ⟨ih.1, congrArg (updateLevels · price qty) ih.2⟩

theorem own_calls {α β : Type} (f : α → Option β) (calls : List α) :
    (calls.filter fun c => (f c).isSome).filterMap f = calls.filterMap f := by
  rw [List.filterMap_filter]
  refine congrArg (List.filterMap · calls) (funext fun c => ?_)
  cases f c <;> rfl

/-- The best levels after any history, from the last write to each price; the calls of the
    other side make no difference. -/
theorem last_write_wins (calls : List (SnapshotCall Price)) :
    let s := calls.foldl MarketSnapshot.call .create
    (∀ level, s.getBestBid = some level ↔
      (lastBid calls level.price = some level.quantity ∧ level.quantity ≠ 0) ∧
        ∀ price qty, lastBid calls price = some qty → qty ≠ 0 → price ≤ level.price) ∧
    (s.getBestBid = none ↔ ∀ price qty, lastBid calls price = some qty → qty = 0) ∧
    (∀ level, s.getBestAsk = some level ↔
      (lastAsk calls level.price = some level.quantity ∧ level.quantity ≠ 0) ∧
        ∀ price qty, lastAsk calls price = some qty → qty ≠ 0 → level.price ≤ price) ∧
    (s.getBestAsk = none ↔ ∀ price qty, lastAsk calls price = some qty → qty = 0) ∧
    s.bids = ((calls.filter fun c => c.bid.isSome).foldl MarketSnapshot.call .create).bids ∧
    s.asks = ((calls.filter fun c => c.ask.isSome).foldl MarketSnapshot.call .create).asks := by
  intro s
  obtain ⟨bids, asks⟩ := run_maps calls
  have bids_shown : Shows s.bids (lastBid calls) := bids ▸ write_all_shows _
  have asks_shown : Shows s.asks (lastAsk calls) := asks ▸ write_all_shows _
  refine ⟨fun level => ?_, best_level_none_iff bids_shown, fun level => ?_,
    best_level_none_iff asks_shown, ?_, ?_⟩
  · simp only [le_iff_eq_or_lt]
    exact best_level_iff bids_shown
  · simp only [le_iff_eq_or_lt, eq_comm (a := level.price)]
    exact best_level_iff asks_shown
  · rw [(run_maps (calls.filter fun c => c.bid.isSome)).1, own_calls]
    exact bids
  · rw [(run_maps (calls.filter fun c => c.ask.isSome)).2, own_calls]
    exact asks

end Runs
end Phase3
