import TradingSystems.Phase3.TradeSim

/- The quantities of the best levels. The parser takes every `int`, and an update erases a
   level for a zero only, so a negative quantity stays until its price is written again. -/
namespace Phase3
open Decimal Extraction Fields OrderedMap TradeSim Binary64

def Covered {Price : Type} (before : Price → Price → Prop) (last : Price → Option Int) : Prop :=
  ∀ price qty, last price = some qty → qty < 0 →
    ∃ better more, last better = some more ∧ 0 < more ∧ before better price

section Levels
variable {Price : Type} {before : Price → Price → Prop} [IsStrictTotalOrder Price before]
  {levels : Map Price (PriceLevel Price) before} {last : Price → Option Int}

theorem best_positive_iff (shown : Shows levels last) :
    (∀ level, bestLevel levels = some level → 0 < level.quantity) ↔ Covered before last := by
  constructor
  · intro positive price qty latest negative
    cases best : bestLevel levels with
    | none =>
      have zero := (best_level_none_iff shown).mp best price qty latest
      omega
    | some level =>
      obtain ⟨⟨held, -⟩, first⟩ := (best_level_iff shown).mp best
      have real := positive level best
      refine ⟨level.price, level.quantity, held, real, ?_⟩
      rcases first price qty latest (by omega) with same | behind
      · rw [same, held, Option.some.injEq] at latest
        omega
      · exact behind
  · intro covered level best
    obtain ⟨⟨held, nonzero⟩, first⟩ := (best_level_iff shown).mp best
    by_contra negative
    obtain ⟨better, more, latest, real, ahead⟩ := covered level.price _ held (by omega)
    rcases first better more latest (by omega) with same | behind
    · rw [same] at ahead
      exact irrefl_of before _ ahead
    · exact asymm_of before ahead behind

end Levels

def RealLevels (snapshot : MarketSnapshot ℚ) : Prop :=
  (∀ level, snapshot.getBestBid = some level → 0 < level.quantity) ∧
    ∀ level, snapshot.getBestAsk = some level → 0 < level.quantity

def lineCalls (ls : List Text) : List (SnapshotCall ℚ) :=
  (ls.filterMap lineEvent).filterMap FeedEvent.snapshotCall

theorem market_real_iff (feed : List FeedEvent) : RealLevels (market feed) ↔
    Covered (· > ·) (lastBid (feed.filterMap FeedEvent.snapshotCall)) ∧
      Covered (· < ·) (lastAsk (feed.filterMap FeedEvent.snapshotCall)) := by
  obtain ⟨bids, asks⟩ := run_maps (feed.filterMap FeedEvent.snapshotCall)
  have bids_shown : Shows (market feed).bids (lastBid _) := bids ▸ write_all_shows _
  have asks_shown : Shows (market feed).asks (lastAsk _) := asks ▸ write_all_shows _
  exact and_congr (best_positive_iff bids_shown) (best_positive_iff asks_shown)

/-- Every level that is ever returned is real exactly when, behind every line of the file, a
    bid whose last quantity is negative is below one whose last quantity is positive, and such
    an ask above one. -/
theorem real_levels_iff (filename : String) (text : Text) :
    (∀ before after, (loadFeed filename (some text)).events = before ++ after →
      RealLevels (run before).snapshot) ↔
    ∀ ls rest, getLines text = ls ++ rest →
      Covered (· > ·) (lastBid (lineCalls ls)) ∧ Covered (· < ·) (lastAsk (lineCalls ls)) := by
  simp only [load_lines, (run_follows _).snapshot, market_real_iff]
  constructor
  · intro real ls rest split
    exact real _ _ (by rw [split, List.filterMap_append])
  · intro covered before after split
    obtain ⟨ls, rest, lines, rfl, -⟩ := List.filterMap_eq_append_iff.mp split
    exact covered ls rest lines

theorem negative_level_returned : ¬ ∀ text before after,
    (loadFeed "sample_feed.txt" (some text)).events = before ++ after →
      RealLevels (run before).snapshot := by
  intro real
  have word : field extractWord "BID 101 -5".toList = some ("BID".toList, " 101 -5".toList) := by
    decide
  have pair : pairOf extractDouble " 101 -5".toList = some (101, -5) := by decide +kernel
  have bid : lineEvent "BID 101 -5".toList = some ⟨.bid, binary64 101, -5, -1⟩ := by
    rw [lineEvent, if_neg (by decide), word, Option.bind_some]
    dsimp only
    rw [if_pos (by decide), pair]
    rfl
  have lines : getLines "BID 101 -5\n".toList = ["BID 101 -5".toList] := by decide
  have loaded : (loadFeed "sample_feed.txt" (some "BID 101 -5\n".toList)).events =
      [⟨.bid, binary64 101, -5, -1⟩] ++ [] := by
    rw [load_lines, lines, List.filterMap_cons_some bid]
    rfl
  have levels := (real _ _ _ loaded).1
  rw [(run_follows _).snapshot] at levels
  exact absurd (levels ⟨binary64 101, -5⟩ rfl) (by decide)

end Phase3
