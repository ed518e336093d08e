import TradingSystems.Library.Numerals
import TradingSystems.Phase4.OrderManager

/- The trade log as a file of comma-separated lines. The stream keeps its default
   precision, so a price is printed with six significant digits. -/
namespace Phase4
open Decimal Formats Extraction CString

def csvHeader : Text := "BuyOrderID,SellOrderID,Price,Quantity".toList

def csvLine (t : Trade ℚ Int) : Text :=
  showInt t.buyOrderId ++ ',' :: (showInt t.sellOrderId ++
    ',' :: (showGeneral 6 t.price ++ ',' :: showInt t.quantity))

def TradeLogger.flushToFile (l : TradeLogger ℚ Int) (isOpen : Bool) (file : Text) : Text :=
  if isOpen then csvHeader ++ '\n' :: l.trades.flatMap (fun t => csvLine t ++ ['\n']) else file

def readTrade (line : Text) : Option (Trade ℚ Int) :=
  match line.splitOn ',' with
  | [buy, sell, price, quantity] => do
    some ⟨← readInt buy, ← readInt sell, ← readDecimal price, ← readInt quantity⟩
  | _ => none

/-- The header, then one trade per line, each line ended by a newline. -/
def readLog (file : Text) : Option (List (Trade ℚ Int)) :=
  match file.splitOn '\n' with
  | header :: lines => if header = csvHeader then lines.dropLast.mapM readTrade else none
  | [] => none

def shownTrade (t : Trade ℚ Int) : Trade ℚ Int := { t with price := shownGeneral 6 t.price }

theorem show_general_chars (q : ℚ) :
    ∀ c ∈ showGeneral 6 q, c.isDigit = true ∨ c ∈ ['-', '+', '.', 'e'] := by
  obtain ⟨n, printed, text, _⟩ := show_general_numeral (show 0 < 6 by decide) q
  rw [text]
  exact printed.chars

theorem read_show_general (q : ℚ) :
    readDecimal (showGeneral 6 q) = some (shownGeneral 6 q) := by
  obtain ⟨n, printed, text, value⟩ := show_general_numeral (show 0 < 6 by decide) q
  rw [text, read_numeral printed, value]

theorem separator_not_mem {c : Char} (separator : c = ',' ∨ c = '\n') :
    (∀ n, c ∉ showInt n) ∧ ∀ q, c ∉ showGeneral 6 q := by
  have other : c.isDigit = false ∧ c ∉ ['-', '+', '.', 'e'] := by
    rcases separator with rfl | rfl <;> decide
  obtain ⟨no_digit, no_sign⟩ := other
  constructor
  · intro n member
    rcases show_int_chars c member with minus | digit
    · exact no_sign (by simp [minus])
    · rw [no_digit] at digit
      cases digit
  · intro q member
    rcases show_general_chars q c member with digit | sign
    · rw [no_digit] at digit
      cases digit
    · exact no_sign sign

theorem csv_line_fields (t : Trade ℚ Int) : (csvLine t).splitOn ',' =
    [showInt t.buyOrderId, showInt t.sellOrderId, showGeneral 6 t.price, showInt t.quantity] := by
  obtain ⟨ints, prices⟩ := separator_not_mem (c := ',') (Or.inl rfl)
  rw [csvLine, List.splitOn_append_cons_self_of_not_mem (ints _),
    List.splitOn_append_cons_self_of_not_mem (ints _),
    List.splitOn_append_cons_self_of_not_mem (prices _), List.splitOn_eq_singleton (ints _)]

theorem read_csv_line (t : Trade ℚ Int) : readTrade (csvLine t) = some (shownTrade t) := by
  rw [readTrade, csv_line_fields]
  simp only [read_show_int, read_show_general]
  rfl

theorem csv_line_one_line (t : Trade ℚ Int) : '\n' ∉ csvLine t := by
  obtain ⟨ints, prices⟩ := separator_not_mem (c := '\n') (Or.inr rfl)
  simp [csvLine, ints, prices]

theorem split_csv_lines (ts : List (Trade ℚ Int)) :
    (ts.flatMap fun t => csvLine t ++ ['\n']).splitOn '\n' = ts.map csvLine ++ [[]] := by
  induction ts with
  | nil => rfl
  | cons t ts ih =>
    rw [List.flatMap_cons, List.append_assoc, List.singleton_append,
      List.splitOn_append_cons_self_of_not_mem (csv_line_one_line t), ih]
    rfl

theorem read_csv_lines (ts : List (Trade ℚ Int)) :
    (ts.map csvLine).mapM readTrade = some (ts.map shownTrade) := by
  induction ts with
  | nil => rfl
  | cons t ts ih =>
    rw [List.map_cons, List.mapM_cons, read_csv_line, ih]
    rfl

theorem read_flushed (trades : List (Trade ℚ Int)) (file : Text) :
    readLog ((trades.foldl TradeLogger.logTrade TradeLogger.create).flushToFile true file) =
      some (trades.map shownTrade) := by
  have one_line : '\n' ∉ csvHeader := by decide
  rw [log_trades]
  simp only [TradeLogger.create, List.nil_append, TradeLogger.flushToFile, ↓reduceIte]
  rw [readLog, List.splitOn_append_cons_self_of_not_mem one_line, split_csv_lines]
  dsimp only
  rw [if_pos rfl, List.dropLast_concat, read_csv_lines]

/-- What was logged is read back exactly when no price has further digits. -/
theorem trade_log_round_trip_iff (trades : List (Trade ℚ Int)) (file : Text) :
    readLog ((trades.foldl TradeLogger.logTrade TradeLogger.create).flushToFile true file) =
      some trades ↔ ∀ t ∈ trades, FewDigits 6 t.price := by
  have same_trade (t : Trade ℚ Int) : shownTrade t = t ↔ FewDigits 6 t.price := by
    rw [← shown_general_eq_iff 6 (by decide)]
    constructor
    · intro same
      exact congrArg Trade.price same
    · intro same
      rw [shownTrade, same]
  have unchanged : trades.map shownTrade = trades ↔ ∀ t ∈ trades, shownTrade t = t := by
    simpa using List.map_inj_left (f := shownTrade) (g := id) (l := trades)
  rw [read_flushed, Option.some.injEq, unchanged]
  constructor
  · intro same t member
    exact (same_trade t).mp (same t member)
  · intro few t member
    exact (same_trade t).mpr (few t member)

/-- A seventh digit is lost. -/
theorem trade_log_loses_digits : ¬ ∀ (trades : List (Trade ℚ Int)) (file : Text),
    readLog ((trades.foldl TradeLogger.logTrade TradeLogger.create).flushToFile true file) =
      some trades := by
  intro every
  have kept := every [⟨3, 1, 1478071 / 10000, 22⟩] []
  rw [read_flushed] at kept
  exact absurd kept (by decide +kernel)

end Phase4
