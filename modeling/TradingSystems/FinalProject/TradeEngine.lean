import TradingSystems.Library.CString
import TradingSystems.Library.Delimited

/- The security line in the main loop of the trade engine. A word is stored when its
   delimiter is met, at the index of that character; `numDelim` is counted and not used.
   The writes are logged, since the array has three cells and the index any value. -/
namespace FinalProject
open Decimal CString Delimited

structure ParsedArray where
  cells : Nat → Text
  written : List (Nat × Text)

def ParsedArray.assign (parsed : ParsedArray) (i : Nat) (temp : Text) : ParsedArray where
  cells := Function.update parsed.cells i temp
  written := parsed.written ++ [(i, temp)]

def parseLoop (delim : Char) : Text → Nat → Text → Nat → ParsedArray → ParsedArray
  | [], _, _, _, parsed => parsed
  | c :: sec, i, temp, numDelim, parsed =>
    if c ≠ delim then parseLoop delim sec (i + 1) (temp ++ [c]) numDelim parsed
    else parseLoop delim sec (i + 1) [] (numDelim + 1) (parsed.assign i temp)

def parseSec (sec : Text) (delim : Char) (parsed : ParsedArray) : ParsedArray :=
  parseLoop delim sec 0 [] 0 parsed

def splitSecurity (security : Text) (parsed : ParsedArray) : Except Thrown ParsedArray := do
  let sec ← substr security 16
  return parseSec sec '|' parsed

def ParsedArray.submitted (parsed : ParsedArray) : Text × Text := (parsed.cells 0, parsed.cells 2)

def securityLine (ticker bid ask : Text) : Text :=
  "SEC|".toList ++ ticker ++ "|BID|".toList ++ bid ++ "|ASK|".toList ++ ask

/-- All writes are inside the array, and bid and ask are where `main` looks for them. -/
structure ParsedArray.Holds (bid ask : Text) (parsed : ParsedArray) : Prop where
  inside : ∀ w ∈ parsed.written, w.1 < 3
  submitted : parsed.submitted = (bid, ask)

section Words
variable {delim : Char} {word sec temp : Text} {i numDelim : Nat} {parsed : ParsedArray}

theorem parse_last (whole : delim ∉ word) :
    parseLoop delim word i temp numDelim parsed = parsed := by
  induction word generalizing i temp with
  | nil => rfl
  | cons c word ih =>
    rw [List.mem_cons, not_or] at whole
    obtain ⟨other, rest⟩ := whole
    rw [parseLoop, if_pos (Ne.symm other), ih rest]

theorem parse_word (whole : delim ∉ word) :
    parseLoop delim (word ++ delim :: sec) i temp numDelim parsed =
      parseLoop delim sec (i + word.length + 1) [] (numDelim + 1)
        (parsed.assign (i + word.length) (temp ++ word)) := by
  induction word generalizing i temp with
  | nil => simp [parseLoop]
  | cons c word ih =>
    rw [List.mem_cons, not_or] at whole
    obtain ⟨other, rest⟩ := whole
    rw [List.cons_append, parseLoop, if_pos (Ne.symm other), ih rest, List.length_cons,
      List.append_assoc, Nat.add_assoc i, Nat.add_comm 1]
    rfl

theorem parse_bid_and_ask {bid ask : Text} (bid_whole : '|' ∉ bid) (ask_whole : '|' ∉ ask) :
    parseSec (bid ++ "|ASK|".toList ++ ask) '|' parsed =
      (parsed.assign bid.length bid).assign (bid.length + 4) "ASK".toList := by
  have shape : bid ++ "|ASK|".toList ++ ask = bid ++ '|' :: ("ASK".toList ++ '|' :: ask) := by
    simp
  have no_bar : '|' ∉ "ASK".toList := by decide
  rw [parseSec, shape, parse_word bid_whole, parse_word no_bar, parse_last ask_whole]
  simp [Nat.add_assoc]

end Words

/-- Of no line are the bid and the ask split off: the second write is behind the array,
    the first cell is left as it was, and the ask is not stored at all. -/
theorem bid_and_ask_never_split {ticker bid ask : Text} {cells : Nat → Text}
    (seven : ticker.length = 7) (some_bid : bid ≠ []) (bid_whole : '|' ∉ bid)
    (ask_whole : '|' ∉ ask) :
    ∃ parsed, splitSecurity (securityLine ticker bid ask) ⟨cells, []⟩ = .ok parsed ∧
      parsed.written = [(bid.length, bid), (bid.length + 4, "ASK".toList)] ∧
      parsed.cells 0 = cells 0 ∧ ¬ parsed.Holds bid ask := by
  have line : securityLine ticker bid ask =
      ("SEC|".toList ++ ticker ++ "|BID|".toList) ++ (bid ++ "|ASK|".toList ++ ask) := by
    change "SEC|".toList ++ ticker ++ "|BID|".toList ++ bid ++ "|ASK|".toList ++ ask = _
    simp only [List.append_assoc]
  have front : ("SEC|".toList ++ ticker ++ "|BID|".toList).length = 16 := by
    simp [seven]
  have rest : substr (securityLine ticker bid ask) 16 = .ok (bid ++ "|ASK|".toList ++ ask) := by
    have enough : 16 ≤ (securityLine ticker bid ask).length := by
      rw [line, List.length_append, front]
      exact Nat.le_add_right 16 _
    rw [substr, if_pos enough, line, List.drop_left' front]
  have positive : 0 < bid.length := List.length_pos_of_ne_nil some_bid
  refine ⟨_, by rw [splitSecurity, rest]; rfl, ?_⟩
  rw [parse_bid_and_ask bid_whole ask_whole]
  refine ⟨rfl, ?_, fun holds => ?_⟩
  · have later : 0 ≠ bid.length + 4 := by omega
    simp only [ParsedArray.assign]
    rw [Function.update_of_ne later, Function.update_of_ne positive.ne]
  · have last := holds.inside _ (List.mem_append_right _ (List.mem_singleton_self _))
    exact absurd last (by dsimp only; omega)

theorem sample_never_split :
    ∃ parsed, splitSecurity
        (securityLine "SEC0005".toList "64.642".toList "65.0693".toList) ⟨fun _ => [], []⟩ =
          .ok parsed ∧
      parsed.written = [("64.642".toList.length, "64.642".toList),
        ("64.642".toList.length + 4, "ASK".toList)] ∧
      parsed.cells 0 = [] ∧ ¬ parsed.Holds "64.642".toList "65.0693".toList :=
  bid_and_ask_never_split (by decide) (by decide) (by decide) (by decide)

theorem sample_not_split :
    ∃ parsed, splitSecurity "SEC|SEC0005|BID|64.642|ASK|65.0693".toList ⟨fun _ => [], []⟩ =
        .ok parsed ∧
      parsed.written = [(6, "64.642".toList), (10, "ASK".toList)] ∧
      parsed.submitted = ([], []) ∧ ¬ parsed.Holds "64.642".toList "65.0693".toList := by
  refine ⟨_, rfl, rfl, rfl, fun holds => ?_⟩
  have first := holds.inside (6, "64.642".toList) (List.mem_cons_self ..)
  exact absurd first (by decide)

end FinalProject
